import Lzhlib.ThreadQueue

namespace Lzhlib.ThreadPool

open Interleaving ThreadQueue

/-- A call of `submit`: the thread, and how many calls it made before. -/
abbrev Task := Nat × Nat

/-- The members of the pool, and after them the history of the run. -/
structure Pool where
  tasks : Shared Task
  stopped : Bool := false
  stopMutex : Option Nat := none
  -- The workers that are joined.
  joined : Nat → Bool := fun _ => false
  -- The workers whose `worker_function` has returned.
  exited : Nat → Bool := fun _ => false
  submits : Nat → Nat := fun _ => 0
  accepted : List Task := []
  rejected : List Task := []
  invoked : List Task := []
  finished : List Task := []
  -- Some call of `stop` has returned.
  halted : Bool := false

/-- Where a thread is. A `submit` remembers the task it is called from, if any. -/
inductive PoolPc
  | outside
  | starting
  | working (p : Pc Task)
  | running (j : Task)
  | exited
  | submitCheck (k : Option Task) (m : Nat)
  | submitMake (k : Option Task) (m : Nat)
  | submitting (k : Option Task) (m : Nat) (p : Pc Task)
  | stopLock
  | stopTest
  | stopStore
  | stopClosing (p : Pc Task)
  | stopJoin (i : Nat)
  | stopUnlock

def PoolPc.caller : Option Task → PoolPc
  | none => .outside
  | some j => .running j

inductive PoolMove (n t : Nat) : Pool → PoolPc → Pool → PoolPc → Prop
  | start {s} : PoolMove n t s .starting s (.working (.popLock .waitAndPop))
  | wait {s p q p'} (h : Move t s.tasks p q p') :
      PoolMove n t s (.working p) { s with tasks := q } (.working p')
  | invoke {s k j} : PoolMove n t s (.working (.popReturned k j))
      { s with invoked := s.invoked ++ [j] } (.running j)
  | finish {s j} : PoolMove n t s (.running j)
      { s with finished := s.finished ++ [j] } (.working (.popLock .waitAndPop))
  | exit {s k} : PoolMove n t s (.working (.missReturned k))
      { s with exited := Function.update s.exited t true } .exited
  -- Clients submit, and so do the tasks.
  | submit {s p} (k : Option Task) (h : p = .caller k) : PoolMove n t s p
      { s with submits := Function.update s.submits t (s.submits t + 1) }
      (.submitCheck k (s.submits t))
  | checkStopped {s k m} (h : s.stopped = true) : PoolMove n t s (.submitCheck k m)
      { s with rejected := (t, m) :: s.rejected } (.caller k)
  | checkRunning {s k m} (h : s.stopped = false) :
      PoolMove n t s (.submitCheck k m) s (.submitMake k m)
  -- packaged_task and get_future may throw.
  | makeFails {s k m} : PoolMove n t s (.submitMake k m) s (.caller k)
  | make {s k m} : PoolMove n t s (.submitMake k m)
      { s with tasks := { s.tasks with
        calls := Function.update s.tasks.calls t (s.tasks.calls t + 1) } }
      (.submitting k m (.pushCheck (s.tasks.calls t) (t, m)))
  | push {s k m p q p'} (h : Move t s.tasks p q p') :
      PoolMove n t s (.submitting k m p) { s with tasks := q } (.submitting k m p')
  | accept {s k m i} : PoolMove n t s (.submitting k m (.pushReturned i))
      { s with accepted := (t, m) :: s.accepted } (.caller k)
  | reject {s k m i} : PoolMove n t s (.submitting k m (.pushThrew i))
      { s with rejected := (t, m) :: s.rejected } (.caller k)
  | pushFails {s k m} : PoolMove n t s (.submitting k m .pushFailed) s (.caller k)
  -- A task must not call stop.
  | stop {s} : PoolMove n t s .outside s .stopLock
  | lockStop {s} (h : s.stopMutex = none) :
      PoolMove n t s .stopLock { s with stopMutex := some t } .stopTest
  | testStopped {s} (h : s.stopped = true) : PoolMove n t s .stopTest s .stopUnlock
  | testRunning {s} (h : s.stopped = false) : PoolMove n t s .stopTest s .stopStore
  | storeStopped {s} :
      PoolMove n t s .stopStore { s with stopped := true } (.stopClosing .closeStore)
  | close {s p q p'} (h : Move t s.tasks p q p') :
      PoolMove n t s (.stopClosing p) { s with tasks := q } (.stopClosing p')
  | closed {s} : PoolMove n t s (.stopClosing .closeReturned) s (.stopJoin 0)
  | join {s i} (hi : i < n) (hj : s.joined i = false) (h : s.exited i = true) :
      PoolMove n t s (.stopJoin i) { s with joined := Function.update s.joined i true }
        (.stopJoin (i + 1))
  | notJoinable {s i} (hi : i < n) (hj : s.joined i = true) :
      PoolMove n t s (.stopJoin i) s (.stopJoin (i + 1))
  | allJoined {s i} (hi : n ≤ i) : PoolMove n t s (.stopJoin i) s .stopUnlock
  | unlockStop {s} : PoolMove n t s .stopUnlock
      { s with stopMutex := none, halted := true } .outside

abbrev PoolConfig := Config Nat Pool PoolPc

def constructed (n : Nat) : PoolConfig :=
  ⟨{ tasks := .fresh }, fun t => if t < n then .starting else .outside⟩

abbrev PoolReachable (n : Nat) (c : PoolConfig) : Prop := Steps (PoolMove n) (constructed n) c

def PoolPc.inside : PoolPc → Pc Task
  | .working p | .submitting _ _ p | .stopClosing p => p
  | _ => .idle

theorem inside_caller (k : Option Task) : (PoolPc.caller k).inside = .idle := by
  cases k <;> rfl

def queueOf (c : PoolConfig) : QueueConfig Task := c.project Pool.tasks PoolPc.inside

theorem queueOf_after (c : PoolConfig) (t : Nat) (s : Pool) (p : PoolPc) :
    queueOf (c.after t s p) = (queueOf c).after t s.tasks p.inside := project_after c t s p

theorem move_client {n t : Nat} {s s' : Pool} {p p' : PoolPc} (hm : PoolMove n t s p s' p') :
    ClientMove t s.tasks p.inside s'.tasks p'.inside ∨ (s'.tasks = s.tasks ∧ p'.inside = p.inside) := by
  cases hm with
  | start => exact Or.inl (.pop .waitAndPop)
  | wait h => exact Or.inl (.move h)
  | invoke => exact Or.inl (.finish trivial)
  | finish => exact Or.inl (.pop .waitAndPop)
  | exit => exact Or.inl (.finish trivial)
  | submit k h =>
      rw [h, inside_caller]
      exact Or.inr ⟨rfl, rfl⟩
  | checkStopped h =>
      rw [inside_caller]
      exact Or.inr ⟨rfl, rfl⟩
  | makeFails =>
      rw [inside_caller]
      exact Or.inr ⟨rfl, rfl⟩
  | make => exact Or.inl (.push _)
  | push h => exact Or.inl (.move h)
  | accept =>
      rw [inside_caller]
      exact Or.inl (.finish trivial)
  | reject =>
      rw [inside_caller]
      exact Or.inl (.finish trivial)
  | pushFails =>
      rw [inside_caller]
      exact Or.inl (.finish trivial)
  | storeStopped => exact Or.inl .close
  | close h => exact Or.inl (.move h)
  | closed => exact Or.inl (.finish trivial)
  | checkRunning | stop | lockStop | testStopped | testRunning | join | notJoinable | allJoined
  | unlockStop => exact Or.inr ⟨rfl, rfl⟩

theorem queueOf_constructed (n : Nat) : queueOf (constructed n) = initial := by
  refine congrArg (Config.mk _) (funext fun t => ?_)
  by_cases ht : t < n
  · simp [constructed, ht, PoolPc.inside]
  · simp [constructed, ht, PoolPc.inside]

/-- Whatever holds of the queue in all states it can reach holds of the pool's queue. -/
theorem queue_reachable {n : Nat} {c : PoolConfig} (h : PoolReachable n c) :
    Reachable (queueOf c) := by
  have hsteps : Steps ClientMove (queueOf (constructed n)) (queueOf c) :=
    Steps.project (fun _ _ _ _ _ hm => move_client hm) h
  rwa [queueOf_constructed] at hsteps

end Lzhlib.ThreadPool
