import Lzhlib.PushWakeups
import Lzhlib.Settling

namespace Lzhlib.QueueProgress

open Interleaving Settling ThreadQueue QueueLocks QueueChain QueueWakeups PushWakeups

variable {T : Type} {c d : QueueConfig T} {t u : Nat} {s s' : Shared T} {p p' q : Pc T}

def Quiet (t : Nat) (s : Shared T) (p : Pc T) : Prop :=
  ∀ k, p = .asleep k → s.sleeping t = false

/-- The thread is in no call, or has completed it, or waits to be notified. -/
def AtRest (t : Nat) (s : Shared T) (p : Pc T) : Prop :=
  p = .idle ∨ p.Finished ∨ ∃ k, k ≠ .tryPop ∧ p = .asleep k ∧ s.sleeping t = true

section Moves

theorem holdsTail_moves (h : HoldsTail p) : ∃ s' p', Move t s p s' p' := by
  cases p <;> try exact absurd h id
  case pushRecheck =>
      cases hc : s.closed with
      | true => exact ⟨_, _, .recheckClosed hc⟩
      | false => exact ⟨_, _, .recheckOpen hc⟩
  case pushFill => exact ⟨_, _, .fill⟩
  case pushLink => exact ⟨_, _, .link⟩
  case pushAdvance => exact ⟨_, _, .advance⟩
  case pushUnlock => exact ⟨_, _, .unlockTail⟩
  case pushUnwind => exact ⟨_, _, .unwind⟩

theorem holdsHead_moves (h : HoldsHead p) (hfree : s.tailMutex = none) {a : Nat}
    (hhead : s.head = some a) : ∃ s' p', Move t s p s' p' := by
  cases p <;> try exact absurd h id
  case waitTest =>
      cases hc : s.closed with
      | true => exact ⟨_, _, .testClosed hc⟩
      | false => exact ⟨_, _, .testOpen hc⟩
  case waitTail => exact ⟨_, _, .waitTail hfree⟩
  case waitCompare k x b =>
      by_cases hb : s.head = some b
      · cases x with
        | true => exact ⟨_, _, .waitLate hb⟩
        | false => exact ⟨_, _, .waitEmpty hb⟩
      · exact ⟨_, _, .waitElement hb⟩
  case toSleep => exact ⟨_, _, .sleep⟩
  case lastTail => exact ⟨_, _, .lastTail hfree⟩
  case lastCompare k r b =>
      by_cases hb : s.head = some b
      · by_cases hr : r = .sawClosed
        · subst r
          exact ⟨_, _, .lastDrained hb⟩
        · exact ⟨_, _, .lastEmpty hr hb⟩
      · exact ⟨_, _, .lastElement hb⟩
  case popHead => exact ⟨_, _, .popHead hhead⟩
  case popUnlock => exact ⟨_, _, .unlockPopped⟩
  case missUnlock => exact ⟨_, _, .unlockMissed⟩

theorem free_moves (hhead : s.headMutex = none) (htail : s.tailMutex = none)
    (hheld : ¬HoldsHead p ∧ ¬HoldsTail p) (hwaits : Waits p)
    (howns : ∀ k a, p = .popTake k a → ∃ v, Owns t s a (some v)) (h : ¬AtRest t s p) :
    ∃ s' p', Move t s p s' p' := by
  cases p <;> first
    | exact absurd trivial hheld.1
    | exact absurd trivial hheld.2
    | exact absurd (Or.inl rfl) h
    | exact absurd (Or.inr (Or.inl trivial)) h
    | skip
  case pushCheck =>
      cases hc : s.closed with
      | true => exact ⟨_, _, .checkClosed hc⟩
      | false => exact ⟨_, _, .checkOpen hc⟩
  case pushAlloc => exact ⟨_, _, .allocFails⟩
  case pushLock => exact ⟨_, _, .lockTail htail⟩
  case pushNotify =>
      by_cases hs : ∀ u, s.sleeping u = false
      · exact ⟨_, _, .notifyNone hs⟩
      · obtain ⟨u, hu⟩ := not_forall.mp hs
        exact ⟨_, _, .notifyOne u (Bool.not_eq_false _ ▸ hu)⟩
  case pushFree => exact ⟨_, _, .free⟩
  case popLock k =>
      cases k with
      | tryPop => exact ⟨_, _, .lockTry hhead⟩
      | waitAndPop | waitForAndPop => exact ⟨_, _, .lockWait nofun hhead⟩
  case asleep k =>
      cases hs : s.sleeping t with
      | true => exact absurd (Or.inr (Or.inr ⟨k, hwaits, rfl, hs⟩)) h
      | false => exact ⟨_, _, .wake hs⟩
  case awake => exact ⟨_, _, .relock hhead⟩
  case popTake k a =>
      obtain ⟨v, hv⟩ := howns k a rfl
      exact ⟨_, _, .take hv rfl⟩
  case closeStore => exact ⟨_, _, .storeClosed⟩
  case closeNotify => exact ⟨_, _, .notifyAll⟩

/-- No deadlock. While one thread is not at rest, some thread can move: the
holder of the tail's mutex, or else that of the head's, or else any. -/
theorem moves_exist (hc : Reachable c) (ht : ¬AtRest t c.shared (c.pc t)) :
    ∃ u s p, Quiet u c.shared (c.pc u) ∧ Move u c.shared (c.pc u) s p ∧
      (c.shared.headMutex ≠ none → HoldsHead (c.pc u) ∨ HoldsTail (c.pc u)) := by
  have hlock := reachable_locked hc
  obtain ⟨chain, hg, hl⟩ := reachable_chained hc
  have hquiet (u : Nat) (hu : HoldsHead (c.pc u) ∨ HoldsTail (c.pc u)) : Quiet u c.shared (c.pc u) := by
    intro k hk
    rw [hk] at hu
    exact absurd hu (not_or.mpr ⟨id, id⟩)
  cases htail : c.shared.tailMutex with
  | some u =>
      have hheld := (hlock u).2.mp htail
      obtain ⟨s, p, hm⟩ := holdsTail_moves (t := u) (s := c.shared) hheld
      exact ⟨u, s, p, hquiet u (Or.inr hheld), hm, fun _ => Or.inr hheld⟩
  | none =>
      cases hhead : c.shared.headMutex with
      | some u =>
          have hheld := (hlock u).1.mp hhead
          obtain ⟨a, ha⟩ := Segments.segment_start hg.segment
          obtain ⟨s, p, hm⟩ := holdsHead_moves (t := u) hheld htail ha
          exact ⟨u, s, p, hquiet u (Or.inl hheld), hm, fun _ => Or.inl hheld⟩
      | none =>
          have hknows := hl t
          have hheld : ¬HoldsHead (c.pc t) ∧ ¬HoldsTail (c.pc t) := by
            rw [← (hlock t).1, ← (hlock t).2, hhead, htail]
            exact ⟨nofun, nofun⟩
          have howns (k : Caller) (a : Nat) (hp : c.pc t = .popTake k a) :
              ∃ v, Owns t c.shared a (some v) := by
            rw [hp] at hknows
            exact hknows
          obtain ⟨s, p, hm⟩ := free_moves hhead htail hheld (reachable_waits hc t) howns ht
          refine ⟨t, s, p, fun k hk => ?_, hm, fun h => absurd rfl h⟩
          have hwaits := reachable_waits hc t
          rw [hk] at hwaits ht
          exact Bool.eq_false_of_not_eq_true fun hs => ht (Or.inr (Or.inr ⟨k, hwaits, rfl, hs⟩))

end Moves

section Ranks

def signals : Pc T → Nat
  | .pushCheck _ _ | .pushAlloc _ _ | .pushLock _ _ _ | .pushRecheck _ _ _ | .pushFill _ _ _
  | .pushLink _ _ _ | .pushAdvance _ _ _ | .pushUnlock _ | .pushNotify _ | .closeStore
  | .closeNotify => 1
  | _ => 0

def cargo : Pc T → Nat
  | .pushCheck _ _ | .pushAlloc _ _ | .pushLock _ _ _ | .pushRecheck _ _ _ | .pushFill _ _ _
  | .pushLink _ _ _ | .pushAdvance _ _ _ | .popUnlock _ _ | .popTake _ _ | .popReturned _ _ => 1
  | _ => 0

/-- More than the steps that the thread takes on its own before it is at rest. -/
def rank (t : Nat) (s : Shared T) : Pc T → Nat
  | .popLock _ | .awake _ _ => 12
  | .waitTest _ _ => 11
  | .waitTail _ _ => 10
  | .pushCheck _ _ | .waitCompare _ _ _ => 9
  | .pushAlloc _ _ | .toSleep _ => 8
  | .pushLock _ _ _ | .lastTail _ _ => 7
  | .pushRecheck _ _ _ | .lastCompare _ _ _ => 6
  | .pushFill _ _ _ | .popHead _ => 5
  | .pushLink _ _ _ | .popUnlock _ _ => 4
  | .pushAdvance _ _ _ | .popTake _ _ => 3
  | .pushUnlock _ | .pushUnwind _ _ | .missUnlock _ | .closeStore => 2
  | .pushNotify _ | .pushFree _ _ | .closeNotify => 1
  | .asleep _ => if s.sleeping t then 0 else 13
  | .idle | .pushReturned _ | .pushThrew _ | .pushFailed | .popReturned _ _ | .missReturned _
  | .closeReturned => 0

theorem rank_of_sleeping (h : s'.sleeping u = s.sleeping u) : rank u s' q = rank u s q := by
  cases q <;> try rfl
  rw [rank, h, rank]

/-- A step spends a notification or a value, or it brings its own thread closer
to rest and wakes nobody. -/
theorem move_spends (hm : Move t s p s' p') (hquiet : Quiet t s p) :
    signals p' + cargo p' + s'.queued.length + s.popped.length <
        signals p + cargo p + s.queued.length + s'.popped.length ∨
      (signals p' + cargo p' + s'.queued.length + s.popped.length =
          signals p + cargo p + s.queued.length + s'.popped.length ∧
        rank t s' p' < rank t s p ∧ ∀ u, u ≠ t → s'.sleeping u = s.sleeping u) := by
  have hawake {k : Caller} (hp : p = .asleep k) : rank t s p = 13 := by
    subst p
    rw [rank, hquiet k rfl]
    rfl
  cases hm with
  | advance | popHead =>
      refine Or.inr ⟨?_, Nat.lt_succ_self _, fun _ _ => rfl⟩
      simp [signals, cargo, Shared.modifyNode]
      omega
  | sleep =>
      refine Or.inr ⟨rfl, ?_, fun u hu => Function.update_of_ne hu _ _⟩
      simp [rank]
  | wake h =>
      refine Or.inr ⟨rfl, ?_, fun _ _ => rfl⟩
      rw [hawake rfl]
      exact Nat.lt_succ_self _
  | spurious | timeout =>
      refine Or.inr ⟨rfl, ?_, fun u hu => Function.update_of_ne hu _ _⟩
      rw [hawake rfl]
      exact Nat.lt_succ_self _
  | checkClosed | allocFails | recheckClosed | notifyNone | notifyOne | notifyAll =>
      refine Or.inl ?_
      simp only [signals, cargo]
      omega
  | _ =>
      refine Or.inr ⟨rfl, ?_, fun _ _ => rfl⟩
      simp only [rank]
      omega

theorem reachable_load (h : Reachable c) : c.shared.popped.length ≤ c.shared.queued.length := by
  obtain ⟨chain, hg, -⟩ := reachable_chained h
  have hlength := congrArg List.length hg.balance
  rw [List.length_append, List.length_map, List.length_map] at hlength
  exact hlength ▸ Nat.le_add_right _ _

def fuel (F : Finset Nat) (c : QueueConfig T) : Nat :=
  ∑ u ∈ F, (signals (c.pc u) + cargo (c.pc u)) + (c.shared.queued.length - c.shared.popped.length)

theorem move_idle (hm : Move t s p s' p') : p ≠ .idle := by
  rintro rfl
  cases hm

end Ranks

/-- The steps of the calls under way: no further calls are made, no wait times
out, and no thread wakes up for no reason. -/
abbrev QuietStep (c d : QueueConfig T) : Prop :=
  GuardedStep Move (fun c t => Quiet t c.shared (c.pc t)) c d

/-- Whatever state the threads have reached, they get to rest when no further
calls are made, in every order of their steps. Every `push`, `close` and
`try_pop` completes, and a waiting consumer completes or sleeps. -/
theorem reachable_settles (h : Reachable c) :
    Settles QuietStep (fun d => ∀ t, AtRest t d.shared (d.pc t)) c := by
  have hstart : ∀ t, t ∉ (∅ : Finset Nat) → (initial : QueueConfig T).pc t = .idle := fun _ _ => rfl
  obtain ⟨F, hF⟩ := finitely_active hstart h
  refine settles_of_ranks (I := fun c => Reachable c ∧ ∀ t, t ∉ F → c.pc t = .idle) F (fuel F) rank
    ?_ ?_ ?_ ⟨h, hF⟩
  · rintro c t s p ⟨hc, hidle⟩ - hm
    refine ⟨hc.next t (.move hm), fun u hu => ?_⟩
    rw [after_pc_of_ne]
    · exact hidle u hu
    · rintro rfl
      exact move_idle hm (hidle u hu)
  · rintro c t s p ⟨hc, hidle⟩ hquiet hm
    have ht : t ∈ F := by
      by_contra hnot
      exact move_idle hm (hidle t hnot)
    have hsum := sum_after (c := c) (s := s) (p := p) (fun q => signals q + cargo q) ht
    have hload := reachable_load hc
    have hload' := reachable_load (hc.next t (.move hm))
    rw [after_shared] at hload'
    rw [fuel, fuel, after_shared]
    obtain hless | ⟨hsame, hrank, hothers⟩ := move_spends hm hquiet
    · left
      omega
    · right
      exact ⟨by omega, ht, hrank, fun u hu => (rank_of_sleeping (hothers u hu)).le⟩
  · rintro c ⟨hc, -⟩
    by_cases hrest : ∀ t, AtRest t c.shared (c.pc t)
    · exact Or.inl hrest
    · obtain ⟨t, ht⟩ := not_forall.mp hrest
      obtain ⟨u, s, p, hquiet, hm, -⟩ := moves_exist hc ht
      exact Or.inr ⟨u, s, p, hquiet, hm⟩

theorem reachable_settles_pushing : ∃ c : QueueConfig Nat, c.pc 1 = .pushLock 0 7 1 ∧
    c.pc 2 = .asleep .waitAndPop ∧ Settles QuietStep (fun d => ∀ t, AtRest t d.shared (d.pc t)) c := by
  have h₀ : Reachable (initial : QueueConfig Nat) := .refl
  have hempty := (((((h₀.start 2).next (.pop .waitAndPop)).next (.move (.lockWait nofun rfl))).next
    (.move (.testOpen rfl))).next (.move (.waitTail rfl))).next (.move (.waitEmpty rfl))
  have h₁ := h₀.alone (hempty.next (.move .sleep))
  have h₂ := h₁.alone ((((h₁.start 1).next (.push 7)).next (.move (.checkOpen rfl))).next
    (.move (.alloc 1 rfl)))
  exact ⟨_, rfl, rfl, reachable_settles h₂⟩

end Lzhlib.QueueProgress
