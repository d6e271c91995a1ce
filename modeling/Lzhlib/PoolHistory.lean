import Lzhlib.QueueHistory
import Lzhlib.PoolRoles
import Lzhlib.Custody

namespace Lzhlib.PoolHistory

open Interleaving ThreadQueue QueueLocks QueueChain QueueHistory ThreadPool PoolRoles
  Custody

variable {n t u : Nat} {c d : PoolConfig} {s s' : Pool} {p p' : PoolPc}

section Submissions

def pushed {T : Type} : Pc T → Option T
  | .pushCheck _ v | .pushAlloc _ v | .pushLock _ v _ | .pushRecheck _ v _ | .pushFill _ v _
  | .pushLink _ v _ | .pushAdvance _ v _ => some v
  | _ => none

theorem move_pushed {T : Type} {q q' : Shared T} {x x' : Pc T} (hm : Move t q x q' x') :
    pushed x' = pushed x ∨ pushed x' = none := by
  cases hm <;> first | exact Or.inl rfl | exact Or.inr rfl

def Carries (t : Nat) : PoolPc → Prop
  | .submitting _ m q => ∀ v, pushed q = some v → v = (t, m)
  | _ => True

theorem carries_caller (k : Option Task) : Carries t (.caller k) := by
  cases k <;> trivial

theorem move_carries (hm : PoolMove n t s p s' p') (h : Carries t p) : Carries t p' := by
  cases hm with
  | make => exact fun v hv => (Option.some.inj hv).symm
  | push hm =>
      intro v hv
      obtain hsame | hnone := move_pushed hm
      · exact h v (hsame.symm.trans hv)
      · cases hnone.symm.trans hv
  | checkStopped | makeFails | accept | reject | pushFails => exact carries_caller _
  | start | wait | invoke | finish | exit | submit | checkRunning | stop | lockStop | testStopped
  | testRunning | storeStopped | close | closed | join | notJoinable | allJoined | unlockStop =>
      trivial

theorem reachable_carries (h : PoolReachable n c) (t : Nat) : Carries t (c.pc t) := by
  refine h.threadwise (L := Carries) (fun _ _ _ _ _ => move_carries) (fun u => ?_) t
  by_cases hu : u < n <;> simp [constructed, hu, Carries]

def submission : PoolPc → Stage
  | .submitCheck _ m | .submitMake _ m => .pending m
  | .submitting _ m q =>
      match q with
      | .pushUnlock _ | .pushNotify _ | .pushReturned _ => .appended m
      | _ => .pending m
  | _ => .outside

/-- The history of the submits. The tasks are in the order in which they were linked. -/
def submissions (s : Pool) : Journal :=
  ⟨s.tasks.queued.map Prod.snd, s.accepted, s.rejected, s.submits⟩

theorem submission_caller (k : Option Task) : submission (.caller k) = .outside := by
  cases k <;> rfl

theorem move_queued {T : Type} {q q' : Shared T} {x x' : Pc T} (hm : Move t q x q' x')
    (h : call x ≠ .push) : q'.queued = q.queued := by
  cases hm <;> first | rfl | exact absurd rfl h

theorem move_submissions (hm : PoolMove n t s p s' p') (hrole : Role n t p) (hc : Carries t p) :
    Writes t (submissions s) (submission p) (submissions s') (submission p') := by
  have hother {x x' : Pc Task} {q : Shared Task} (hm : Move t s.tasks x q x') (hx : call x ≠ .push) :
      submissions { s with tasks := q } = submissions s := by
    simp [submissions, move_queued hm hx]
  cases hm with
  | wait hm =>
      rw [hother hm (by rw [hrole.2]; nofun)]
      exact .nothing
  | close hm =>
      rw [hother hm (by rw [hrole.2]; nofun)]
      exact .nothing
  | submit k hk =>
      rw [hk, submission_caller]
      exact .called
  | checkStopped =>
      rw [submission_caller]
      exact .threw
  | makeFails =>
      rw [submission_caller]
      exact .failed
  | @push k m x q x' hm =>
      cases hm
      case advance i v a =>
          have hjournal : submissions { s with tasks := { s.tasks.modifyNode a ({ · with owner := none }) with
              tail := a, queued := s.tasks.queued ++ [((t, i), v)] } } =
              { submissions s with ids := (submissions s).ids ++ [(t, m)] } := by
            simp [submissions, hc v rfl]
          rw [hjournal]
          exact .appended
      all_goals exact .nothing
  | accept =>
      rw [submission_caller]
      exact .returned
  | reject =>
      rw [submission_caller]
      exact .threw
  | pushFails =>
      rw [submission_caller]
      exact .failed
  | start | invoke | finish | exit | checkRunning | make | stop | lockStop | testStopped
  | testRunning | storeStopped | closed | join | notJoinable | allJoined | unlockStop =>
      exact .nothing

theorem submissions_constructed (n : Nat) : Recorded (submissions (constructed n).shared) :=
  ⟨List.nodup_nil, List.nodup_nil, nofun, nofun, nofun⟩

theorem submission_constructed (n : Nat) (t : Nat) :
    submission ((constructed n).pc t) = .outside := by
  by_cases ht : t < n <;> simp [constructed, ht, submission]

theorem reachable_submissions (h : PoolReachable n c) :
    Recorded (submissions c.shared) ∧
      ∀ t, Tracks t (submissions c.shared) (submission (c.pc t)) := by
  refine steps_recorded submissions submission ?_ (submissions_constructed n) (fun t => ?_) h
  · intro d t s p hd hm
    exact move_submissions hm (reachable_role hd t) (reachable_carries hd t)
  · rw [submission_constructed]
    exact tracks_start rfl

end Submissions

section Hands

def inHand {T : Type} (q : Shared T) : Pc T → Option T
  | .popUnlock _ a | .popTake _ a => (q.heap a).bind Node.data
  | .popReturned _ v => some v
  | _ => none

theorem inHand_own {T : Type} {c : QueueConfig T} {q : Shared T} {x : Pc T} (hc : Reachable c)
    (hm : Move t c.shared (c.pc t) q x) :
    (q.popped = c.shared.popped ∧ inHand q x = inHand c.shared (c.pc t)) ∨
      ∃ v, q.popped = c.shared.popped ++ [some v] ∧ inHand c.shared (c.pc t) = none ∧
        inHand q x = some v := by
  obtain ⟨chain, hg, hl⟩ := reachable_chained hc
  have hk := hl t
  generalize c.pc t = y at hm hk
  cases hm with
  | @popHead k a h =>
      obtain ⟨⟨b, v⟩, rest, rfl⟩ := List.exists_cons_of_ne_nil hk
      obtain ⟨hb, m, hcell, -⟩ := hg.segment
      cases h.symm.trans hb
      have hnode := cell_eq hcell
      refine Or.inr ⟨v, by simp [hnode], rfl, ?_⟩
      simp [inHand, Shared.modifyNode, hnode]
  | take h hv => exact Or.inl ⟨rfl, by simp [inHand, h, hv]⟩
  | checkClosed | checkOpen | alloc | allocFails | lockTail | recheckClosed | recheckOpen | fill | link
  | advance | unlockTail | notifyNone | notifyOne | unwind | free | lockTry | lockWait | testClosed
  | testOpen | waitTail | waitElement | waitEmpty | waitLate | sleep | wake | spurious | timeout
  | relock | lastTail | lastElement | lastEmpty | lastDrained | unlockPopped | unlockMissed
  | storeClosed | notifyAll => exact Or.inl ⟨rfl, rfl⟩

theorem inHand_other {T : Type} {c : QueueConfig T} {q : Shared T} {x : Pc T} (hc : Reachable c)
    (hu : u ≠ t) (hm : ClientMove t c.shared (c.pc t) q x) :
    inHand q (c.pc u) = inHand c.shared (c.pc u) := by
  obtain ⟨chain, hg, hl⟩ := reachable_chained hc
  obtain ⟨chain', ⟨-, hframe⟩, -⟩ := client_keeps (reachable_locked hc) hg hl hm
  have howned := (hframe u hu).owned
  have hk := hl u
  generalize c.pc u = y at hk
  have hnode {a : Nat} (h : ∃ v, Owns u c.shared a (some v)) : q.heap a = c.shared.heap a := by
    obtain ⟨v, hv⟩ := h
    exact (howned a _ hv).trans hv.symm
  cases y <;> try rfl
  case popUnlock k a => rw [inHand, hnode hk, inHand]
  case popTake k a => rw [inHand, hnode hk, inHand]

def hand (q : Shared Task) : PoolPc → Hand Task
  | .working x => (inHand q x).elim .empty .taken
  | .running j => .running j
  | .submitCheck k _ | .submitMake k _ | .submitting k _ _ => k.elim .empty .running
  | _ => .empty

theorem hand_caller (q : Shared Task) (k : Option Task) :
    hand q (.caller k) = k.elim .empty .running := by
  cases k <;> rfl

def taken (s : Pool) : List Task := s.tasks.popped.filterMap id

def ledger (s : Pool) : Ledger Task := ⟨taken s, s.invoked, s.finished⟩

theorem ledger_of_popped {q : Shared Task} (h : q.popped = s.tasks.popped) :
    ledger { s with tasks := q } = ledger s := by
  simp [ledger, taken, h]

theorem move_popped {T : Type} {q q' : Shared T} {x x' : Pc T} (hm : Move t q x q' x')
    (h : ∀ k, call x ≠ .pop k) : q'.popped = q.popped := by
  cases hm <;> first | rfl | exact absurd rfl (h _)

theorem handles_took {q : Shared Task} {x x' : Pc Task} {j : Task}
    (hpopped : q.popped = s.tasks.popped ++ [some j]) (hempty : inHand s.tasks x = none)
    (htaken : inHand q x' = some j) :
    Handles (ledger s) (hand s.tasks (.working x)) (ledger { s with tasks := q })
      (hand q (.working x')) := by
  have hledger : ledger { s with tasks := q } =
      { ledger s with popped := (ledger s).popped ++ [j] } := by
    simp [ledger, taken, hpopped]
  rw [hledger, hand, hempty, hand, htaken]
  exact .takes

theorem move_handles (hc : PoolReachable n c) (hm : PoolMove n t c.shared (c.pc t) s p) :
    Handles (ledger c.shared) (hand c.shared.tasks (c.pc t)) (ledger s) (hand s.tasks p) := by
  have hrole := reachable_role hc t
  have hown {q : Shared Task} {x : Pc Task} := inHand_own (t := t) (q := q) (x := x) (queue_reachable hc)
  have hinside : (queueOf c).pc t = (c.pc t).inside := rfl
  generalize c.pc t = p₀ at hm hrole hinside
  cases hm with
  | wait hm =>
      rw [hinside] at hown
      obtain ⟨hpopped, hsame⟩ | ⟨v, hpopped, hempty, htaken⟩ := hown hm
      · exact handles_same (ledger_of_popped hpopped) (congrArg (Option.elim · _ _) hsame)
      · exact handles_took hpopped hempty htaken
  | push hm =>
      exact handles_same (ledger_of_popped (move_popped hm (by rw [hrole.2]; nofun))) rfl
  | close hm =>
      exact handles_same (ledger_of_popped (move_popped hm (by rw [hrole.2]; nofun))) rfl
  | submit k hk =>
      rw [hk]
      exact handles_same rfl (hand_caller _ k).symm
  | checkStopped | makeFails | accept | reject | pushFails => exact handles_same rfl (hand_caller _ _)
  | invoke => exact .invokes
  | finish => exact .finishes
  | start | exit | checkRunning | make | stop | lockStop | testStopped | testRunning | storeStopped
  | closed | join | notJoinable | allJoined | unlockStop => exact .nothing

theorem move_finishes (hm : PoolMove n t s p s' p') :
    s'.finished = s.finished ∨ ∃ j, p = .running j ∧ s'.finished = s.finished ++ [j] := by
  cases hm with
  | @finish j => exact Or.inr ⟨j, rfl, rfl⟩
  | start | wait | invoke | exit | submit | checkStopped | checkRunning | makeFails | make | push
  | accept | reject | pushFails | stop | lockStop | testStopped | testRunning | storeStopped | close
  | closed | join | notJoinable | allJoined | unlockStop => exact Or.inl rfl

def hands (c : PoolConfig) (t : Nat) : Hand Task := hand c.shared.tasks (c.pc t)

theorem hands_after (hc : PoolReachable n c) (hm : PoolMove n t c.shared (c.pc t) s p) :
    hands (c.after t s p) = Function.update (hands c) t (hand s.tasks p) := by
  funext u
  by_cases hu : u = t
  · subst u
    rw [hands, after_pc_self, Function.update_self]
    rfl
  · rw [hands, after_pc_of_ne _ hu, Function.update_of_ne hu]
    change hand s.tasks (c.pc u) = hand c.shared.tasks (c.pc u)
    obtain hclient | ⟨hs, -⟩ := move_client hm
    · have hother := inHand_other (queue_reachable hc) hu hclient
      have hinside : (queueOf c).pc u = (c.pc u).inside := rfl
      rw [hinside] at hother
      generalize c.pc u = q at hother
      cases q <;> try rfl
      case working x => exact congrArg (Option.elim · _ _) hother
    · rw [hs]

/-- What was taken, and then what is still in the queue, is what was linked. -/
theorem taken_append {chain : List (Nat × Task)} (hg : Chained (queueOf c).shared chain) :
    taken c.shared ++ chain.map Prod.snd = (submissions c.shared).ids := by
  have hbalance := congrArg (List.filterMap id) hg.balance
  rw [List.filterMap_append, List.filterMap_map, List.filterMap_map] at hbalance
  simpa [taken, submissions, queueOf, Config.project, List.filterMap_eq_map] using hbalance

theorem taken_in_order (hc : PoolReachable n c) : taken c.shared <+: (submissions c.shared).ids := by
  obtain ⟨chain, hg, -⟩ := reachable_chained (queue_reachable hc)
  exact ⟨_, taken_append hg⟩

theorem taken_nodup (hc : PoolReachable n c) : (taken c.shared).Nodup :=
  (reachable_submissions hc).1.nodup.sublist (taken_in_order hc).sublist

theorem accounted_constructed (n : Nat) :
    Accounted (ledger (constructed n).shared) (hands (constructed n)) := by
  have hempty : hands (constructed n) = fun _ => .empty := by
    funext t
    by_cases ht : t < n <;> simp [hands, constructed, ht, hand]
  rw [hempty]
  exact accounted_empty

theorem reachable_accounted (h : PoolReachable n c) : Accounted (ledger c.shared) (hands c) := by
  have hinv : PoolReachable n c ∧ Accounted (ledger c.shared) (hands c) := by
    refine h.invariant (I := fun c => PoolReachable n c ∧ Accounted (ledger c.shared) (hands c)) ?_
      ⟨.refl, accounted_constructed n⟩
    rintro c t s p ⟨hc, hi⟩ hm
    have hc' := hc.next t hm
    refine ⟨hc', ?_⟩
    rw [hands_after hc hm]
    exact handles_accounted (move_handles hc hm) (taken_nodup hc') hi
  exact hinv.2

end Hands

section Late

theorem move_rejected (hm : PoolMove n t s p s' p') {j : Task} (hj : j ∈ s.rejected) :
    j ∈ s'.rejected := by
  cases hm with
  | checkStopped | reject => exact List.mem_cons_of_mem _ hj
  | start | wait | invoke | finish | exit | submit | checkRunning | makeFails | make | push | accept
  | pushFails | stop | lockStop | testStopped | testRunning | storeStopped | close | closed | join
  | notJoinable | allJoined | unlockStop => exact hj

theorem move_stays_stopped (hm : PoolMove n t s p s' p') (h : s.stopped = true) :
    s'.stopped = true := by
  obtain ⟨hs, -⟩ | ⟨-, hs, -⟩ := move_stopped hm
  · exact hs.trans h
  · exact hs

/-- The calls of `submit` from the `m`-th on have thrown, but for one that has
not looked at `stopped` yet. -/
def Turned (s : Pool) (m t : Nat) (p : PoolPc) : Prop :=
  ∀ i, m ≤ i → i < s.submits t → (t, i) ∈ s.rejected ∨ ∃ k, p = .submitCheck k i

theorem move_turned {m : Nat} (hm : PoolMove n t s p s' p') (hs : s.stopped = true)
    (h : Turned s m t p) : Turned s' m t p' := by
  have hcaller {k : Option Task} (hk : p = .caller k) {i : Nat} :
      ¬∃ k', p = .submitCheck k' i := by
    rintro ⟨k', hk'⟩
    rw [hk] at hk'
    cases k <;> cases hk'
  intro i hle hlt
  cases hm with
  | submit k hk =>
      have hlt' := Nat.lt_of_lt_of_eq hlt (Function.update_self _ _ _)
      obtain hlt | rfl := Nat.lt_succ_iff_lt_or_eq.mp hlt'
      · exact Or.inl ((h i hle hlt).resolve_right (hcaller hk))
      · exact Or.inr ⟨k, rfl⟩
  | checkStopped =>
      obtain hi | ⟨k', hk'⟩ := h i hle hlt
      · exact Or.inl (List.mem_cons_of_mem _ hi)
      · cases hk'
        exact Or.inl List.mem_cons_self
  | checkRunning hr => cases hs.symm.trans hr
  | reject => exact Or.inl (List.mem_cons_of_mem _ ((h i hle hlt).resolve_right nofun))
  | start | wait | invoke | finish | exit | makeFails | make | push | accept
  | pushFails | stop | lockStop | testStopped | testRunning | storeStopped | close | closed | join
  | notJoinable | allJoined | unlockStop => exact Or.inl ((h i hle hlt).resolve_right nofun)

theorem move_submits (hm : PoolMove n t s p s' p') (hu : u ≠ t) : s'.submits u = s.submits u := by
  cases hm with
  | submit => exact Function.update_of_ne hu _ _
  | start | wait | invoke | finish | exit | checkStopped | checkRunning | makeFails | make | push
  | accept | reject | pushFails | stop | lockStop | testStopped | testRunning | storeStopped | close
  | closed | join | notJoinable | allJoined | unlockStop => rfl

theorem steps_turned (h : Steps (PoolMove n) c d) (hs : c.shared.stopped = true) (t : Nat) :
    Turned d.shared (c.shared.submits t) t (d.pc t) := by
  have hinv : d.shared.stopped = true ∧ ∀ t, Turned d.shared (c.shared.submits t) t (d.pc t) := by
    refine h.invariant (I := fun d => d.shared.stopped = true ∧
      ∀ t, Turned d.shared (c.shared.submits t) t (d.pc t)) ?_ ⟨hs, fun t i hle hlt => ?_⟩
    · rintro d t s p ⟨hstop, hturned⟩ hm
      refine ⟨move_stays_stopped hm hstop, ?_⟩
      apply after_forall (P := fun u q => Turned s (c.shared.submits u) u q) d s
      · exact move_turned hm hstop (hturned t)
      · intro u hu i hle hlt
        rw [move_submits hm hu] at hlt
        exact (hturned u i hle hlt).imp_left (move_rejected hm)
    · exact absurd hle (Nat.not_le_of_lt hlt)
  exact hinv.2 t

end Late

/-- A submit whose push has thrown throws as well, and says that the pool is stopped. -/
theorem pushThrew_rejects {k : Option Task} {m i : Nat} (hp : c.pc t = .submitting k m (.pushThrew i))
    (hm : PoolMove n t c.shared (c.pc t) s p) : (t, m) ∈ s.rejected := by
  rw [hp] at hm
  cases hm with
  | submit k' hk => cases k' <;> cases hk
  | push hm => cases hm
  | reject => exact List.mem_cons_self

/-- A task is run at most once, the tasks are taken in the order in which they
were linked, and a submit that is turned away leaves nothing behind. -/
theorem tasks_once (hc : PoolReachable n c) :
    ((taken c.shared).Nodup ∧ c.shared.invoked.Nodup ∧ (∀ j ∈ c.shared.invoked, j ∈ taken c.shared) ∧
      ∀ t u j, (hands c t).item = some j → (hands c u).item = some j → t = u) ∧
    (taken c.shared <+: (submissions c.shared).ids ∧
      (∀ j ∈ c.shared.accepted, j ∈ (submissions c.shared).ids) ∧
      ∀ t m, (t, m) ∈ (submissions c.shared).ids →
        (t, m) ∈ c.shared.accepted ∨ submission (c.pc t) = .appended m) ∧
    (∀ j ∈ c.shared.rejected, j ∉ taken c.shared ∧ j ∉ c.shared.invoked) ∧
    (c.shared.stopped = true → ∀ d, Steps (PoolMove n) c d → ∀ t m, c.shared.submits t ≤ m →
      m < d.shared.submits t → (t, m) ∈ d.shared.rejected ∨ ∃ k, d.pc t = .submitCheck k m) ∧
    ∀ t k m i s p, c.pc t = .submitting k m (.pushThrew i) →
      PoolMove n t c.shared (c.pc t) s p → (t, m) ∈ s.rejected := by
  obtain ⟨hrecorded, htracks⟩ := reachable_submissions hc
  have haccounted := reachable_accounted hc
  have horder := taken_in_order hc
  refine ⟨⟨taken_nodup hc, haccounted.nodup, haccounted.invoked, haccounted.unique⟩,
    ⟨horder, hrecorded.returned, fun t m hj => (htracks t).done m hj⟩, fun j hj => ?_, ?_, ?_⟩
  · have hnot : j ∉ taken c.shared := fun htaken => hrecorded.threw j hj (horder.subset htaken)
    exact ⟨hnot, fun hinvoked => hnot (haccounted.invoked j hinvoked)⟩
  · exact fun hs d hd t => steps_turned hd hs t
  · exact fun _ _ _ _ _ _ hp hm => pushThrew_rejects hp hm

theorem tasks_once_stopped : ∃ c : PoolConfig, c.shared.accepted = [(1, 0)] ∧
    c.shared.invoked = [(1, 0)] ∧ c.shared.stopped = true ∧ c.shared.rejected = [(1, 1)] ∧
    ((taken c.shared).Nodup ∧ c.shared.invoked.Nodup ∧ (∀ j ∈ c.shared.invoked, j ∈ taken c.shared) ∧
      ∀ t u j, (hands c t).item = some j → (hands c u).item = some j → t = u) ∧
    taken c.shared <+: (submissions c.shared).ids ∧
    ∀ j ∈ c.shared.rejected, j ∉ taken c.shared ∧ j ∉ c.shared.invoked := by
  have h₀ : PoolReachable 1 (constructed 1) := .refl
  have hsubmit := ((((h₀.start 1).next (.submit none rfl)).next (.checkRunning rfl)).next .make).next
    (.push (.checkOpen rfl))
  have hlink := ((((hsubmit.next (.push (.alloc 1 rfl))).next (.push (.lockTail rfl))).next
    (.push (.recheckOpen rfl))).next (.push .fill)).next (.push .link)
  have h₁ := h₀.alone ((((hlink.next (.push .advance)).next (.push .unlockTail)).next
    (.push (.notifyNone fun _ => rfl))).next .accept)
  have htest := (((h₁.start 0).next .start).next (.wait (.lockWait nofun rfl))).next
    (.wait (.testOpen rfl))
  have hpop := ((((htest.next (.wait (.waitTail rfl))).next (.wait (.waitElement nofun))).next
    (.wait (.lastTail rfl))).next (.wait (.lastElement nofun))).next (.wait (.popHead rfl))
  have h₂ := h₁.alone (((hpop.next (.wait .unlockPopped)).next (.wait (.take rfl rfl))).next .invoke)
  have h₃ := h₂.alone (((((h₂.start 2).next .stop).next (.lockStop rfl)).next
    (.testRunning rfl)).next .storeStopped)
  have h₄ := h₃.alone (((h₃.start 1).next (.submit none rfl)).next (.checkStopped rfl))
  obtain ⟨hrun, ⟨horder, -⟩, hrejected, -⟩ := tasks_once h₄
  exact ⟨_, rfl, rfl, rfl, rfl, hrun, horder, hrejected⟩

end Lzhlib.PoolHistory
