import Lzhlib.PoolHistory

namespace Lzhlib.PoolDrain

open Interleaving ThreadQueue QueueLocks QueueChain QueueClose QueueHistory ThreadPool PoolRoles
  PoolHistory

variable {n t u w : Nat} {c : PoolConfig} {s s' : Pool} {p p' : PoolPc}

section Exits

theorem move_ended (hm : PoolMove n t s p s' p') (h : s.tasks.ended = true) : s'.tasks.ended = true := by
  have hqueue {q : Shared Task} {x x' : Pc Task} (hm : Move t s.tasks x q x') : q.ended = true := by
    cases hm
    case unlockMissed => exact Bool.or_eq_true_iff.mpr (Or.inl h)
    all_goals exact h
  cases hm with
  | wait hm => exact hqueue hm
  | push hm => exact hqueue hm
  | close hm => exact hqueue hm
  | start | invoke | finish | exit | submit | checkStopped | checkRunning | makeFails | make | accept
  | reject | pushFails | stop | lockStop | testStopped | testRunning | storeStopped | closed | join
  | notJoinable | allJoined | unlockStop => exact h

def Ended (s : Pool) : PoolPc → Prop
  | .working (.missReturned _) | .exited => s.tasks.ended = true
  | _ => True

theorem ended_caller (k : Option Task) : Ended s (.caller k) := by
  cases k <;> trivial

theorem move_ended_own (hm : PoolMove n t s p s' p') (hrole : Role n t p) (h : Ended s p) :
    Ended s' p' := by
  cases hm with
  | wait hm =>
      cases hm
      case unlockMissed k =>
          cases hrole.2
          exact Bool.or_eq_true_iff.mpr (Or.inr rfl)
      all_goals trivial
  | exit => exact h
  | checkStopped | makeFails | accept | reject | pushFails => exact ended_caller _
  | start | invoke | finish | submit | checkRunning | make | push | stop | lockStop | testStopped
  | testRunning | storeStopped | close | closed | join | notJoinable | allJoined | unlockStop =>
      trivial

theorem move_exited (hm : PoolMove n t s p s' p') (hp : s.exited t = true → p = .exited)
    (h : s'.exited t = true) : p' = .exited := by
  cases hm with
  | exit => rfl
  | submit k hk => cases k <;> cases hk.symm.trans (hp h)
  | checkStopped | makeFails | accept | reject | pushFails | start | wait | invoke | finish
  | checkRunning | make | push | stop | lockStop | testStopped | testRunning | storeStopped | close
  | closed | join | notJoinable | allJoined | unlockStop => cases hp h

theorem move_exited_other (hm : PoolMove n t s p s' p') (hu : u ≠ t) : s'.exited u = s.exited u := by
  cases hm with
  | exit => exact Function.update_of_ne hu _ _
  | start | wait | invoke | finish | submit | checkStopped | checkRunning | makeFails | make | push
  | accept | reject | pushFails | stop | lockStop | testStopped | testRunning | storeStopped | close
  | closed | join | notJoinable | allJoined | unlockStop => rfl

theorem reachable_exited (h : PoolReachable n c) :
    (∀ t, Ended c.shared (c.pc t)) ∧ ∀ t, c.shared.exited t = true → c.pc t = .exited := by
  have hinv : PoolReachable n c ∧ (∀ t, Ended c.shared (c.pc t)) ∧
      ∀ t, c.shared.exited t = true → c.pc t = .exited := by
    refine h.invariant (I := fun c => PoolReachable n c ∧ (∀ t, Ended c.shared (c.pc t)) ∧
      ∀ t, c.shared.exited t = true → c.pc t = .exited) ?_ ⟨.refl, fun t => ?_, fun t ht => ?_⟩
    · rintro c t s p ⟨hc, hended, hexited⟩ hm
      refine ⟨hc.next t hm, ?_, ?_⟩
      · apply after_forall (P := fun _ q => Ended s q) c s
        · exact move_ended_own hm (reachable_role hc t) (hended t)
        · intro u _
          have hu := hended u
          generalize c.pc u = q at hu
          cases q <;> try trivial
          case working x => cases x <;> first | trivial | exact move_ended hm hu
          case exited => exact move_ended hm hu
      · apply after_forall (P := fun u q => s.exited u = true → q = .exited) c s
        · exact move_exited hm (hexited t)
        · intro u hu h
          rw [move_exited_other hm hu] at h
          exact hexited u h
    · by_cases ht : t < n <;> simp [constructed, ht, Ended]
    · cases ht
  exact hinv.2

end Exits

section Joins

def AllJoined (n : Nat) (s : Pool) : Prop := ∀ w < n, s.joined w = true

def Joins (n : Nat) (s : Pool) : PoolPc → Prop
  | .stopJoin i => ∀ w < i, s.joined w = true
  | .stopUnlock => AllJoined n s
  | _ => True

def Stopping : PoolPc → Prop
  | .stopClosing _ | .stopJoin _ => True
  | _ => False

theorem move_joined (hm : PoolMove n t s p s' p') (h : s.joined w = true) : s'.joined w = true := by
  cases hm with
  | @join i hi hj hx =>
      by_cases hw : w = i
      · subst w
        exact Function.update_self _ _ _
      · exact (Function.update_of_ne hw _ _).trans h
  | start | wait | invoke | finish | exit | submit | checkStopped | checkRunning | makeFails | make
  | push | accept | reject | pushFails | stop | lockStop | testStopped | testRunning | storeStopped
  | close | closed | notJoinable | allJoined | unlockStop => exact h

theorem joins_mono (hm : PoolMove n t s p s' p') {q : PoolPc} (h : Joins n s q) : Joins n s' q := by
  cases q <;> try trivial
  case stopJoin i => exact fun w hw => move_joined hm (h w hw)
  case stopUnlock => exact fun w hw => move_joined hm (h w hw)

theorem joins_caller (k : Option Task) : Joins n s (.caller k) := by
  cases k <;> trivial

theorem move_joins (hm : PoolMove n t s p s' p') (hstopped : p = .stopTest → s.stopped = true →
    AllJoined n s) (h : Joins n s p) : Joins n s' p' := by
  cases hm with
  | testStopped hs => exact hstopped rfl hs
  | @join i hi hj hx =>
      intro w hw
      obtain hw | rfl := Nat.lt_succ_iff_lt_or_eq.mp hw
      · exact move_joined (t := t) (.join hi hj hx) (h w hw)
      · exact Function.update_self _ _ _
  | @notJoinable i hi hj =>
      intro w hw
      obtain hw | rfl := Nat.lt_succ_iff_lt_or_eq.mp hw
      · exact h w hw
      · exact hj
  | allJoined hi => exact fun w hw => h w (Nat.lt_of_lt_of_le hw hi)
  | closed => exact fun w hw => absurd hw (Nat.not_lt_zero w)
  | checkStopped | makeFails | accept | reject | pushFails => exact joins_caller _
  | start | wait | invoke | finish | exit | submit | checkRunning | make | push | stop | lockStop
  | testRunning | storeStopped | close | unlockStop => trivial

theorem move_joined_exited (hm : PoolMove n t s p s' p') (h : ∀ w, s.joined w = true → s.exited w = true)
    (w : Nat) (hw : s'.joined w = true) : s'.exited w = true := by
  cases hm with
  | @join i hi hj hx =>
      by_cases hwi : w = i
      · subst w
        exact hx
      · exact h w ((Function.update_of_ne hwi _ _).symm.trans hw)
  | exit =>
      by_cases hwt : w = t
      · subst w
        exact Function.update_self _ _ _
      · exact (Function.update_of_ne hwt _ _).trans (h w hw)
  | start | wait | invoke | finish | submit | checkStopped | checkRunning | makeFails | make | push
  | accept | reject | pushFails | stop | lockStop | testStopped | testRunning | storeStopped | close
  | closed | notJoinable | allJoined | unlockStop => exact h w hw

theorem move_stopping (hm : PoolMove n t s p s' p') (hjoins : Joins n s p) (h : Stopping p) :
    Stopping p' ∨ AllJoined n s' := by
  cases hm with
  | allJoined hi => exact Or.inr fun w hw => hjoins w (Nat.lt_of_lt_of_le hw hi)
  | close | closed | join | notJoinable => exact Or.inl trivial
  | submit k hk => cases k <;> cases hk <;> exact absurd h id
  | start | wait | invoke | finish | exit | checkStopped | checkRunning | makeFails | make | push
  | accept | reject | pushFails | stop | lockStop | testStopped | testRunning | storeStopped
  | unlockStop => exact absurd h id

theorem move_halted (hm : PoolMove n t s p s' p') : s'.halted = s.halted ∨ p = .stopUnlock := by
  cases hm with
  | unlockStop => exact Or.inr rfl
  | start | wait | invoke | finish | exit | submit | checkStopped | checkRunning | makeFails | make
  | push | accept | reject | pushFails | stop | lockStop | testStopped | testRunning | storeStopped
  | close | closed | join | notJoinable | allJoined => exact Or.inl rfl

structure Halts (n : Nat) (c : PoolConfig) : Prop where
  exited : ∀ w, c.shared.joined w = true → c.shared.exited w = true
  joins : ∀ t, Joins n c.shared (c.pc t)
  stopped : c.shared.stopped = true → AllJoined n c.shared ∨ ∃ t, Stopping (c.pc t)
  halted : c.shared.halted = true → AllJoined n c.shared

theorem stopping_holdsStop (h : Stopping p) : HoldsStop p := by
  cases p <;> first | exact absurd h id | trivial

/-- Whoever finds the flag set has waited for the call that set it. -/
theorem Halts.tested (hc : PoolReachable n c) (h : Halts n c) (ht : c.pc t = .stopTest)
    (hs : c.shared.stopped = true) : AllJoined n c.shared := by
  apply (h.stopped hs).resolve_right
  rintro ⟨u, hu⟩
  have hheld := (reachable_stopMutex hc t).mpr (ht ▸ trivial)
  have hheld' := (reachable_stopMutex hc u).mpr (stopping_holdsStop hu)
  cases Option.some.inj (hheld.symm.trans hheld')
  rw [ht] at hu
  exact hu

theorem move_halts (hc : PoolReachable n c) (h : Halts n c) (hm : PoolMove n t c.shared (c.pc t) s p) :
    Halts n (c.after t s p) := by
  have hmono (hall : AllJoined n c.shared) : AllJoined n s := fun w hw => move_joined hm (hall w hw)
  refine ⟨move_joined_exited hm h.exited, ?_, fun hs => ?_, fun hhalted => ?_⟩
  · apply after_forall (P := fun _ q => Joins n s q) c s
    · exact move_joins hm (fun ht hs => h.tested hc ht hs) (h.joins t)
    · exact fun u _ => joins_mono hm (h.joins u)
  · obtain ⟨hsame, -⟩ | ⟨-, -, rfl⟩ := move_stopped hm
    · obtain hall | ⟨u, hu⟩ := h.stopped (hsame.symm.trans hs)
      · exact Or.inl (hmono hall)
      · by_cases hut : u = t
        · subst u
          obtain hstop | hall := move_stopping hm (h.joins t) hu
          · exact Or.inr ⟨t, by rwa [after_pc_self]⟩
          · exact Or.inl hall
        · exact Or.inr ⟨u, by rwa [after_pc_of_ne _ hut]⟩
    · exact Or.inr ⟨t, by rw [after_pc_self]; trivial⟩
  · obtain hsame | hp := move_halted hm
    · exact hmono (h.halted (hsame.symm.trans hhalted))
    · have hjoins := h.joins t
      rw [hp] at hjoins
      exact hmono hjoins

theorem halts_constructed (n : Nat) : Halts n (constructed n) := by
  refine ⟨nofun, fun t => ?_, nofun, nofun⟩
  by_cases ht : t < n <;> simp [constructed, ht, Joins]

theorem reachable_halts (h : PoolReachable n c) : Halts n c := by
  have hinv : PoolReachable n c ∧ Halts n c := by
    refine h.invariant (I := fun c => PoolReachable n c ∧ Halts n c) ?_ ⟨.refl, halts_constructed n⟩
    exact fun c t s p ⟨hc, hi⟩ hm => ⟨hc.next t hm, move_halts hc hi hm⟩
  exact hinv.2

end Joins

theorem hand_worker {j : Task} (hrole : Role n t p) (q : Shared Task) (hj : (hand q p).item = some j) :
    t < n := by
  cases p with
  | starting | running | exited => exact hrole
  | working => exact hrole.1
  | submitCheck k | submitMake k =>
      apply hrole.mp
      cases k <;> first | rfl | cases hj
  | submitting k =>
      apply hrole.1.mp
      cases k <;> first | rfl | cases hj
  | outside | stopLock | stopTest | stopStore | stopClosing | stopJoin | stopUnlock => cases hj

/-- With a worker in the pool, nothing is left over when `stop` returns. -/
theorem halted_drained (hc : PoolReachable n c) (hn : 0 < n) (h : c.shared.halted = true) :
    (∀ j ∈ c.shared.accepted, j ∈ c.shared.finished) ∧
      c.shared.tasks.head = some c.shared.tasks.tail := by
  have hhalts := reachable_halts hc
  obtain ⟨hended, hexited⟩ := reachable_exited hc
  have hall (w : Nat) (hw : w < n) : c.pc w = .exited :=
    hexited w (hhalts.exited w (hhalts.halted h w hw))
  obtain ⟨isSealed, hseals, -⟩ := reachable_sealed (queue_reachable hc)
  have hend := hended 0
  rw [hall 0 hn] at hend
  have hempty : (queueOf c).shared.head = some (queueOf c).shared.tail :=
    (hseals.drained (hseals.ended hend)).2
  refine ⟨fun j hj => ?_, hempty⟩
  obtain ⟨chain, hg, -⟩ := reachable_chained (queue_reachable hc)
  have htaken := taken_append hg
  rw [hg.nil_iff.mpr hempty, List.map_nil, List.append_nil] at htaken
  have hj' : j ∈ taken c.shared := htaken ▸ (reachable_submissions hc).1.returned j hj
  obtain hfinished | ⟨t, ht⟩ := (reachable_accounted hc).whereabouts j hj'
  · exact hfinished
  · have hworker := hall t (hand_worker (reachable_role hc t) _ ht)
    rw [hands, hworker] at ht
    cases ht

/-- `stop` loses no task: when it has returned, every task that was accepted
has been run, and the queue is empty. -/
def Drains (n : Nat) : Prop :=
  ∀ c, PoolReachable n c → c.shared.halted = true →
    (∀ j ∈ c.shared.accepted, j ∈ c.shared.finished) ∧
      c.shared.tasks.head = some c.shared.tasks.tail

theorem submit_stop_zero : ∃ c, PoolReachable 0 c ∧ c.shared.halted = true ∧
    c.shared.accepted = [(1, 0)] ∧ c.shared.finished = [] ∧
    c.shared.tasks.head ≠ some c.shared.tasks.tail := by
  have h₀ : PoolReachable 0 (constructed 0) := .refl
  have hsubmit := ((((h₀.start 1).next (.submit none rfl)).next (.checkRunning rfl)).next .make).next
    (.push (.checkOpen rfl))
  have hlink := ((((hsubmit.next (.push (.alloc 1 rfl))).next (.push (.lockTail rfl))).next
    (.push (.recheckOpen rfl))).next (.push .fill)).next (.push .link)
  have h₁ := h₀.alone ((((hlink.next (.push .advance)).next (.push .unlockTail)).next
    (.push (.notifyNone fun _ => rfl))).next .accept)
  have hstop := (((h₁.start 2).next .stop).next (.lockStop rfl)).next (.testRunning rfl)
  have hclose := ((hstop.next .storeStopped).next (.close .storeClosed)).next (.close .notifyAll)
  have h₂ := h₁.alone (((hclose.next .closed).next (.allJoined (Nat.le_refl 0))).next .unlockStop)
  exact ⟨_, h₂, rfl, rfl, rfl, nofun⟩

theorem not_drains_zero : ¬Drains 0 := by
  intro h
  obtain ⟨c, hc, hhalted, haccepted, hfinished, -⟩ := submit_stop_zero
  have hj := (h c hc hhalted).1 (1, 0) (haccepted ▸ List.mem_singleton_self _)
  rw [hfinished] at hj
  cases hj

theorem drains_iff (n : Nat) : Drains n ↔ 0 < n := by
  constructor
  · intro h
    apply Nat.pos_of_ne_zero
    rintro rfl
    obtain ⟨c, hc, hhalted, -, -, hne⟩ := submit_stop_zero
    exact hne (h c hc hhalted).2
  · exact fun hn c hc h => halted_drained hc hn h

end Lzhlib.PoolDrain
