import Lzhlib.QueueLocks
import Lzhlib.ThreadPool

namespace Lzhlib.PoolRoles

open Interleaving ThreadQueue QueueLocks ThreadPool

variable {n t u : Nat} {c d : PoolConfig} {s s' : Pool} {p p' : PoolPc}

/-- The workers are the threads below `n`, and they only wait, run and submit. -/
def Role (n t : Nat) : PoolPc → Prop
  | .starting | .running _ | .exited => t < n
  | .working p => t < n ∧ call p = .pop .waitAndPop
  | .submitCheck k _ | .submitMake k _ => k.isSome ↔ t < n
  | .submitting k _ p => (k.isSome ↔ t < n) ∧ call p = .push
  | .stopClosing p => n ≤ t ∧ call p = .close
  | .outside | .stopLock | .stopTest | .stopStore | .stopJoin _ | .stopUnlock => n ≤ t

theorem role_caller (k : Option Task) : Role n t (.caller k) ↔ (k.isSome ↔ t < n) := by
  cases k with
  | none => simp [PoolPc.caller, Role]
  | some j => simp [PoolPc.caller, Role]

theorem move_role (hm : PoolMove n t s p s' p') (h : Role n t p) : Role n t p' := by
  cases hm with
  | start => exact ⟨h, rfl⟩
  | wait hm => exact ⟨h.1, (move_call hm).trans h.2⟩
  | invoke => exact h.1
  | finish => exact ⟨h, rfl⟩
  | exit => exact h.1
  | submit k hk => exact (role_caller k).mp (hk ▸ h)
  | checkStopped => exact (role_caller _).mpr h
  | makeFails => exact (role_caller _).mpr h
  | make => exact ⟨h, rfl⟩
  | push hm => exact ⟨h.1, (move_call hm).trans h.2⟩
  | accept => exact (role_caller _).mpr h.1
  | reject => exact (role_caller _).mpr h.1
  | pushFails => exact (role_caller _).mpr h.1
  | storeStopped => exact ⟨h, rfl⟩
  | close hm => exact ⟨h.1, (move_call hm).trans h.2⟩
  | closed => exact h.1
  | checkRunning | stop | lockStop | testStopped | testRunning | join | notJoinable | allJoined
  | unlockStop => exact h

theorem reachable_role (h : PoolReachable n c) (t : Nat) : Role n t (c.pc t) := by
  refine h.threadwise (L := Role n) (fun _ _ _ _ _ => move_role) (fun u => ?_) t
  by_cases hu : u < n
  · simp [constructed, hu, Role]
  · simp only [constructed, hu, if_false, Role]
    exact Nat.le_of_not_lt hu

theorem inside_pop {k : Caller} (hr : Role n t p) (h : call p.inside = .pop k) :
    t < n ∧ p = .working p.inside := by
  cases p with
  | working q => exact ⟨hr.1, rfl⟩
  | submitting k m q => cases hr.2.symm.trans h
  | stopClosing q => cases hr.2.symm.trans h
  | outside | starting | running | exited | submitCheck | submitMake | stopLock | stopTest
  | stopStore | stopJoin | stopUnlock => cases h

theorem inside_close (hr : Role n t p) (h : call p.inside = .close) :
    p = .stopClosing p.inside := by
  cases p with
  | stopClosing q => rfl
  | working q => cases hr.2.symm.trans h
  | submitting k m q => cases hr.2.symm.trans h
  | outside | starting | running | exited | submitCheck | submitMake | stopLock | stopTest
  | stopStore | stopJoin | stopUnlock => cases h

def HoldsStop : PoolPc → Prop
  | .stopTest | .stopStore | .stopClosing _ | .stopJoin _ | .stopUnlock => True
  | _ => False

theorem holdsStop_caller (k : Option Task) : ¬HoldsStop (.caller k) := by
  cases k <;> exact id

theorem move_stopMutex (hm : PoolMove n t s p s' p') :
    Handover t s.stopMutex s'.stopMutex (HoldsStop p) (HoldsStop p') := by
  cases hm with
  | lockStop h => exact Or.inr (Or.inl ⟨h, rfl, trivial⟩)
  | unlockStop => exact Or.inr (Or.inr ⟨trivial, rfl, id⟩)
  | submit k hk => exact Or.inl ⟨rfl, iff_of_false id (hk ▸ holdsStop_caller k)⟩
  | checkStopped | makeFails | accept | reject | pushFails =>
      exact Or.inl ⟨rfl, iff_of_false (holdsStop_caller _) id⟩
  | start | wait | invoke | finish | exit | checkRunning | make | push | stop | testStopped
  | testRunning | storeStopped | close | closed | join | notJoinable | allJoined =>
      exact Or.inl ⟨rfl, Iff.rfl⟩

theorem reachable_stopMutex (h : PoolReachable n c) (t : Nat) :
    c.shared.stopMutex = some t ↔ HoldsStop (c.pc t) := by
  refine h.mutex Pool.stopMutex HoldsStop (fun _ _ _ _ _ => move_stopMutex) (fun u => ?_) t
  apply iff_of_false nofun
  by_cases hu : u < n <;> simp [constructed, hu, HoldsStop]

theorem move_stopped (hm : PoolMove n t s p s' p') :
    (s'.stopped = s.stopped ∧ p' ≠ .stopClosing .closeStore) ∨
      (p = .stopStore ∧ s'.stopped = true ∧ p' = .stopClosing .closeStore) := by
  cases hm with
  | storeStopped => exact Or.inr ⟨rfl, rfl, rfl⟩
  | close hm => exact Or.inl ⟨rfl, by cases hm <;> nofun⟩
  | checkStopped | makeFails | accept | reject | pushFails =>
      exact Or.inl ⟨rfl, fun h => holdsStop_caller _ (by rw [h]; trivial)⟩
  | start | wait | invoke | finish | exit | submit | checkRunning | make | push | stop | lockStop
  | testStopped | testRunning | closed | join | notJoinable | allJoined | unlockStop =>
      exact Or.inl ⟨rfl, nofun⟩

theorem move_stopStore (hm : PoolMove n t s p s' p') (h : p' = .stopStore) : s'.stopped = false := by
  have hheld : HoldsStop p' := by rw [h]; trivial
  cases hm with
  | testRunning hs => exact hs
  | checkStopped | makeFails | accept | reject | pushFails => exact absurd hheld (holdsStop_caller _)
  | start | wait | invoke | finish | exit | submit | checkRunning | make | push | stop | lockStop
  | testStopped | storeStopped | close | closed | join | notJoinable | allJoined | unlockStop =>
      cases h

theorem move_closed (hm : PoolMove n t s p s' p') (h : Role n t p) :
    s'.tasks.closed = s.tasks.closed ∨ p = .stopClosing .closeStore := by
  cases hm with
  | wait hm => cases hm <;> first | exact Or.inl rfl | cases h.2
  | push hm => cases hm <;> first | exact Or.inl rfl | cases h.2
  | close hm => cases hm <;> first | exact Or.inl rfl | exact Or.inr rfl
  | start | invoke | finish | exit | submit | checkStopped | checkRunning | makeFails | make
  | accept | reject | pushFails | stop | lockStop | testStopped | testRunning | storeStopped
  | closed | join | notJoinable | allJoined | unlockStop => exact Or.inl rfl

/-- The flags of the pool and of its queue are set in this order, and once. -/
structure Stops (c : PoolConfig) : Prop where
  closed : c.shared.tasks.closed = true → c.shared.stopped = true
  store : ∀ t, c.pc t = .stopStore → c.shared.stopped = false
  closing : ∀ t, c.pc t = .stopClosing .closeStore → c.shared.stopped = true

theorem reachable_stops (h : PoolReachable n c) : Stops c := by
  have hinv : PoolReachable n c ∧ Stops c := by
    refine h.invariant (I := fun c => PoolReachable n c ∧ Stops c) ?_ ⟨.refl, ?_⟩
    · rintro c t s p ⟨hc, hstops⟩ hm
      have hkeep (h : c.shared.stopped = true) : s.stopped = true := by
        obtain ⟨hs, -⟩ | ⟨-, hs, -⟩ := move_stopped hm
        · exact hs.trans h
        · exact hs
      refine ⟨hc.next t hm, fun hclosed => ?_, ?_, ?_⟩
      · obtain hs | hp := move_closed hm (reachable_role hc t)
        · exact hkeep (hstops.closed (hs ▸ hclosed))
        · exact hkeep (hstops.closing t hp)
      · apply after_forall (P := fun _ q => q = .stopStore → s.stopped = false) c s
        · exact move_stopStore hm
        · intro u hut hu
          obtain ⟨hs, -⟩ | ⟨hp, -, -⟩ := move_stopped hm
          · exact hs.trans (hstops.store u hu)
          -- Two threads would be in the section of stop_mutex.
          · have hheld := (reachable_stopMutex hc t).mpr (hp ▸ trivial)
            have hheld' := (reachable_stopMutex hc u).mpr (hu ▸ trivial)
            exact absurd (Option.some.inj (hheld'.symm.trans hheld)) hut
      · apply after_forall (P := fun _ q => q = .stopClosing .closeStore → s.stopped = true) c s
        · intro hp
          obtain ⟨-, hne⟩ | ⟨-, hs, -⟩ := move_stopped hm
          · exact absurd hp hne
          · exact hs
        · exact fun u _ hu => hkeep (hstops.closing u hu)
    · refine ⟨nofun, fun u hu => ?_, fun u hu => ?_⟩ <;>
        by_cases hun : u < n <;> simp [constructed, hun] at hu
  exact hinv.2

end Lzhlib.PoolRoles
