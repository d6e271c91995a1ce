import Lzhlib.QueueChain

namespace Lzhlib.QueueClose

open Interleaving ThreadQueue QueueLocks QueueChain

variable {T : Type} {c d : QueueConfig T} {t u : Nat} {s s' : Shared T} {p p' q : Pc T}
  {isSealed isSealed' : Bool}

/-- A queue is sealed when it is closed and no push is past its check inside
`tail_mutex`; what is in it then is all there will ever be. -/
structure Seals (s : Shared T) (isSealed : Bool) : Prop where
  closed : isSealed = true → s.closed = true
  drained : s.drained = true → isSealed = true ∧ s.head = some s.tail
  ended : s.ended = true → s.drained = true

def Sees (_ : Nat) (s : Shared T) (isSealed : Bool) : Pc T → Prop
  | .pushFill _ _ _ | .pushLink _ _ _ | .pushAdvance _ _ _ => isSealed = false
  | .waitTest k x | .waitTail k x | .waitCompare k x _ | .awake k x =>
      x = true → k = .waitForAndPop
  | .lastTail k r => (r = .sawClosed → s.closed = true) ∧ (r = .attempt → k = .tryPop)
  | .lastCompare k r a =>
      (r = .sawClosed → isSealed = true ∧ a = s.tail) ∧ (r = .attempt → k = .tryPop)
  | .missUnlock k => k = .waitAndPop → s.drained = true
  | _ => True

structure Frame (s : Shared T) (isSealed : Bool) (s' : Shared T) (isSealed' : Bool) : Prop where
  closed : s.closed = true → s'.closed = true
  drained : s.drained = true → s'.drained = true
  mono : isSealed = true → isSealed' = true
  tail : isSealed = true → s'.tail = s.tail
  sealing : isSealed' = true → isSealed = false → s.tailMutex = none

theorem Frame.sees (h : Frame s isSealed s' isSealed') (hlock : s.tailMutex = some u ↔ HoldsTail q)
    (hq : Sees u s isSealed q) : Sees u s' isSealed' q := by
  have hpush (hh : HoldsTail q) (hs : isSealed = false) : isSealed' = false := by
    cases hs' : isSealed' with
    | false => rfl
    | true =>
        have hnone := h.sealing hs' hs
        rw [hlock.mpr hh] at hnone
        cases hnone
  cases q <;> try trivial
  case pushFill => exact hpush trivial hq
  case pushLink => exact hpush trivial hq
  case pushAdvance => exact hpush trivial hq
  case lastTail => exact ⟨fun hr => h.closed (hq.1 hr), hq.2⟩
  case lastCompare =>
      refine ⟨fun hr => ?_, hq.2⟩
      obtain ⟨hs, ha⟩ := hq.1 hr
      exact ⟨h.mono hs, ha.trans (h.tail hs).symm⟩
  case missUnlock => exact fun hk => h.drained (hq hk)

theorem frame_same (hclosed : s'.closed = s.closed) (hdrained : s'.drained = s.drained)
    (htail : s'.tail = s.tail) : Frame s isSealed s' isSealed := by
  refine ⟨?_, ?_, id, fun _ => htail, ?_⟩
  · rw [hclosed]
    exact id
  · rw [hdrained]
    exact id
  · rintro h rfl
    cases h

theorem seals_same (hg : Seals s isSealed) (hclosed : s'.closed = s.closed)
    (hdrained : s'.drained = s.drained) (hended : s'.ended = s.ended) (hhead : s'.head = s.head)
    (htail : s'.tail = s.tail) : Seals s' isSealed := by
  refine ⟨?_, ?_, ?_⟩
  · rw [hclosed]
    exact hg.closed
  · rw [hdrained, hhead, htail]
    exact hg.drained
  · rw [hended, hdrained]
    exact hg.ended

theorem move_seals (hc : Reachable c) (hg : Seals c.shared isSealed)
    (hl : ∀ u, Sees u c.shared isSealed (c.pc u)) (hm : Move t c.shared (c.pc t) s' p') :
    ∃ isSealed', Seals s' isSealed' ∧ Sees t s' isSealed' p' ∧
      Frame c.shared isSealed s' isSealed' := by
  have hk := hl t
  obtain ⟨chain, hchain, hknows⟩ := reachable_chained hc
  have hkn := hknows t
  have hframe : Frame c.shared isSealed c.shared isSealed := frame_same rfl rfl rfl
  generalize c.pc t = p at hm hk hkn
  cases hm with
  | recheckOpen h =>
      refine ⟨isSealed, hg, ?_, hframe⟩
      cases hs : isSealed with
      | false => rfl
      | true =>
          have hclosed := hg.closed hs
          rw [h] at hclosed
          cases hclosed
  | fill | link | relock =>
      exact ⟨isSealed, seals_same hg rfl rfl rfl rfl rfl, hk, frame_same rfl rfl rfl⟩
  | @advance i v b =>
      have hopen : isSealed = false := hk
      subst isSealed
      refine ⟨false, ⟨nofun, fun h => ?_, hg.ended⟩, trivial, id, id, id, nofun, nofun⟩
      exact absurd (hg.drained h).1 (by simp)
  | lockTry h =>
      exact ⟨isSealed, seals_same hg rfl rfl rfl rfl rfl, ⟨nofun, fun _ => rfl⟩,
        frame_same rfl rfl rfl⟩
  | lockWait | spurious =>
      exact ⟨isSealed, seals_same hg rfl rfl rfl rfl rfl, nofun, frame_same rfl rfl rfl⟩
  | testClosed h => exact ⟨isSealed, hg, ⟨fun _ => h, nofun⟩, hframe⟩
  | testOpen | waitTail => exact ⟨isSealed, hg, hk, hframe⟩
  | waitElement h => exact ⟨isSealed, hg, ⟨nofun, nofun⟩, hframe⟩
  | waitLate h =>
      refine ⟨isSealed, hg, fun hw => ?_, hframe⟩
      have hw' := hk rfl
      rw [hw] at hw'
      cases hw'
  | wake h => exact ⟨isSealed, hg, nofun, hframe⟩
  | timeout =>
      exact ⟨isSealed, seals_same hg rfl rfl rfl rfl rfl, fun _ => rfl, frame_same rfl rfl rfl⟩
  | @lastTail k r h =>
      by_cases hr : r = .sawClosed
      -- No push is past its check while tail_mutex is free, and the flag is set.
      · refine ⟨true, ⟨fun _ => hk.1 hr, fun hd => ⟨rfl, (hg.drained hd).2⟩, hg.ended⟩,
          ⟨fun _ => ⟨rfl, rfl⟩, hk.2⟩, id, id, fun _ => rfl, fun _ => rfl, fun _ _ => h⟩
      · exact ⟨isSealed, hg, ⟨fun hr' => absurd hr' hr, hk.2⟩, hframe⟩
  | lastElement h => exact ⟨isSealed, hg, trivial, hframe⟩
  | @lastEmpty k r a hr h =>
      refine ⟨isSealed, hg, fun hw => ?_, hframe⟩
      cases r with
      | attempt =>
          have hw' := hk.2 rfl
          rw [hw] at hw'
          cases hw'
      | sawClosed => exact absurd rfl hr
      | sawElement => exact absurd h (hkn.2 rfl)
  | lastDrained h =>
      obtain ⟨hs, ha⟩ := hk.1 rfl
      refine ⟨isSealed, ⟨hg.closed, fun _ => ⟨hs, ha ▸ h⟩, fun _ => rfl⟩, fun _ => rfl, id,
        fun _ => rfl, id, fun _ => rfl, ?_⟩
      rintro h rfl
      cases h
  | popHead h =>
      have hnot : c.shared.head ≠ some c.shared.tail := fun he => hkn (hchain.nil_iff.mpr he)
      exact ⟨isSealed, ⟨hg.closed, fun hd => absurd (hg.drained hd).2 hnot, hg.ended⟩, trivial,
        frame_same rfl rfl rfl⟩
  | unlockMissed =>
      refine ⟨isSealed, ⟨hg.closed, hg.drained, fun he => ?_⟩, trivial, frame_same rfl rfl rfl⟩
      obtain he | he := Bool.or_eq_true_iff.mp he
      · exact hg.ended he
      · exact hk (of_decide_eq_true he)
  | storeClosed =>
      refine ⟨isSealed, ⟨fun _ => rfl, hg.drained, hg.ended⟩, trivial, fun _ => rfl, id, id,
        fun _ => rfl, ?_⟩
      rintro h rfl
      cases h
  | checkOpen | recheckClosed | allocFails | waitEmpty => exact ⟨isSealed, hg, trivial, hframe⟩
  | checkClosed | alloc | lockTail | unlockTail | notifyNone | notifyOne | unwind | free | sleep
  | unlockPopped | take | notifyAll =>
      exact ⟨isSealed, seals_same hg rfl rfl rfl rfl rfl, trivial, frame_same rfl rfl rfl⟩

theorem seals_initial : Seals (initial : QueueConfig T).shared false :=
  ⟨nofun, nofun, nofun⟩

theorem reachable_sealed (h : Reachable c) :
    ∃ isSealed, Seals c.shared isSealed ∧ ∀ t, Sees t c.shared isSealed (c.pc t) := by
  refine h.outline Seals Sees ⟨false, seals_initial, fun _ => trivial⟩ ?_
  intro d isSealed t s p hd hg hl hm
  have hlock := reachable_locked hd
  have hstep : ∃ isSealed', Seals s isSealed' ∧ Sees t s isSealed' p ∧
      Frame d.shared isSealed s isSealed' := by
    generalize hp : d.pc t = p₀ at hm
    cases hm with
    | move h => exact move_seals hd hg hl (hp ▸ h)
    | push | pop | close | finish =>
        exact ⟨isSealed, seals_same hg rfl rfl rfl rfl rfl, trivial, frame_same rfl rfl rfl⟩
  obtain ⟨isSealed', hg', hown, hframe⟩ := hstep
  exact ⟨isSealed', hg', hown, fun u _ => hframe.sees (hlock u).2 (hl u)⟩

/-- After "closed and drained" the queue stays empty and takes nothing more. -/
theorem drained_final (hc : Reachable c) (hdrained : c.shared.drained = true)
    (h : Steps ClientMove c d) :
    d.shared.head = some d.shared.tail ∧ d.shared.queued = c.shared.queued := by
  have hinv : Reachable d ∧ d.shared.drained = true ∧ d.shared.queued = c.shared.queued := by
    refine h.invariant (I := fun d => Reachable d ∧ d.shared.drained = true ∧
      d.shared.queued = c.shared.queued) ?_ ⟨hc, hdrained, rfl⟩
    rintro e t s p ⟨he, hd, hq⟩ hm
    refine ⟨he.next t hm, ?_⟩
    obtain ⟨isSealed, hg, hl⟩ := reachable_sealed he
    have hk := hl t
    generalize e.pc t = p₀ at hm hk
    cases hm with
    | push | pop | close | finish => exact ⟨hd, hq⟩
    | move hm =>
        cases hm
        case advance => exact absurd ((hg.drained hd).1.symm.trans hk) (by simp)
        case lastDrained => exact ⟨rfl, hq⟩
        all_goals exact ⟨hd, hq⟩
  obtain ⟨isSealed, hg, -⟩ := reachable_sealed hinv.1
  exact ⟨(hg.drained hinv.2.1).2, hinv.2.2⟩

end Lzhlib.QueueClose
