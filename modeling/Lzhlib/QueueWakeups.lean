import Lzhlib.QueueChain

namespace Lzhlib.QueueWakeups

open Interleaving ThreadQueue QueueLocks QueueChain

variable {T : Type} {c : QueueConfig T} {t u : Nat} {s s' : Shared T} {p p' : Pc T}

def Appending : Pc T → Prop
  | .pushFill _ _ _ | .pushLink _ _ _ | .pushAdvance _ _ _ => True
  | _ => False

/-- The consumer has read `closed` as false and will find the queue empty,
whatever the other threads do next. -/
def GoesToSleep (c : QueueConfig T) (t : Nat) : Prop :=
  match c.pc t with
  | .waitTail _ false => c.shared.head = some c.shared.tail ∧ ∀ u, ¬Appending (c.pc u)
  | .waitCompare _ false a => c.shared.head = some a
  | .toSleep _ => True
  | _ => False

def Sleeps (c : QueueConfig T) (t : Nat) : Prop :=
  (∃ k, c.pc t = .asleep k ∧ c.shared.sleeping t = true) ∨ GoesToSleep c t

def Notifies : Pc T → Prop
  | .pushFill _ _ _ | .pushLink _ _ _ | .pushAdvance _ _ _ | .pushUnlock _ | .pushNotify _
  | .closeStore | .closeNotify => True
  | _ => False

theorem goesToSleep_pop (h : GoesToSleep c t) : ∃ k, call (c.pc t) = .pop k := by
  rw [GoesToSleep] at h
  generalize c.pc t = p at h
  cases p <;> first | exact absurd h id | exact ⟨_, rfl⟩

theorem appending_notifies (h : Appending p) : Notifies p := by
  cases p <;> first | exact absurd h id | trivial

/-- After `close` has notified, nobody sleeps and nobody will. -/
structure Awake (c : QueueConfig T) : Prop where
  sleeping : c.shared.notifiedAll = true → ∀ t, c.shared.sleeping t = false
  wakeful : c.shared.notifiedAll = true → ∀ t, ¬GoesToSleep c t

theorem client_closed (hm : ClientMove t s p s' p') (h : s.closed = true) : s'.closed = true := by
  cases hm with
  | move hm =>
      cases hm
      case storeClosed => rfl
      all_goals exact h
  | push | pop | close | finish => exact h

theorem client_notifiedAll (hm : ClientMove t s p s' p') :
    p = .closeNotify ∨ s'.notifiedAll = s.notifiedAll := by
  cases hm with
  | move hm =>
      cases hm
      case notifyAll => exact Or.inl rfl
      all_goals exact Or.inr rfl
  | push | pop | close | finish => exact Or.inr rfl

theorem client_closeNotify (hm : ClientMove t s p s' p') (h : p' = .closeNotify) :
    s'.closed = true := by
  cases hm with
  | move hm =>
      cases hm <;> first | rfl | cases h
  | push | pop | close | finish => cases h

theorem reachable_closed (h : Reachable c) : (∀ t, c.pc t = .closeNotify → c.shared.closed = true) ∧
    (c.shared.notifiedAll = true → c.shared.closed = true) := by
  refine h.invariant (I := fun c => (∀ t, c.pc t = .closeNotify → c.shared.closed = true) ∧
    (c.shared.notifiedAll = true → c.shared.closed = true)) ?_ ?_
  · rintro c t s p ⟨hstored, hclosed⟩ hm
    refine ⟨?_, fun hn => ?_⟩
    · exact after_forall (P := fun _ q => q = .closeNotify → s.closed = true) c s
        (client_closeNotify hm) fun u _ hu => client_closed hm (hstored u hu)
    · obtain hp | hsame := client_notifiedAll hm
      · exact client_closed hm (hstored t hp)
      · exact client_closed hm (hclosed (hsame ▸ hn))
  · exact ⟨nofun, nofun⟩

theorem client_sleeping (hm : ClientMove t s p s' p') (h : s.sleeping u = false) :
    s'.sleeping u = false ∨ ∃ k, p = .toSleep k := by
  have hclear (v : Nat) : Function.update s.sleeping v false u = false := by
    by_cases hu : u = v
    · rw [hu, Function.update_self]
    · rwa [Function.update_of_ne hu]
  cases hm with
  | move hm =>
      cases hm
      case sleep k => exact Or.inr ⟨k, rfl⟩
      case notifyOne v hv => exact Or.inl (hclear v)
      case spurious => exact Or.inl (hclear t)
      case timeout => exact Or.inl (hclear t)
      case notifyAll => exact Or.inl rfl
      all_goals exact Or.inl h
  | push | pop | close | finish => exact Or.inl h

theorem client_tail (hm : ClientMove t s p s' p') (h : s.closed = true) :
    (s'.tail = s.tail ∧ (Appending p ↔ Appending p')) ∨
      ∃ i v a, p = .pushAdvance i v a ∧ s'.tail = a ∧ s'.head = s.head := by
  cases hm with
  | move hm =>
      cases hm
      case advance i v a => exact Or.inr ⟨i, v, a, rfl, rfl, rfl⟩
      case recheckOpen ho => rw [h] at ho; cases ho
      all_goals exact Or.inl ⟨rfl, Iff.rfl⟩
  | push | pop | close => exact Or.inl ⟨rfl, Iff.rfl⟩
  | finish hf => exact Or.inl ⟨rfl, by cases p <;> first | exact Iff.rfl | exact absurd hf id⟩

theorem client_wakeful_own (hlock : Locked c) (hclosed : c.shared.closed = true)
    (hwake : ¬GoesToSleep c t) (hm : ClientMove t c.shared (c.pc t) s p) :
    ¬GoesToSleep (c.after t s p) t := by
  rw [GoesToSleep, after_pc_self]
  rw [GoesToSleep] at hwake
  generalize hp : c.pc t = p₀ at hm hwake
  cases hm with
  | push | pop | close | finish => exact id
  | move hm =>
      cases hm
      case testOpen h => rw [hclosed] at h; cases h
      case waitTail k x h =>
          cases x with
          | true => exact id
          | false =>
              intro hhead
              refine hwake ⟨hhead, fun u hu => ?_⟩
              have hheld := (hlock u).2.mpr (by cases hq : c.pc u <;> rw [hq] at hu <;> trivial)
              rw [h] at hheld
              cases hheld
      case waitEmpty h => exact fun _ => hwake h
      all_goals exact id

theorem client_wakeful_other (hc : Reachable c) (hclosed : c.shared.closed = true) (hu : u ≠ t)
    (hwake : ¬GoesToSleep c u) (hm : ClientMove t c.shared (c.pc t) s p) :
    ¬GoesToSleep (c.after t s p) u := by
  obtain ⟨chain, hg, hl⟩ := reachable_chained hc
  obtain ⟨chain', ⟨-, hframe⟩, -⟩ := client_keeps (reachable_locked hc) hg hl hm
  have hhead := (hframe u hu).head
  rw [GoesToSleep, after_pc_of_ne _ hu]
  rw [GoesToSleep] at hwake
  generalize c.pc u = q at hwake hhead
  cases q <;> try exact id
  case toSleep k => exact absurd trivial hwake
  case waitCompare k x a =>
      cases x with
      | true => exact id
      | false =>
          rw [after_shared, hhead trivial]
          exact hwake
  case waitTail k x =>
      cases x with
      | true => exact id
      | false =>
          rintro ⟨hempty, hnone⟩
          rw [after_shared, hhead trivial] at hempty
          obtain ⟨htail, happ⟩ | ⟨i, v, a, hp, htail, -⟩ := client_tail hm hclosed
          · rw [htail] at hempty
            refine hwake ⟨hempty, fun w hw => ?_⟩
            have hafter := hnone w
            by_cases hwt : w = t
            · subst w
              rw [after_pc_self] at hafter
              exact hafter (happ.mp hw)
            · rw [after_pc_of_ne _ hwt] at hafter
              exact hafter hw
          -- The new tail is the node of the push, not the head of the queue.
          · have hk := hl t
            rw [hp] at hk
            have hout := owned_not_address (reachable_locked hc) hg hl hk.1
            rw [htail] at hempty
            exact hout (hg.head_mem hempty)

/-- A step keeps everybody awake. The notification of `close` needs that no
consumer is on its way to sleep. -/
theorem client_awake (hc : Reachable c) (hi : Awake c)
    (hnotify : c.pc t = .closeNotify → ∀ u, ¬GoesToSleep c u)
    (hm : ClientMove t c.shared (c.pc t) s p) : Awake (c.after t s p) := by
  obtain ⟨hstored, hafter⟩ := reachable_closed hc
  have hkeep (hclosed : c.shared.closed = true) (hwake : ∀ u, ¬GoesToSleep c u) (u : Nat) :
      ¬GoesToSleep (c.after t s p) u := by
    by_cases hut : u = t
    · subst u
      exact client_wakeful_own (reachable_locked hc) hclosed (hwake t) hm
    · exact client_wakeful_other hc hclosed hut (hwake u) hm
  by_cases hp : c.pc t = .closeNotify
  · refine ⟨fun _ u => ?_, fun _ => hkeep (hstored t hp) (hnotify hp)⟩
    rw [hp] at hm
    cases hm with
    | move hm =>
        cases hm
        rfl
    | finish h => exact absurd h id
  · have hsame : s.notifiedAll = c.shared.notifiedAll := (client_notifiedAll hm).resolve_left hp
    refine ⟨fun h u => ?_, fun h => ?_⟩
    · apply (client_sleeping hm (hi.sleeping (hsame ▸ h) u)).resolve_right
      rintro ⟨k, hk⟩
      apply hi.wakeful (hsame ▸ h) t
      rw [GoesToSleep, hk]
      trivial
    · exact hkeep (hafter (hsame ▸ h)) (hi.wakeful (hsame ▸ h))

theorem client_goesToSleep_other (hc : Reachable c) (hclosed : c.shared.closed = true) (hu : u ≠ t)
    (hnot : ¬Appending (c.pc t)) (h : GoesToSleep c u) (hm : ClientMove t c.shared (c.pc t) s p) :
    GoesToSleep (c.after t s p) u := by
  obtain ⟨chain, hg, hl⟩ := reachable_chained hc
  obtain ⟨chain', ⟨-, hframe⟩, -⟩ := client_keeps (reachable_locked hc) hg hl hm
  have hhead := (hframe u hu).head
  have htail : s.tail = c.shared.tail ∧ (Appending (c.pc t) ↔ Appending p) := by
    apply (client_tail hm hclosed).resolve_right
    rintro ⟨i, v, a, hp, -⟩
    exact hnot (hp ▸ trivial)
  rw [GoesToSleep, after_pc_of_ne _ hu]
  rw [GoesToSleep] at h
  generalize c.pc u = q at h hhead
  cases q <;> try exact absurd h id
  case toSleep k => trivial
  case waitCompare k x a =>
      cases x with
      | true => exact absurd h id
      | false =>
          rw [after_shared, hhead trivial]
          exact h
  case waitTail k x =>
      cases x with
      | true => exact absurd h id
      | false =>
          rw [after_shared, hhead trivial, htail.1]
          refine ⟨h.1, fun w => ?_⟩
          by_cases hwt : w = t
          · subst w
            rw [after_pc_self]
            exact fun hw => hnot (htail.2.mpr hw)
          · rw [after_pc_of_ne _ hwt]
            exact h.2 w

theorem client_goesToSleep_own (h : GoesToSleep c t) (hm : ClientMove t c.shared (c.pc t) s p) :
    Sleeps (c.after t s p) t := by
  rw [Sleeps, GoesToSleep, after_pc_self]
  rw [GoesToSleep] at h
  generalize c.pc t = p₀ at hm h
  cases hm with
  | push | pop | close => exact absurd h id
  | finish hf => cases p₀ <;> first | exact absurd hf id | exact absurd h id
  | move hm =>
      cases hm <;> try exact absurd h id
      case waitTail k x hn =>
          cases x with
          | true => exact absurd h id
          | false => exact Or.inr h.1
      case waitElement k x a hne =>
          cases x with
          | true => exact absurd h id
          | false => exact absurd h hne
      case waitEmpty => exact Or.inr trivial
      case sleep k => exact Or.inl ⟨k, rfl, Function.update_self _ _ _⟩

theorem client_notifies (hm : ClientMove t s p s' p') (h : s.closed = true) (hn : Notifies p') :
    Notifies p ∨ p' = .closeStore := by
  cases hm with
  | push | pop | finish => exact absurd hn id
  | close => exact Or.inr rfl
  | move hm =>
      cases hm <;> first | exact Or.inl trivial | exact absurd hn id | skip
      case recheckOpen ho => rw [h] at ho; cases ho

theorem client_sleeping_other (hm : ClientMove t s p s' p') (hu : u ≠ t) (hp : ¬Notifies p) :
    s'.sleeping u = s.sleeping u := by
  cases hm with
  | push | pop | close | finish => rfl
  | move hm =>
      cases hm <;> first | rfl | exact absurd trivial hp | exact Function.update_of_ne hu _ _

theorem awake_initial : Awake (initial : QueueConfig T) :=
  ⟨nofun, nofun⟩

end Lzhlib.QueueWakeups
