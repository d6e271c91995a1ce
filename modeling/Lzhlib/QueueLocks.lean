import Lzhlib.ThreadQueue

namespace Lzhlib.QueueLocks

open Interleaving ThreadQueue

variable {T : Type} {c : QueueConfig T} {t u : Nat} {s s' : Shared T} {p p' : Pc T}

inductive Call
  | none
  | push
  | pop (k : Caller)
  | close

def call : Pc T → Call
  | .idle => .none
  | .pushCheck _ _ | .pushAlloc _ _ | .pushLock _ _ _ | .pushRecheck _ _ _ | .pushFill _ _ _
  | .pushLink _ _ _ | .pushAdvance _ _ _ | .pushUnlock _ | .pushNotify _ | .pushReturned _
  | .pushUnwind _ _ | .pushFree _ _ | .pushThrew _ | .pushFailed => .push
  | .popLock k | .waitTest k _ | .waitTail k _ | .waitCompare k _ _ | .toSleep k | .asleep k
  | .awake k _ | .lastTail k _ | .lastCompare k _ _ | .popHead k | .popUnlock k _ | .popTake k _
  | .popReturned k _ | .missUnlock k | .missReturned k => .pop k
  | .closeStore | .closeNotify | .closeReturned => .close

theorem move_call (hm : Move t s p s' p') : call p' = call p := by
  cases hm <;> rfl

def HoldsHead : Pc T → Prop
  | .waitTest _ _ | .waitTail _ _ | .waitCompare _ _ _ | .toSleep _ | .lastTail _ _
  | .lastCompare _ _ _ | .popHead _ | .popUnlock _ _ | .missUnlock _ => True
  | _ => False

def HoldsTail : Pc T → Prop
  | .pushRecheck _ _ _ | .pushFill _ _ _ | .pushLink _ _ _ | .pushAdvance _ _ _ | .pushUnlock _
  | .pushUnwind _ _ => True
  | _ => False

theorem move_headMutex (hm : Move t s p s' p') :
    Handover t s.headMutex s'.headMutex (HoldsHead p) (HoldsHead p') := by
  cases hm
  case lockTry h => exact Or.inr (Or.inl ⟨h, rfl, trivial⟩)
  case lockWait hk h => exact Or.inr (Or.inl ⟨h, rfl, trivial⟩)
  case relock h => exact Or.inr (Or.inl ⟨h, rfl, trivial⟩)
  case sleep => exact Or.inr (Or.inr ⟨trivial, rfl, id⟩)
  case unlockPopped => exact Or.inr (Or.inr ⟨trivial, rfl, id⟩)
  case unlockMissed => exact Or.inr (Or.inr ⟨trivial, rfl, id⟩)
  all_goals exact Or.inl ⟨rfl, Iff.rfl⟩

theorem move_tailMutex (hm : Move t s p s' p') :
    Handover t s.tailMutex s'.tailMutex (HoldsTail p) (HoldsTail p') := by
  cases hm
  case lockTail h => exact Or.inr (Or.inl ⟨h, rfl, trivial⟩)
  case unlockTail => exact Or.inr (Or.inr ⟨trivial, rfl, id⟩)
  case unwind => exact Or.inr (Or.inr ⟨trivial, rfl, id⟩)
  all_goals exact Or.inl ⟨rfl, Iff.rfl⟩

theorem client_headMutex (hm : ClientMove t s p s' p') :
    Handover t s.headMutex s'.headMutex (HoldsHead p) (HoldsHead p') := by
  cases hm with
  | move h => exact move_headMutex h
  | push | pop | close => exact Or.inl ⟨rfl, Iff.rfl⟩
  | finish h => exact Or.inl ⟨rfl, by cases p <;> first | exact Iff.rfl | exact absurd h id⟩

theorem client_tailMutex (hm : ClientMove t s p s' p') :
    Handover t s.tailMutex s'.tailMutex (HoldsTail p) (HoldsTail p') := by
  cases hm with
  | move h => exact move_tailMutex h
  | push | pop | close => exact Or.inl ⟨rfl, Iff.rfl⟩
  | finish h => exact Or.inl ⟨rfl, by cases p <;> first | exact Iff.rfl | exact absurd h id⟩

/-- A mutex names the thread inside its section. -/
def Locked (c : QueueConfig T) : Prop :=
  ∀ t, (c.shared.headMutex = some t ↔ HoldsHead (c.pc t)) ∧
    (c.shared.tailMutex = some t ↔ HoldsTail (c.pc t))

theorem Locked.head_exclusive (hc : Locked c) (ht : c.shared.headMutex = some t) (hu : u ≠ t) :
    ¬HoldsHead (c.pc u) := by
  intro hh
  have hheld := (hc u).1.mpr hh
  rw [ht] at hheld
  exact hu (Option.some.inj hheld).symm

theorem Locked.tail_exclusive (hc : Locked c) (ht : c.shared.tailMutex = some t) (hu : u ≠ t) :
    ¬HoldsTail (c.pc u) := by
  intro hh
  have hheld := (hc u).2.mpr hh
  rw [ht] at hheld
  exact hu (Option.some.inj hheld).symm

theorem locked_initial : Locked (initial : QueueConfig T) := fun _ =>
  ⟨iff_of_false nofun id, iff_of_false nofun id⟩

theorem reachable_locked (h : Reachable c) : Locked c := by
  intro t
  constructor
  · exact h.mutex Shared.headMutex HoldsHead (fun _ _ _ _ _ => client_headMutex)
      (fun u => (locked_initial u).1) t
  · exact h.mutex Shared.tailMutex HoldsTail (fun _ _ _ _ _ => client_tailMutex)
      (fun u => (locked_initial u).2) t

end Lzhlib.QueueLocks
