import Mathlib.Algebra.Group.Nat.Defs
import Mathlib.Logic.Function.Basic
import Lzhlib.Programs

namespace Lzhlib.Machine

/-- The largest `std::size_t`, of 64 bits. -/
def maxSize : Nat := 2 ^ 64 - 1

/-- The index that denotes no node. -/
def nullIndex : Nat := maxSize

def sizeAdd (a b : Nat) : Nat := (a + b) % 2 ^ 64

/-- Unsigned subtraction, which wraps below zero. -/
def sizeSub (a b : Nat) : Nat := (a + (2 ^ 64 - b)) % 2 ^ 64

def sizeMul (a b : Nat) : Nat := a * b % 2 ^ 64

theorem sizeAdd_eq {a b : Nat} (h : a + b < 2 ^ 64) : sizeAdd a b = a + b := Nat.mod_eq_of_lt h

theorem sizeMul_eq {a b : Nat} (h : a * b < 2 ^ 64) : sizeMul a b = a * b := Nat.mod_eq_of_lt h

theorem sizeSub_eq {a b : Nat} (hab : b ≤ a) (ha : a < 2 ^ 64) : sizeSub a b = a - b := by
  unfold sizeSub
  omega

/-- What a call may throw. `undefined` is no exception of the source: it marks
an access the language gives no meaning, such as a subscript past the end. -/
inductive Exc
  | undefined
  | badAlloc
  | formListArgument
  | atOutOfRange (index size : Nat)
  | sizeTooLarge (size : Nat)
  | attemptToUseUnusedStock (id : Nat)
  | attemptToRemoveNonexistentStock (id : Nat)
  | attemptToReturnUnusedStock (id : Nat)
  | indexOutOfRange (id : Nat)
  | requireEdgeThatDoesNotExist
  | thrownByValue
  deriving DecidableEq

def Exc.what : Exc → Option String
  | .formListArgument => some "in lzhlib::indexed_list::form_list: argument is invalid."
  | .atOutOfRange i n => some ("in lzhlib::indexed_list::at: index " ++ toString i ++
      " is out of range, size is " ++ toString n ++ ".")
  | .sizeTooLarge n => some ("Size of " ++ toString n ++ " is too large.")
  | .attemptToUseUnusedStock i =>
      some ("Attempt to use unused stock whose id is " ++ toString i ++ "!")
  | .attemptToRemoveNonexistentStock i =>
      some ("Attempt to remove nonexistent stock whose id is " ++ toString i ++ "!")
  | .attemptToReturnUnusedStock i =>
      some ("Attempt to return unused stock whose id is " ++ toString i ++ "!")
  | .indexOutOfRange i => some ("index with value " ++ toString i ++ " is out of range.")
  | .requireEdgeThatDoesNotExist => some "require edge that doesn't exist!"
  | .undefined | .badAlloc | .thrownByValue => none

def Exc.RejectsId (i : Nat) (e : Exc) : Prop :=
  e = .indexOutOfRange i ∨ e = .attemptToUseUnusedStock i

def Exc.NoRoom (e : Exc) : Prop := e = .badAlloc ∨ ∃ size, e = .sizeTooLarge size

theorem Exc.RejectsId.ne_undefined {i : Nat} {e : Exc} (h : e.RejectsId i) : e ≠ .undefined := by
  obtain rfl | rfl := h <;> simp

theorem Exc.NoRoom.ne_undefined {e : Exc} (h : e.NoRoom) : e ≠ .undefined := by
  obtain rfl | ⟨size, rfl⟩ := h <;> simp

theorem Exc.NoRoom.not_rejectsId {e : Exc} (h : e.NoRoom) (i : Nat) : ¬e.RejectsId i := by
  obtain rfl | ⟨size, rfl⟩ := h <;> simp [Exc.RejectsId]

abbrev Prog (σ α : Type) := Programs.Program Exc σ α

end Lzhlib.Machine
