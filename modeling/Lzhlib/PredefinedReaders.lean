import Lzhlib.Decimals

namespace Lzhlib.PredefinedReaders

open Decimals

/-- A `std::basic_string_view`, and the characters that can still be read after
it in the array it points into. -/
structure StringView (C : Type) where
  text : List C
  beyond : List C

/-- What a reader may throw. `undefined` is no exception of the source: it marks
an access the language gives no meaning. -/
inductive Exc
  | undefined
  | outOfRange
  | logicError (what : String)
  deriving DecidableEq

def Throws {α : Type} (result : Except Exc α) : Prop := ∃ what, result = .error (.logicError what)

structure IntType where
  signed : Bool
  bits : Nat
  bits_pos : 0 < bits

namespace IntType

def min (T : IntType) : Int := if T.signed then -2 ^ (T.bits - 1) else 0

def max (T : IntType) : Int := if T.signed then 2 ^ (T.bits - 1) - 1 else 2 ^ T.bits - 1

def Fits (T : IntType) (v : Int) : Prop := T.min ≤ v ∧ v ≤ T.max

instance (T : IntType) (v : Int) : Decidable (T.Fits v) := inferInstanceAs (Decidable (_ ∧ _))

abbrev Value (T : IntType) : Type := {v : Int // T.Fits v}

theorem fits_zero (T : IntType) : T.Fits 0 := by
  have h (n : Nat) : (0 : Int) < 2 ^ n := Int.pow_pos (by decide)
  have hlow := h (T.bits - 1)
  have hhigh := h T.bits
  constructor
  · rw [min]
    split_ifs <;> omega
  · rw [max]
    split_ifs <;> omega

def zero (T : IntType) : T.Value := ⟨0, T.fits_zero⟩

end IntType

inductive Errc
  | invalidArgument
  | resultOutOfRange
  deriving DecidableEq

/-- `std::from_chars_result`, with `ptr` as an offset, and the object that the call was given. -/
structure FromCharsResult (T : IntType) where
  ptr : Nat
  ec : Option Errc
  value : T.Value

def hasMinus (T : IntType) (text : List Char) : Bool := T.signed && text.head? == some '-'

def digitsOf (T : IntType) (text : List Char) : List Char :=
  (if hasMinus T text then text.tail else text).takeWhile Char.isDigit

def valueOf (T : IntType) (text : List Char) : Int :=
  if hasMinus T text then -parse (digitsOf T text) else parse (digitsOf T text)

def pastDigits (T : IntType) (text : List Char) : Nat :=
  (digitsOf T text).length + if hasMinus T text then 1 else 0

/-- `std::from_chars` in base ten, which writes `value` only when it reports no error. -/
def fromChars (T : IntType) (text : List Char) (value : T.Value) : FromCharsResult T :=
  if digitsOf T text = [] then ⟨0, some .invalidArgument, value⟩
  else if h : T.Fits (valueOf T text) then ⟨pastDigits T text, none, ⟨valueOf T text, h⟩⟩
  else ⟨pastDigits T text, some .resultOutOfRange, value⟩

def nul : Char := Char.ofNat 0

/-- The string at `str.data()`, which goes on to the first null character
wherever the view ends. -/
def cString (str : StringView Char) : Except Exc String :=
  if nul ∈ str.text ++ str.beyond then
    .ok (String.ofList ((str.text ++ str.beyond).takeWhile fun c => c ≠ nul))
  else .error .undefined

def readArithmetic (T : IntType) (str : StringView Char) : Except Exc T.Value :=
  -- the member `ec` is bound to a name and not looked at
  let result := fromChars T str.text T.zero
  if result.ptr = 0 then do
    let got ← cString str
    throw (.logicError ("expect integer, got " ++ got))
  else return result.value

structure Quotes (C : Type) where
  apostrophe : C
  quotationMark : C

variable {C : Type} [DecidableEq C]

def StringView.charAt (str : StringView C) (pos : Nat) : Except Exc C :=
  match str.text[pos]? with
  | some c => .ok c
  | none => .error .undefined

def findLastOf (c : C) : List C → Option Nat
  | [] => none
  | a :: text =>
    match findLastOf c text with
    | some pos => some (pos + 1)
    | none => if a = c then some 0 else none

def StringView.substr (str : StringView C) (pos count : Nat) : Except Exc (List C) :=
  if str.text.length < pos then .error .outOfRange else .ok ((str.text.drop pos).take count)

def delimiter (q : Quotes C) (str : StringView C) : Except Exc C := do
  let first ← str.charAt 0
  if first = q.apostrophe then return q.apostrophe
  else do
    let first ← str.charAt 0
    if first = q.quotationMark then return q.quotationMark
    else throw (.logicError "expect ' or \"")

def readString (q : Quotes C) (str : StringView C) : Except Exc (List C) := do
  let delimiter ← delimiter q str
  match findLastOf delimiter str.text with
  | some last =>
    if last = 0 then throw (.logicError "expect close of quote")
    else str.substr 1 (last - 1)
  | none => throw (.logicError "expect close of quote")

end Lzhlib.PredefinedReaders
