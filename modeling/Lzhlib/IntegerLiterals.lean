import Mathlib.Data.List.TakeWhile
import Lzhlib.PredefinedReaders

namespace Lzhlib.IntegerLiterals

open Decimals PredefinedReaders

variable {T : IntType} {text : List Char} {l : Literal}

def Reads (T : IntType) (l : Literal) (text : List Char) : Prop :=
  (l.negative = true → T.signed = true) ∧ l.Starts text

theorem Reads.hasMinus_eq (h : Reads T l text) : hasMinus T text = l.negative := by
  obtain ⟨hsigned, hstarts⟩ := h
  rw [hasMinus, ← hstarts.negative_iff]
  cases hneg : l.negative with
  | true => rw [hsigned hneg, Bool.true_and]
  | false => rw [Bool.and_false]

theorem Reads.digitsOf_eq (h : Reads T l text) : digitsOf T text = chars l.digits := by
  have hminus := h.hasMinus_eq
  obtain ⟨-, rest, rfl, hrest⟩ := h
  rw [digitsOf, hminus, Literal.chars, Literal.sign]
  cases l.negative with
  | true => exact takeWhile_chars l.digits hrest
  | false => exact takeWhile_chars l.digits hrest

theorem Reads.valueOf_eq (h : Reads T l text) : valueOf T text = l.value := by
  rw [valueOf, h.hasMinus_eq, h.digitsOf_eq, parse_chars, Literal.value]

theorem Reads.digitsOf_ne (h : Reads T l text) : digitsOf T text ≠ [] := by
  rw [h.digitsOf_eq, chars]
  exact fun hnil => l.nonempty (List.map_eq_nil_iff.mp hnil)

theorem text_eq_sign_append (T : IntType) (text : List Char) :
    text = Literal.sign (hasMinus T text) ++ if hasMinus T text then text.tail else text := by
  cases hminus : hasMinus T text with
  | false => rfl
  | true =>
      obtain ⟨-, hhead⟩ := Bool.and_eq_true_iff.mp hminus
      exact (List.cons_head?_tail (Option.mem_def.mpr (eq_of_beq hhead))).symm

theorem exists_reads (h : digitsOf T text ≠ []) : ∃ l, Reads T l text := by
  have hdigit : ∀ c ∈ digitsOf T text, c.isDigit = true := fun c hc => List.mem_takeWhile_imp hc
  obtain ⟨ds, hds⟩ := exists_chars hdigit
  have hne : ds ≠ [] := by
    rintro rfl
    exact h hds.symm
  refine ⟨⟨hasMinus T text, ds, hne⟩, fun hminus => (Bool.and_eq_true_iff.mp hminus).1, _, ?_,
    ends_dropWhile (if hasMinus T text then text.tail else text)⟩
  rw [Literal.chars, hds, digitsOf, List.append_assoc, List.takeWhile_append_dropWhile]
  exact text_eq_sign_append T text

/-- The pointer is past the digits whether or not they fit. -/
theorem fromChars_ptr (h : Reads T l text) (value : T.Value) : (fromChars T text value).ptr ≠ 0 := by
  have hpast : pastDigits T text ≠ 0 := fun hzero =>
    h.digitsOf_ne (List.eq_nil_of_length_eq_zero (Nat.add_eq_zero_iff.mp hzero).1)
  rw [fromChars, if_neg h.digitsOf_ne]
  split_ifs
  · exact hpast
  · exact hpast

theorem fromChars_fits (h : Reads T l text) (hfits : T.Fits l.value) (value : T.Value) :
    (fromChars T text value).ec = none ∧ (fromChars T text value).value = ⟨l.value, hfits⟩ := by
  have hvalue : T.Fits (valueOf T text) := h.valueOf_eq.symm ▸ hfits
  rw [fromChars, if_neg h.digitsOf_ne, dif_pos hvalue]
  exact ⟨rfl, Subtype.ext h.valueOf_eq⟩

theorem fromChars_outOfRange (h : Reads T l text) (hfits : ¬T.Fits l.value) (value : T.Value) :
    (fromChars T text value).ec = some .resultOutOfRange ∧
      (fromChars T text value).value = value := by
  have hvalue : ¬T.Fits (valueOf T text) := h.valueOf_eq.symm ▸ hfits
  rw [fromChars, if_neg h.digitsOf_ne, dif_neg hvalue]
  exact ⟨rfl, rfl⟩

theorem fromChars_invalid (h : ¬∃ l, Reads T l text) (value : T.Value) :
    fromChars T text value = ⟨0, some .invalidArgument, value⟩ :=
  if_pos (not_not.mp fun hne => h (exists_reads hne))

variable {str : StringView Char}

theorem readArithmetic_fits (h : Reads T l str.text) (hfits : T.Fits l.value) :
    readArithmetic T str = .ok ⟨l.value, hfits⟩ := by
  rw [readArithmetic, if_neg (fromChars_ptr h T.zero), (fromChars_fits h hfits T.zero).2]
  rfl

theorem readArithmetic_outOfRange (h : Reads T l str.text) (hfits : ¬T.Fits l.value) :
    readArithmetic T str = .ok T.zero := by
  rw [readArithmetic, if_neg (fromChars_ptr h T.zero), (fromChars_outOfRange h hfits T.zero).2]
  rfl

theorem readArithmetic_invalid (h : ¬∃ l, Reads T l str.text) :
    readArithmetic T str = (cString str).bind fun got =>
      .error (.logicError ("expect integer, got " ++ got)) := by
  rw [readArithmetic, fromChars_invalid h]
  rfl

theorem throws_invalid_iff (h : ¬∃ l, Reads T l str.text) :
    Throws (readArithmetic T str) ↔ nul ∈ str.text ++ str.beyond := by
  rw [readArithmetic_invalid h, cString]
  split_ifs with hnul
  · exact iff_of_true ⟨_, rfl⟩ hnul
  · refine iff_of_false ?_ hnul
    rintro ⟨what, hwhat⟩
    cases hwhat

/-- A literal is read to its value or refused, and nothing else is read. -/
structure NeverInvents (T : IntType) (str : StringView Char) : Prop where
  represented : ∀ l, Reads T l str.text → ∀ hfits : T.Fits l.value,
    readArithmetic T str = .ok ⟨l.value, hfits⟩
  tooLarge : ∀ l, Reads T l str.text → ¬T.Fits l.value → Throws (readArithmetic T str)
  noLiteral : (¬∃ l, Reads T l str.text) → Throws (readArithmetic T str)

theorem readArithmetic_neverInvents_iff (T : IntType) (str : StringView Char) :
    NeverInvents T str ↔ (∃ l, Reads T l str.text ∧ T.Fits l.value) ∨
      (¬∃ l, Reads T l str.text) ∧ nul ∈ str.text ++ str.beyond := by
  constructor
  · intro h
    by_cases hread : ∃ l, Reads T l str.text
    · obtain ⟨l, hl⟩ := hread
      refine Or.inl ⟨l, hl, ?_⟩
      by_contra hfits
      obtain ⟨what, hwhat⟩ := h.tooLarge l hl hfits
      rw [readArithmetic_outOfRange hl hfits] at hwhat
      cases hwhat
    · exact Or.inr ⟨hread, (throws_invalid_iff hread).mp (h.noLiteral hread)⟩
  · rintro (⟨l, hl, hfits⟩ | ⟨hread, hnul⟩)
    · refine ⟨fun l' hl' => readArithmetic_fits hl', fun l' hl' hfits' => ?_, fun hread => ?_⟩
      · cases hl.2.unique hl'.2
        exact absurd hfits hfits'
      · exact absurd ⟨l, hl⟩ hread
    · exact ⟨fun l hl => absurd ⟨l, hl⟩ hread, fun l hl => absurd ⟨l, hl⟩ hread,
        fun _ => (throws_invalid_iff hread).mpr hnul⟩

def uint8 : IntType := ⟨false, 8, by decide⟩

def tooLarge : StringView Char := ⟨['2', '5', '6'], [nul]⟩

theorem tooLarge_reads_zero : readArithmetic uint8 tooLarge = .ok uint8.zero ∧
    ¬NeverInvents uint8 tooLarge := by
  have hreads : Reads uint8 ⟨false, [2, 5, 6], by decide⟩ tooLarge.text :=
    ⟨by decide, [], rfl, fun c hc => by cases hc⟩
  have hfits : ¬uint8.Fits (Literal.value ⟨false, [2, 5, 6], by decide⟩) := by decide
  have hzero := readArithmetic_outOfRange hreads hfits
  refine ⟨hzero, fun h => ?_⟩
  obtain ⟨what, hwhat⟩ := h.tooLarge _ hreads hfits
  rw [hzero] at hwhat
  cases hwhat

end Lzhlib.IntegerLiterals
