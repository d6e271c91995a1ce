import Mathlib.Data.Nat.Digits.Defs
import Mathlib.Data.List.Basic
import Mathlib.Tactic.Ring

namespace Lzhlib.Decimals

def digitChar (d : Fin 10) : Char := Char.ofNat (48 + d)

def digitValue (c : Char) : Nat := c.toNat - 48

theorem isDigit_digitChar (d : Fin 10) : (digitChar d).isDigit = true := by
  revert d
  decide

theorem digitValue_digitChar (d : Fin 10) : digitValue (digitChar d) = d := by
  revert d
  decide

theorem digitChar_injective : Function.Injective digitChar := fun d d' h =>
  Fin.ext (by rw [← digitValue_digitChar d, h, digitValue_digitChar])

theorem exists_digitChar {c : Char} (h : c.isDigit = true) : ∃ d, digitChar d = c := by
  obtain ⟨hlo, hhi⟩ := Char.isDigit_iff_toNat.mp h
  have hlo' : 48 ≤ c.toNat := hlo
  have hhi' : c.toNat ≤ 57 := hhi
  refine ⟨⟨c.toNat - 48, by omega⟩, ?_⟩
  rw [digitChar, Nat.add_sub_cancel' hlo']
  exact Char.ofNat_toNat c

def chars (ds : List (Fin 10)) : List Char := ds.map digitChar

def value (ds : List (Fin 10)) : Nat := Nat.ofDigits 10 (ds.map Fin.val).reverse

/-- The value of a digit string, digit by digit from the left. -/
def parse (cs : List Char) : Nat := cs.foldl (fun n c => 10 * n + digitValue c) 0

theorem parse_chars (ds : List (Fin 10)) : parse (chars ds) = value ds := by
  rw [value, Nat.ofDigits_eq_foldr, List.foldr_reverse, parse, chars, List.foldl_map, List.foldl_map]
  refine List.foldl_ext _ _ _ fun n d _ => ?_
  rw [digitValue_digitChar, Nat.add_comm]
  rfl

theorem chars_injective : Function.Injective chars :=
  List.map_injective_iff.mpr digitChar_injective

theorem isDigit_of_mem_chars {ds : List (Fin 10)} {c : Char} (h : c ∈ chars ds) :
    c.isDigit = true := by
  obtain ⟨d, -, rfl⟩ := List.mem_map.mp h
  exact isDigit_digitChar d

theorem exists_chars {cs : List Char} (h : ∀ c ∈ cs, c.isDigit = true) : ∃ ds, chars ds = cs := by
  induction cs with
  | nil => exact ⟨[], rfl⟩
  | cons c cs ih =>
      obtain ⟨d, hd⟩ := exists_digitChar (h c List.mem_cons_self)
      obtain ⟨ds, hds⟩ := ih fun c' hc' => h c' (List.mem_cons_of_mem c hc')
      exact ⟨d :: ds, by rw [← hd, ← hds]; rfl⟩

def Ends (rest : List Char) : Prop := ∀ c ∈ rest.head?, c.isDigit = false

theorem takeWhile_chars (ds : List (Fin 10)) {rest : List Char} (h : Ends rest) :
    (chars ds ++ rest).takeWhile Char.isDigit = chars ds := by
  rw [List.takeWhile_append_of_pos fun c hc => isDigit_of_mem_chars hc]
  cases rest with
  | nil => exact List.append_nil _
  | cons c rest =>
      have hc : ¬c.isDigit = true := Bool.eq_false_iff.mp (h c rfl)
      rw [List.takeWhile_cons_of_neg hc, List.append_nil]

theorem ends_dropWhile (cs : List Char) : Ends (cs.dropWhile Char.isDigit) := by
  intro c hc
  have h := List.head?_dropWhile_not Char.isDigit cs
  rw [Option.mem_def.mp hc] at h
  exact h

theorem parse_toDigits (n : Nat) : parse (Nat.toDigits 10 n) = n := by
  have h := Nat.ofDigitChars_ten_toDigits (n := n)
  rwa [Nat.ofDigitChars_eq_foldl] at h

theorem foldl_digits (cs : List Char) (n : Nat) :
    cs.foldl (fun n c => 10 * n + digitValue c) n = n * 10 ^ cs.length + parse cs := by
  induction cs generalizing n with
  | nil => rw [List.foldl_nil, List.length_nil, Nat.pow_zero, Nat.mul_one]; rfl
  | cons c cs ih =>
      have hparse : parse (c :: cs) = (10 * 0 + digitValue c) * 10 ^ cs.length + parse cs := ih _
      rw [List.foldl_cons, ih, hparse, List.length_cons, Nat.pow_succ]
      ring

theorem parse_append (cs cs' : List Char) :
    parse (cs ++ cs') = parse cs * 10 ^ cs'.length + parse cs' := by
  rw [parse, List.foldl_append, foldl_digits]
  rfl

theorem span_digits {cs rest : List Char} (h : ∀ c ∈ cs, c.isDigit = true) (hrest : Ends rest) :
    (cs ++ rest).takeWhile Char.isDigit = cs ∧ (cs ++ rest).dropWhile Char.isDigit = rest := by
  obtain ⟨ds, rfl⟩ := exists_chars h
  have htake := takeWhile_chars ds hrest
  refine ⟨htake, ?_⟩
  have hsplit := List.takeWhile_append_dropWhile (p := Char.isDigit) (l := chars ds ++ rest)
  rw [htake] at hsplit
  exact List.append_cancel_left hsplit

theorem chars_append_inj {ds ds' : List (Fin 10)} {rest rest' : List Char} (h : Ends rest)
    (h' : Ends rest') (heq : chars ds ++ rest = chars ds' ++ rest') : ds = ds' := by
  apply chars_injective
  rw [← takeWhile_chars ds h, heq, takeWhile_chars ds' h']

/-- A decimal integer literal: a sign or none, and one digit at least. -/
structure Literal where
  negative : Bool
  digits : List (Fin 10)
  nonempty : digits ≠ []

namespace Literal

def sign (negative : Bool) : List Char := if negative then ['-'] else []

def chars (l : Literal) : List Char := sign l.negative ++ Decimals.chars l.digits

def value (l : Literal) : Int := if l.negative then -Decimals.value l.digits else Decimals.value l.digits

/-- The text starts with the literal, which ends where the digits do. -/
def Starts (l : Literal) (text : List Char) : Prop := ∃ rest, text = l.chars ++ rest ∧ Ends rest

theorem Starts.negative_iff {l : Literal} {text : List Char} (h : l.Starts text) :
    l.negative = (text.head? == some '-') := by
  obtain ⟨rest, rfl, -⟩ := h
  obtain ⟨negative, digits, hne⟩ := l
  obtain ⟨d, ds, rfl⟩ := List.exists_cons_of_ne_nil hne
  cases negative with
  | true => rfl
  | false =>
      have hd : digitChar d ≠ '-' := by
        intro hd
        have hdigit := isDigit_digitChar d
        rw [hd] at hdigit
        cases hdigit
      exact (beq_eq_false_iff_ne.mpr fun h => hd (Option.some.inj h)).symm

theorem Starts.unique {l l' : Literal} {text : List Char} (h : l.Starts text)
    (h' : l'.Starts text) : l = l' := by
  have hsign : l.negative = l'.negative := h.negative_iff.trans h'.negative_iff.symm
  obtain ⟨rest, htext, hrest⟩ := h
  obtain ⟨rest', htext', hrest'⟩ := h'
  rw [htext, chars, chars, hsign, List.append_assoc, List.append_assoc] at htext'
  have hdigits := chars_append_inj hrest hrest' (List.append_cancel_left htext')
  cases l
  cases l'
  cases hsign
  cases hdigits
  rfl

end Literal

end Lzhlib.Decimals
