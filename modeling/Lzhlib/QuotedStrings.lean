import Lzhlib.PredefinedReaders

namespace Lzhlib.QuotedStrings

open PredefinedReaders

variable {C : Type} [DecidableEq C] {q : Quotes C} {c : C} {s after rest beyond : List C}

section FindLastOf

theorem findLastOf_cons_none (h : findLastOf c rest = none) (a : C) :
    findLastOf c (a :: rest) = if a = c then some 0 else none := by
  rw [findLastOf, h]

theorem findLastOf_cons_some {pos : Nat} (h : findLastOf c rest = some pos) (a : C) :
    findLastOf c (a :: rest) = some (pos + 1) := by
  rw [findLastOf, h]

theorem findLastOf_absent (h : c ∉ rest) : findLastOf c rest = none := by
  induction rest with
  | nil => rfl
  | cons a rest ih =>
      rw [List.mem_cons, not_or] at h
      rw [findLastOf_cons_none (ih h.2), if_neg (Ne.symm h.1)]

theorem findLastOf_head (h : c ∉ rest) : findLastOf c (c :: rest) = some 0 := by
  rw [findLastOf_cons_none (findLastOf_absent h), if_pos rfl]

theorem findLastOf_append (h : c ∉ after) : findLastOf c (s ++ c :: after) = some s.length := by
  induction s with
  | nil => exact findLastOf_head h
  | cons a s ih => exact findLastOf_cons_some ih a

end FindLastOf

def IsQuote (q : Quotes C) (c : C) : Prop := c = q.apostrophe ∨ c = q.quotationMark

theorem delimiter_cons : delimiter q ⟨c :: rest, beyond⟩ =
    if c = q.apostrophe then .ok q.apostrophe
    else if c = q.quotationMark then .ok q.quotationMark
    else .error (.logicError "expect ' or \"") :=
  rfl

theorem delimiter_ok (h : IsQuote q c) : delimiter q ⟨c :: rest, beyond⟩ = .ok c := by
  rw [delimiter_cons]
  split_ifs with hapostrophe hquotation
  · rw [hapostrophe]
  · rw [hquotation]
  · exact absurd h (not_or_intro hapostrophe hquotation)

theorem delimiter_rejects (h : ¬IsQuote q c) :
    delimiter q ⟨c :: rest, beyond⟩ = .error (.logicError "expect ' or \"") := by
  obtain ⟨hapostrophe, hquotation⟩ := not_or.mp h
  rw [delimiter_cons, if_neg hapostrophe, if_neg hquotation]

theorem readString_cons (h : IsQuote q c) : readString q ⟨c :: rest, beyond⟩ =
    match findLastOf c (c :: rest) with
    | some last =>
      if last = 0 then .error (.logicError "expect close of quote")
      else StringView.substr ⟨c :: rest, beyond⟩ 1 (last - 1)
    | none => .error (.logicError "expect close of quote") := by
  rw [readString, delimiter_ok h]
  rfl

theorem readString_empty : readString q ⟨[], beyond⟩ = .error .undefined :=
  rfl

theorem readString_unquoted (h : ¬IsQuote q c) :
    readString q ⟨c :: rest, beyond⟩ = .error (.logicError "expect ' or \"") := by
  rw [readString, delimiter_rejects h]
  rfl

theorem readString_opened (h : IsQuote q c) (hrest : c ∉ rest) :
    readString q ⟨c :: rest, beyond⟩ = .error (.logicError "expect close of quote") := by
  rw [readString_cons h, findLastOf_head hrest]
  rfl

theorem readString_closed (h : IsQuote q c) (hafter : c ∉ after) :
    readString q ⟨c :: (s ++ c :: after), beyond⟩ = .ok s := by
  have hlast : findLastOf c (c :: (s ++ c :: after)) = some (s.length + 1) :=
    findLastOf_cons_some (findLastOf_append hafter) c
  have hsize : ¬(c :: (s ++ c :: after)).length < 1 := by simp
  have hsubstr : StringView.substr ⟨c :: (s ++ c :: after), beyond⟩ 1 s.length = .ok s := by
    rw [StringView.substr, if_neg hsize]
    exact congrArg Except.ok List.take_left
  rw [readString_cons h, hlast]
  exact hsubstr

section RoundTrip

inductive Delimiter
  | apostrophe
  | quotationMark

def Delimiter.char (q : Quotes C) : Delimiter → C
  | .apostrophe => q.apostrophe
  | .quotationMark => q.quotationMark

omit [DecidableEq C] in
theorem Delimiter.isQuote (q : Quotes C) (d : Delimiter) : IsQuote q (d.char q) := by
  cases d with
  | apostrophe => exact Or.inl rfl
  | quotationMark => exact Or.inr rfl

/-- A string between two delimiters. Nothing in it is escaped. -/
def quote (q : Quotes C) (d : Delimiter) (s : List C) : List C := d.char q :: (s ++ [d.char q])

theorem readString_quote (q : Quotes C) (d : Delimiter) :
    (∀ s beyond, readString q ⟨quote q d s, beyond⟩ = .ok s) ∧ Function.Injective (quote q d) := by
  have hread (s beyond : List C) : readString q ⟨quote q d s, beyond⟩ = .ok s :=
    readString_closed (d.isQuote q) List.not_mem_nil
  refine ⟨hread, fun s s' h => ?_⟩
  have hs := hread s []
  rw [h, hread s' []] at hs
  exact (Except.ok.inj hs).symm

end RoundTrip

/-- The reader stays inside the view, and throws or gives what is between the
first character and its last occurrence. -/
structure SafeAndExact (q : Quotes C) (str : StringView C) : Prop where
  inside : readString q str ≠ .error .undefined
  unquoted : (∀ c ∈ str.text.head?, ¬IsQuote q c) → Throws (readString q str)
  opened : ∀ c rest, str.text = c :: rest → IsQuote q c → c ∉ rest → Throws (readString q str)
  closed : ∀ c s after, str.text = c :: (s ++ c :: after) → IsQuote q c → c ∉ after →
    readString q str = .ok s

omit [DecidableEq C] in
theorem exists_last (h : c ∈ rest) : ∃ s after, rest = s ++ c :: after ∧ c ∉ after := by
  obtain ⟨after, s, hrest, hafter⟩ := List.eq_append_cons_of_mem (List.mem_reverse.mpr h)
  refine ⟨s.reverse, after.reverse, ?_, mt List.mem_reverse.mp hafter⟩
  rw [← List.reverse_reverse rest, hrest]
  simp

theorem readString_inside (q : Quotes C) (c : C) (rest beyond : List C) :
    readString q ⟨c :: rest, beyond⟩ ≠ .error .undefined := by
  intro h
  by_cases hquote : IsQuote q c
  · by_cases hrest : c ∈ rest
    · obtain ⟨s, after, rfl, hafter⟩ := exists_last hrest
      rw [readString_closed hquote hafter] at h
      cases h
    · rw [readString_opened hquote hrest] at h
      cases h
  · rw [readString_unquoted hquote] at h
    cases h

theorem readString_safeAndExact_iff (q : Quotes C) (str : StringView C) :
    SafeAndExact q str ↔ str.text ≠ [] := by
  obtain ⟨text, beyond⟩ := str
  cases text with
  | nil => exact iff_of_false (fun h => h.inside readString_empty) (fun h => h rfl)
  | cons c rest =>
      refine iff_of_true ⟨readString_inside q c rest beyond, ?_, ?_, ?_⟩ (List.cons_ne_nil c rest)
      · exact fun h => ⟨_, readString_unquoted (h c rfl)⟩
      · rintro c rest ⟨⟩ hquote hrest
        exact ⟨_, readString_opened hquote hrest⟩
      · rintro c s after ⟨⟩ hquote hafter
        exact readString_closed hquote hafter

def charQuotes : Quotes Char := ⟨Char.ofNat 39, Char.ofNat 34⟩

def empty : StringView Char := ⟨[], [nul]⟩

theorem empty_undefined : readString charQuotes empty = .error .undefined ∧
    ¬SafeAndExact charQuotes empty :=
  ⟨rfl, fun h => h.inside rfl⟩

end Lzhlib.QuotedStrings
