import Lzhlib.Decimals
import Lzhlib.Programs

namespace Lzhlib.TextStreams

open Decimals Programs

/-- An input stream: what has not been read yet, and the state that formatted
input leaves behind. -/
structure InStream where
  rest : List Char
  failbit : Bool := false
  eofbit : Bool := false
  deriving DecidableEq

def InStream.good (s : InStream) : Bool := !s.failbit && !s.eofbit

def isSpace (c : Char) : Bool := c.toNat == 32 || (9 ≤ c.toNat && c.toNat ≤ 13)

def Blank (cs : List Char) : Prop := ∀ c ∈ cs, isSpace c = true

def Word (cs : List Char) : Prop := cs ≠ [] ∧ ∀ c ∈ cs, isSpace c = false

/-- The beginning of every formatted extraction. It skips blanks, and fails on
a stream that is not good or that ends there. -/
def sentry (s : InStream) : Bool × InStream :=
  if s.good then
    match s.rest.dropWhile isSpace with
    | [] => (false, ⟨[], true, true⟩)
    | c :: cs => (true, ⟨c :: cs, false, false⟩)
  else (false, { s with failbit := true })

/-- `in >> s` of a string. There is no value where the variable is left alone. -/
def extractString (s : InStream) : Option (List Char) × InStream :=
  match sentry s with
  | (false, t) => (none, t)
  | (true, t) =>
      let rest := t.rest.dropWhile fun c => !isSpace c
      (some (t.rest.takeWhile fun c => !isSpace c), ⟨rest, false, rest.isEmpty⟩)

def sign : List Char → Bool × List Char
  | '-' :: cs => (true, cs)
  | '+' :: cs => (false, cs)
  | cs => (false, cs)

/-- `in >> n` of an unsigned type of `w` bits. Without a digit the value is zero,
and the largest one when the digits are too large, and both fail; a minus
negates. There is no value where the variable is left alone. -/
def extractUnsigned (w : Nat) (s : InStream) : Option Nat × InStream :=
  match sentry s with
  | (false, t) => (none, t)
  | (true, t) =>
      let cs := (sign t.rest).2
      let digits := cs.takeWhile Char.isDigit
      let rest := cs.dropWhile Char.isDigit
      if digits = [] then (some 0, ⟨rest, true, rest.isEmpty⟩)
      else if 2 ^ w ≤ parse digits then (some (2 ^ w - 1), ⟨rest, true, rest.isEmpty⟩)
      else (some (if (sign t.rest).1 then (2 ^ w - parse digits) % 2 ^ w else parse digits),
        ⟨rest, false, rest.isEmpty⟩)

def insertUnsigned (n : Nat) : List Char := Nat.toDigits 10 n

section Extraction

variable {blanks rest cs : List Char} {c : Char} {s t : InStream}

theorem isSpace_digit (h : c.isDigit = true) : isSpace c = false := by
  obtain ⟨hlo, hhi⟩ := Char.isDigit_iff_toNat.mp h
  have hlo' : 48 ≤ c.toNat := hlo
  simp only [isSpace, Bool.or_eq_false_iff, beq_eq_false_iff_ne, Bool.and_eq_false_iff,
    decide_eq_false_iff_not]
  omega

theorem blank_nil : Blank [] := fun _ hc => absurd hc List.not_mem_nil

theorem blank_space : Blank [' '] := fun c hc => by
  rw [List.mem_singleton.mp hc]
  rfl

/-- The stream is good, and what is next in it is `rest`, but for blanks. -/
def Reached (s : InStream) (rest : List Char) : Prop :=
  ∃ blanks, Blank blanks ∧ s = { rest := blanks ++ rest }

theorem reached_start (rest : List Char) : Reached { rest := rest } rest := ⟨[], blank_nil, rfl⟩

theorem reached_space (rest : List Char) : Reached { rest := ' ' :: rest } rest :=
  ⟨[' '], blank_space, rfl⟩

theorem Reached.good (h : Reached s rest) : s.good = true := by
  obtain ⟨blanks, -, rfl⟩ := h
  rfl

theorem Reached.sentry (h : Reached s rest) : sentry s = sentry { rest := rest } := by
  obtain ⟨blanks, hb, rfl⟩ := h
  have hskip : (blanks ++ rest).dropWhile isSpace = rest.dropWhile isSpace :=
    List.dropWhile_append_of_pos hb
  simp only [TextStreams.sentry, hskip]
  rfl

theorem sentry_ok (hs : Reached s (c :: rest)) (hc : isSpace c = false) :
    sentry s = (true, { rest := c :: rest }) := by
  have hskip : (c :: rest).dropWhile isSpace = c :: rest :=
    List.dropWhile_cons_of_neg (by simp [hc])
  rw [hs.sentry]
  simp only [sentry, InStream.good, hskip]
  rfl

theorem sentry_fails (h : sentry s = (false, t)) : t.failbit = true := by
  rw [sentry] at h
  split_ifs at h
  · split at h <;> cases h
    rfl
  · cases h
    rfl

theorem sentry_first (h : sentry s = (true, t)) : ∃ c cs, t = { rest := c :: cs } ∧ isSpace c = false := by
  rw [sentry] at h
  split_ifs at h
  · split at h <;> cases h
    rename_i c cs heq
    have hhead := List.head?_dropWhile_not isSpace s.rest
    rw [heq] at hhead
    exact ⟨c, cs, rfl, hhead⟩
  · cases h

theorem sentry_failbit (h : s.failbit = true) : sentry s = (false, s) := by
  have hgood : s.good = false := by rw [InStream.good, h]; rfl
  obtain ⟨rest, failbit, eofbit⟩ := s
  cases h
  rw [sentry, if_neg (by simp [hgood])]

theorem extractString_fails (h : extractString s = (none, t)) : t.failbit = true := by
  rw [extractString] at h
  split at h
  · rename_i u hu
    cases h
    exact sentry_fails hu
  · cases h

theorem extractUnsigned_failbit (w : Nat) (h : s.failbit = true) :
    extractUnsigned w s = (none, s) := by
  rw [extractUnsigned, sentry_failbit h]

theorem extractString_word {w : List Char} (h : extractString s = (some w, t)) : Word w := by
  rw [extractString] at h
  split at h
  · cases h
  · rename_i u hu
    obtain ⟨c, cs, rfl, hc⟩ := sentry_first hu
    cases h
    constructor
    · simp [hc]
    · intro d hd
      simpa using List.all_eq_true.mp List.all_takeWhile d hd

theorem extractString_ok {w : List Char} (hs : Reached s (w ++ ' ' :: rest)) (hw : Word w) :
    extractString s = (some w, { rest := ' ' :: rest }) := by
  obtain ⟨hne, hword⟩ := hw
  obtain ⟨c, cs, rfl⟩ := List.exists_cons_of_ne_nil hne
  have hgraph (d : Char) (hd : d ∈ c :: cs) : (!isSpace d) = true := by rw [hword d hd]; rfl
  have htake : (c :: cs ++ ' ' :: rest).takeWhile (fun d => !isSpace d) = c :: cs := by
    rw [List.takeWhile_append_of_pos hgraph, List.takeWhile_cons_of_neg (by decide), List.append_nil]
  have hdrop : (c :: cs ++ ' ' :: rest).dropWhile (fun d => !isSpace d) = ' ' :: rest := by
    rw [List.dropWhile_append_of_pos hgraph, List.dropWhile_cons_of_neg (by decide)]
  rw [List.cons_append] at hs htake hdrop
  rw [extractString, sentry_ok hs (hword c List.mem_cons_self)]
  simp only [htake, hdrop]
  rfl

theorem sign_digit {c : Char} (h : c.isDigit = true) (cs : List Char) :
    sign (c :: cs) = (false, c :: cs) := by
  rw [sign.eq_def]
  split
  · rename_i heq
    cases heq
    cases h
  · rename_i heq
    cases heq
    cases h
  · rfl

theorem extractUnsigned_digits (w : Nat) {digits : List Char} (hs : Reached s (digits ++ rest))
    (hne : digits ≠ []) (hdigits : ∀ c ∈ digits, c.isDigit = true) (hrest : Ends rest) :
    extractUnsigned w s =
      if 2 ^ w ≤ parse digits then (some (2 ^ w - 1), ⟨rest, true, rest.isEmpty⟩)
      else (some (parse digits), ⟨rest, false, rest.isEmpty⟩) := by
  obtain ⟨htake, hdrop⟩ := span_digits hdigits hrest
  obtain ⟨c, cs, rfl⟩ := List.exists_cons_of_ne_nil hne
  have hc := hdigits c List.mem_cons_self
  rw [List.cons_append] at hs htake hdrop
  rw [extractUnsigned, sentry_ok hs (isSpace_digit hc)]
  simp only [sign_digit hc]
  rw [htake, hdrop, if_neg hne]
  rfl

theorem isDigit_insertUnsigned (n : Nat) : ∀ c ∈ insertUnsigned n, c.isDigit = true :=
  fun _ hc => Nat.isDigit_of_mem_toDigits (by decide) (by decide) hc

theorem insertUnsigned_ne_nil (n : Nat) : insertUnsigned n ≠ [] := Nat.toDigits_ne_nil

theorem parse_insertUnsigned (n : Nat) : parse (insertUnsigned n) = n := parse_toDigits n

theorem extractUnsigned_insert {w n : Nat} (hs : Reached s (insertUnsigned n ++ rest))
    (hn : n < 2 ^ w) (hrest : Ends rest) :
    extractUnsigned w s = (some n, ⟨rest, false, rest.isEmpty⟩) := by
  rw [extractUnsigned_digits w hs (insertUnsigned_ne_nil n) (isDigit_insertUnsigned n) hrest,
    parse_insertUnsigned, if_neg (Nat.not_le.mpr hn)]

theorem parse_joined_ne {u v : Nat} (h : u ≠ 0 ∨ v ≠ 0) (digits : List Char) :
    parse (insertUnsigned u ++ (insertUnsigned v ++ digits)) ≠ u := by
  have hlen : 1 ≤ (insertUnsigned v ++ digits).length := by
    have hpos := List.length_pos_of_ne_nil (insertUnsigned_ne_nil v)
    rw [List.length_append]
    omega
  rw [parse_append, parse_insertUnsigned]
  intro heq
  obtain rfl | hu := Nat.eq_zero_or_pos u
  · rw [Nat.zero_mul, Nat.zero_add, parse_append, parse_insertUnsigned] at heq
    have hv : v * 10 ^ digits.length = 0 := by omega
    obtain hv | hpow := Nat.mul_eq_zero.mp hv
    · omega
    · exact absurd hpow (Nat.pow_pos (by decide)).ne'
  · have hpow : 10 ^ 1 ≤ 10 ^ (insertUnsigned v ++ digits).length :=
      Nat.pow_le_pow_right (by decide) hlen
    have hmul := Nat.mul_le_mul_left u hpow
    omega

theorem extractUnsigned_joined (w : Nat) {u v : Nat}
    (hs : Reached s (insertUnsigned u ++ (insertUnsigned v ++ rest))) (h : u ≠ 0 ∨ v ≠ 0) :
    ∃ x t, extractUnsigned w s = (some x, t) ∧ (x = u → t.failbit = true) := by
  obtain ⟨digits, rest', hsplit, hdigits, hrest⟩ : ∃ digits rest', rest = digits ++ rest' ∧
      (∀ c ∈ digits, c.isDigit = true) ∧ Ends rest' :=
    ⟨_, _, List.takeWhile_append_dropWhile.symm, List.all_eq_true.mp List.all_takeWhile,
      ends_dropWhile rest⟩
  have hall : ∀ c ∈ insertUnsigned u ++ (insertUnsigned v ++ digits), c.isDigit = true :=
    List.forall_mem_append.mpr ⟨isDigit_insertUnsigned u,
      List.forall_mem_append.mpr ⟨isDigit_insertUnsigned v, hdigits⟩⟩
  rw [hsplit, ← List.append_assoc, ← List.append_assoc, List.append_assoc (insertUnsigned u)] at hs
  rw [extractUnsigned_digits w hs (List.append_ne_nil_of_left_ne_nil (insertUnsigned_ne_nil u) _)
    hall hrest]
  split
  · exact ⟨_, _, rfl, fun _ => rfl⟩
  · exact ⟨_, _, rfl, fun hx => absurd hx (parse_joined_ne h digits)⟩

end Extraction

section Sequences

variable {ε α β : Type} {read : Program ε InStream α} {text text' rest : List Char} {a : α} {b : β}
  {s : InStream}

/-- Reading the text gives `a`, and stops at the blank that closes it. -/
def ReadsBack (read : Program ε InStream α) (text : List Char) (a : α) : Prop :=
  ∀ s rest, Reached s (text ++ rest) → read s = .ok a { rest := ' ' :: rest }

theorem ReadsBack.bind {f : α → Program ε InStream β} (h : ReadsBack read text a)
    (hf : ReadsBack (f a) text' b) : ReadsBack (read >>= f) (text ++ text') b := by
  intro s rest hs
  rw [List.append_assoc] at hs
  rw [bind_ok (h s (text' ++ rest) hs)]
  exact hf _ rest (reached_space _)

theorem ReadsBack.map (h : ReadsBack read text a) (f : α → β) :
    ReadsBack (do return f (← read)) text (f a) := by
  intro s rest hs
  exact bind_ok (h s rest hs) _

def closing : List α → List Char
  | [] => []
  | _ :: _ => [' ']

theorem reached_closing (as : List α) (rest : List Char) :
    Reached { rest := closing as ++ rest } rest := by
  cases as with
  | nil => exact reached_start rest
  | cons a as => exact reached_space rest

theorem ReadsBack.mapM_space {read : β → Program ε InStream α} {text : α → List Char} {as : List α}
    {bs : List β} (h : List.Forall₂ (fun b a => ReadsBack (read b) (text a) a) bs as)
    (rest : List Char) : bs.mapM read { rest := ' ' :: (as.flatMap text ++ rest) } =
      .ok as { rest := ' ' :: rest } := by
  induction h with
  | nil => rfl
  | @cons b a bs as hba _ ih =>
      have hread := hba { rest := ' ' :: ((a :: as).flatMap text ++ rest) } (as.flatMap text ++ rest)
        (by rw [List.flatMap_cons, List.append_assoc]; exact reached_space _)
      rw [List.mapM_cons, bind_ok hread]
      exact bind_ok ih _

theorem ReadsBack.mapM {read : β → Program ε InStream α} {text : α → List Char} {as : List α}
    {bs : List β} (h : List.Forall₂ (fun b a => ReadsBack (read b) (text a) a) bs as)
    (rest : List Char) : bs.mapM read { rest := as.flatMap text ++ rest } =
      .ok as { rest := closing as ++ rest } := by
  cases h with
  | nil => rfl
  | @cons b a bs as hba hrest =>
      have hread := hba { rest := (a :: as).flatMap text ++ rest } (as.flatMap text ++ rest)
        (by rw [List.flatMap_cons, List.append_assoc]; exact reached_start _)
      rw [List.mapM_cons, bind_ok hread]
      exact bind_ok (ReadsBack.mapM_space hrest rest) _

end Sequences

end Lzhlib.TextStreams
