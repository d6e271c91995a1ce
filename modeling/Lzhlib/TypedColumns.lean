import Lzhlib.IntegerLiterals
import Lzhlib.QuotedStrings
import Lzhlib.ReaderRuns

namespace Lzhlib.TypedColumns

open Programs Decimals IntegerLiterals QuotedStrings DynamicReader ReaderRuns Runs
open PredefinedReaders hiding Exc

abbrev View := StringView Char

abbrev Columns := TypeList View PredefinedReaders.Exc

inductive ObjectType
  | arithmetic (T : IntType)
  | string

def ObjectType.type : ObjectType → ReadType View PredefinedReaders.Exc
  | arithmetic T => ⟨T.Value, readArithmetic T⟩
  | string => ⟨List Char, readString charQuotes⟩

def typeList (objects : List ObjectType) : Columns := objects.map ObjectType.type

theorem typeList_forall {P : ReadType View PredefinedReaders.Exc → Prop}
    (h : ∀ t : ObjectType, P t.type) (objects : List ObjectType)
    (index : Fin (typeList objects).length) : P ((typeList objects).get index) := by
  obtain ⟨t, -, ht⟩ := List.mem_map.mp (List.get_mem (typeList objects) index)
  exact ht ▸ h t

section Texts

/-- The text starts with a spelling of the value. -/
inductive Spells : (r : ReadType View PredefinedReaders.Exc) → List Char → r.Object → Prop
  | literal {T : IntType} {l : Literal} {text : List Char} (h : Reads T l text)
      (hfits : T.Fits l.value) :
      Spells (ObjectType.arithmetic T).type text (⟨l.value, hfits⟩ : T.Value)
  | quoted {c : Char} {s after : List Char} (hquote : IsQuote charQuotes c) (hafter : c ∉ after) :
      Spells ObjectType.string.type (c :: (s ++ c :: after)) s

/-- The text spells no value, and there is as much of it as the reader looks at. -/
inductive Misspells : ReadType View PredefinedReaders.Exc → View → Prop
  | noLiteral {T : IntType} {str : View} (h : ¬∃ l, Reads T l str.text)
      (hnul : nul ∈ str.text ++ str.beyond) : Misspells (ObjectType.arithmetic T).type str
  | unquoted {c : Char} {rest beyond : List Char} (h : ¬IsQuote charQuotes c) :
      Misspells ObjectType.string.type ⟨c :: rest, beyond⟩
  | opened {c : Char} {rest beyond : List Char} (hquote : IsQuote charQuotes c) (hrest : c ∉ rest) :
      Misspells ObjectType.string.type ⟨c :: rest, beyond⟩

/-- The literal is one that the type has no value for. -/
inductive Overflows : (r : ReadType View PredefinedReaders.Exc) → List Char → r.Object → Prop
  | literal {T : IntType} {l : Literal} {text : List Char} (h : Reads T l text)
      (hfits : ¬T.Fits l.value) : Overflows (ObjectType.arithmetic T).type text T.zero

variable {r : ReadType View PredefinedReaders.Exc} {str : View} {t : ObjectType}

theorem reader_spells {value : r.Object} (h : Spells r str.text value) :
    r.reader str = .ok value := by
  obtain ⟨text, beyond⟩ := str
  cases h with
  | @literal T l _ h hfits =>
      have hreads : Reads T l (⟨text, beyond⟩ : View).text := h
      exact readArithmetic_fits hreads hfits
  | quoted hquote hafter => exact readString_closed hquote hafter

theorem reader_misspells (h : Misspells r str) :
    ∃ what, r.reader str = .error (.logicError what) := by
  cases h with
  | noLiteral h hnul => exact (throws_invalid_iff h).mpr hnul
  | unquoted h => exact ⟨_, readString_unquoted h⟩
  | opened hquote hrest => exact ⟨_, readString_opened hquote hrest⟩

theorem readArithmetic_spells {T : IntType} {value : T.Value} (h : readArithmetic T str = .ok value) :
    Spells (ObjectType.arithmetic T).type str.text value ∨
      Overflows (ObjectType.arithmetic T).type str.text value := by
  by_cases hread : ∃ l, Reads T l str.text
  · obtain ⟨l, hl⟩ := hread
    by_cases hfits : T.Fits l.value
    · rw [readArithmetic_fits hl hfits] at h
      cases h
      exact Or.inl (.literal hl hfits)
    · rw [readArithmetic_outOfRange hl hfits] at h
      cases h
      exact Or.inr (.literal hl hfits)
  · rw [readArithmetic_invalid hread] at h
    cases hgot : cString str with
    | ok got =>
        rw [hgot] at h
        cases h
    | error e =>
        rw [hgot] at h
        cases h

theorem readString_spells {s : List Char} (h : readString charQuotes str = .ok s) :
    Spells ObjectType.string.type str.text s := by
  obtain ⟨text, beyond⟩ := str
  cases text with
  | nil => cases h
  | cons c rest =>
      by_cases hquote : IsQuote charQuotes c
      · by_cases hrest : c ∈ rest
        · obtain ⟨s', after, rfl, hafter⟩ := exists_last hrest
          rw [readString_closed hquote hafter] at h
          cases h
          exact .quoted hquote hafter
        · rw [readString_opened hquote hrest] at h
          cases h
      · rw [readString_unquoted hquote] at h
        cases h

theorem spells_of_reader {value : t.type.Object} (h : t.type.reader str = .ok value) :
    Spells t.type str.text value ∨ Overflows t.type str.text value := by
  cases t with
  | arithmetic T => exact readArithmetic_spells h
  | string => exact Or.inl (readString_spells h)

theorem signed_of_fits {T : IntType} {v : Int} (hfits : T.Fits v) (hneg : v < 0) :
    T.signed = true := by
  by_contra hsigned
  have hmin : T.min = 0 := if_neg hsigned
  have hle : T.min ≤ v := hfits.1
  omega

theorem exists_literal {T : IntType} {v : Int} (hfits : T.Fits v) :
    ∃ l : Literal, Reads T l l.chars ∧ l.value = v := by
  have hdigit (c : Char) (hc : c ∈ Nat.toDigits 10 v.natAbs) : c.isDigit = true :=
    Nat.isDigit_of_mem_toDigits (by decide) (by decide) hc
  obtain ⟨ds, hds⟩ := exists_chars hdigit
  have hne : ds ≠ [] := by
    rintro rfl
    exact Nat.toDigits_ne_nil hds.symm
  have hvalue : Decimals.value ds = v.natAbs := by rw [← parse_chars, hds, parse_toDigits]
  refine ⟨⟨decide (v < 0), ds, hne⟩, ⟨fun hneg => signed_of_fits hfits (of_decide_eq_true hneg),
    [], (List.append_nil _).symm, fun c hc => by cases hc⟩, ?_⟩
  by_cases hneg : v < 0
  · simp only [Literal.value, hneg, decide_true, if_true, hvalue]
    omega
  · simp only [Literal.value, hneg, decide_false, hvalue]
    exact Int.natAbs_of_nonneg (Int.not_lt.mp hneg)

theorem exists_spells (value : t.type.Object) : ∃ text, Spells t.type text value := by
  cases t with
  | arithmetic T =>
      obtain ⟨v, hfits⟩ := value
      obtain ⟨l, hl, rfl⟩ := exists_literal hfits
      exact ⟨l.chars, .literal hl hfits⟩
  | string => exact ⟨quote charQuotes .apostrophe value, .quoted (Or.inl rfl) List.not_mem_nil⟩

end Texts

section Reads

variable {ts : Columns}

/-- A read that is due: of a text that spells a value out, or one to be refused. -/
inductive Entry (ts : Columns)
  | spelled (index : Fin ts.length) (value : Elem ts index) (str : View)
      (h : Spells (ts.get index) str.text value)
  | misspelled (index : Fin ts.length) (str : View) (h : Misspells (ts.get index) str)
  | outOfRange (index : Nat) (str : View) (h : ts.length ≤ index)

def Entry.call : Entry ts → Call View
  | spelled index _ str _ => ⟨index, str⟩
  | misspelled index str _ => ⟨index, str⟩
  | outOfRange index str _ => ⟨index, str⟩

def Entry.Ends : Entry ts → Except (DynamicReader.Exc PredefinedReaders.Exc) Unit → Prop
  | spelled .., result => result = .ok ()
  | misspelled .., result => ∃ what, result = .error (.rejected (.logicError what))
  | outOfRange .., result => result = .error .outOfRange

def Entry.value? (column : Fin ts.length) : Entry ts → Option (Elem ts column)
  | spelled index value _ _ => if h : index = column then some (h ▸ value) else none
  | misspelled .. | outOfRange .. => none

theorem run_entries (es : List (Entry ts)) (vars : Values ts) :
    List.Forall₂ Entry.Ends es (run assign (es.map Entry.call) vars).1 ∧
      ∀ column, produced column (es.map Entry.call) (run assign (es.map Entry.call) vars).1 =
        es.filterMap (Entry.value? column) := by
  induction es generalizing vars with
  | nil => exact ⟨.nil, fun _ => rfl⟩
  | cons e es ih =>
      cases e with
      | spelled index value str h =>
          have hread := reader_spells h
          obtain ⟨hends, hvalues⟩ := ih (Function.update vars index (some value))
          rw [List.map_cons, run, Entry.call, assign_accepts hread]
          refine ⟨.cons rfl hends, fun column => ?_⟩
          by_cases hcolumn : index = column
          · subst hcolumn
            rw [produced_accepted hread, hvalues,
              List.filterMap_cons_some (b := value) (dif_pos rfl)]
          · rw [produced_other (Fin.val_ne_of_ne hcolumn), hvalues,
              List.filterMap_cons_none (dif_neg hcolumn)]
      | misspelled index str h =>
          obtain ⟨what, hread⟩ := reader_misspells h
          obtain ⟨hends, hvalues⟩ := ih vars
          rw [List.map_cons, run, Entry.call, assign_rejects hread]
          refine ⟨.cons ⟨what, rfl⟩ hends, fun column => ?_⟩
          rw [produced_rejected, hvalues, List.filterMap_cons_none rfl]
      | outOfRange index str h =>
          obtain ⟨hends, hvalues⟩ := ih vars
          rw [List.map_cons, run, Entry.call, assign_outOfRange h]
          refine ⟨.cons rfl hends, fun column => ?_⟩
          rw [produced_rejected, hvalues, List.filterMap_cons_none rfl]

end Reads

/-- Any values can be written down for the columns and are read back, whatever
else is read meanwhile, and only what is written so is read. -/
structure ReadsBack (ts : Columns) (self : Nat) (s : Store ts) (es : List (Entry ts)) : Prop where
  writable : ∀ index (value : Elem ts index), ∃ text, Spells (ts.get index) text value
  wellFormed : ∀ index str value, (ts.get index).reader str = .ok value →
    Spells (ts.get index) str.text value ∨ Overflows (ts.get index) str.text value
  ends : List.Forall₂ Entry.Ends es (run (step self) (es.map Entry.call) (construct self s)).1
  held : ∀ column, outcome (get self column) (run (step self) (es.map Entry.call)
      (construct self s)).2 =
    (.ok (es.filterMap (Entry.value? column)).getLast?,
      (run (step self) (es.map Entry.call) (construct self s)).2)

theorem columns_readBack (objects : List ObjectType) (self : Nat) (s : Store (typeList objects))
    (es : List (Entry (typeList objects))) : ReadsBack (typeList objects) self s es := by
  obtain ⟨hresults, hstore⟩ := run_place self s (fun _ => none) (es.map Entry.call)
  have hstart : construct self s = place self s fun _ => none := rfl
  obtain ⟨hends, hvalues⟩ := run_entries es fun _ => none
  refine ⟨fun index value => ?_, fun index str value => ?_, ?_, ?_⟩
  · exact typeList_forall (P := fun r => ∀ value : r.Object, ∃ text, Spells r text value)
      (fun _ => exists_spells) objects index value
  · exact typeList_forall (P := fun r => ∀ value : r.Object, r.reader str = .ok value →
        Spells r str.text value ∨ Overflows r str.text value)
      (fun _ _ => spells_of_reader) objects index value
  · rw [hstart, hresults]
    exact hends
  · intro column
    have hheld := run_assign (es.map Entry.call) (fun _ => none) column
    rw [Option.or_none, hvalues] at hheld
    rw [hstart, hstore, ← hheld]
    exact outcome_ok (get_ok (place_self self s _))

end Lzhlib.TypedColumns
