import Lzhlib.DynamicReader
import Lzhlib.Runs

namespace Lzhlib.ReaderRuns

open Programs DynamicReader Runs

variable {Str ε : Type} {ts : TypeList Str ε}

structure Call (Str : Type) where
  index : Nat
  str : Str

def step (self : Nat) (c : Call Str) (s : Store ts) : Except (Exc ε) Unit × Store ts :=
  outcome (DynamicReader.read self c.index c.str) s

abbrev Values (ts : TypeList Str ε) := (index : Fin ts.length) → Option (Elem ts index)

/-- The store with a reader at `self` whose variables are `vars` and whose
function objects refer to itself. -/
def place (self : Nat) (s : Store ts) (vars : Values ts) : Store ts :=
  Function.update s self (some ⟨vars, createReaders ts, createAssignments ts self⟩)

def assign (c : Call Str) (vars : Values ts) : Except (Exc ε) Unit × Values ts :=
  if h : c.index < ts.length then
    match (ts.get ⟨c.index, h⟩).reader c.str with
    | .ok value => (.ok (), Function.update vars ⟨c.index, h⟩ (some value))
    | .error e => (.error (.rejected e), vars)
  else (.error .outOfRange, vars)

section Assign

variable {vars : Values ts} {index : Fin ts.length} {str : Str}

theorem assign_accepts {value : Elem ts index} (h : (ts.get index).reader str = .ok value) :
    assign ⟨index, str⟩ vars = (.ok (), Function.update vars index (some value)) := by
  rw [assign, dif_pos index.isLt]
  simp only [h]

theorem assign_rejects {e : ε} (h : (ts.get index).reader str = .error e) :
    assign ⟨index, str⟩ vars = (.error (.rejected e), vars) := by
  rw [assign, dif_pos index.isLt]
  simp only [h]

theorem assign_outOfRange {index : Nat} (h : ts.length ≤ index) :
    assign ⟨index, str⟩ vars = (.error .outOfRange, vars) :=
  dif_neg (Nat.not_lt.mpr h)

end Assign

theorem Call.cases {P : Call Str → Prop} (ts : TypeList Str ε)
    (outOfRange : ∀ index str, ts.length ≤ index → P ⟨index, str⟩)
    (accepts : ∀ (index : Fin ts.length) str value, (ts.get index).reader str = .ok value →
      P ⟨index, str⟩)
    (rejects : ∀ (index : Fin ts.length) str e, (ts.get index).reader str = .error e →
      P ⟨index, str⟩) (c : Call Str) : P c := by
  by_cases hindex : c.index < ts.length
  · cases hr : (ts.get ⟨c.index, hindex⟩).reader c.str with
    | ok value => exact accepts ⟨c.index, hindex⟩ c.str value hr
    | error e => exact rejects ⟨c.index, hindex⟩ c.str e hr
  · exact outOfRange c.index c.str (Nat.le_of_not_lt hindex)

section Reads

variable {self : Nat} {s : Store ts} {vars : Values ts} {index : Fin ts.length} {str : Str}

theorem place_self (self : Nat) (s : Store ts) (vars : Values ts) :
    place self s vars self = some ⟨vars, createReaders ts, createAssignments ts self⟩ :=
  Function.update_self _ _ _

theorem object_place :
    object self (place self s vars) =
      .ok ⟨vars, createReaders ts, createAssignments ts self⟩ (place self s vars) :=
  object_ok (place_self self s vars)

theorem read_dispatches :
    DynamicReader.read self index str (place self s vars) =
      Assignment.call ⟨index, self⟩ str (place self s vars) := by
  rw [DynamicReader.read, bind_ok object_place, createAssignments_get]

theorem read_accepts {value : Elem ts index} (h : (ts.get index).reader str = .ok value) :
    DynamicReader.read self index str (place self s vars) =
      .ok ⟨⟩ (place self s (Function.update vars index (some value))) := by
  have hread : (createReaders ts).read index str = .ok value := h
  have hemplace : emplace self index value (place self s vars) =
      .ok ⟨⟩ (place self s (Function.update vars index (some value))) := by
    apply (emplace_ok (place_self self s vars) value).trans
    rw [place, Function.update_idem]
    rfl
  rw [read_dispatches]
  apply (bind_ok object_place _).trans
  rw [hread]
  exact hemplace

theorem read_rejects {e : ε} (h : (ts.get index).reader str = .error e) :
    DynamicReader.read self index str (place self s vars) =
      .error (.rejected e) (place self s vars) := by
  have hread : (createReaders ts).read index str = .error e := h
  rw [read_dispatches]
  apply (bind_ok object_place _).trans
  rw [hread]
  rfl

theorem read_outOfRange {index : Nat} (h : ts.length ≤ index) :
    DynamicReader.read self index str (place self s vars) =
      .error .outOfRange (place self s vars) := by
  rw [DynamicReader.read, bind_ok object_place, createAssignments_none h]
  rfl

theorem step_place (self : Nat) (s : Store ts) (vars : Values ts) (c : Call Str) :
    step self c (place self s vars) =
      ((assign c vars).1, place self s (assign c vars).2) := by
  rw [step]
  induction c using Call.cases ts with
  | outOfRange index str h => rw [assign_outOfRange h, outcome_error (read_outOfRange h)]
  | accepts index str value h => rw [assign_accepts h, outcome_ok (read_accepts h)]
  | rejects index str e h => rw [assign_rejects h, outcome_error (read_rejects h)]

end Reads

theorem run_place (self : Nat) (s : Store ts) (vars : Values ts) (cs : List (Call Str)) :
    (run (step self) cs (place self s vars)).1 = (run assign cs vars).1 ∧
      (run (step self) cs (place self s vars)).2 = place self s (run assign cs vars).2 := by
  apply run_simulation (fun _ _ => True) (fun t vars => t = place self s vars) ?_ cs _ vars rfl
    (along_true _ cs vars)
  rintro c _ vars rfl -
  rw [step_place]
  exact ⟨rfl, rfl⟩

def produced (index : Fin ts.length) (cs : List (Call Str)) (rs : List (Except (Exc ε) Unit)) :
    List (Elem ts index) :=
  (cs.zip rs).filterMap fun p =>
    if p.1.index = index.val ∧ p.2.isOk then ((ts.get index).reader p.1.str).toOption else none

section Produced

variable {index : Fin ts.length} {cs : List (Call Str)} {rs : List (Except (Exc ε) Unit)} {str : Str}

theorem produced_other {k : Nat} (h : k ≠ index.val) (r : Except (Exc ε) Unit) :
    produced index (⟨k, str⟩ :: cs) (r :: rs) = produced index cs rs := by
  simp [produced, h]

theorem produced_rejected (c : Call Str) (e : Exc ε) :
    produced index (c :: cs) (.error e :: rs) = produced index cs rs := by
  simp [produced, Except.isOk, Except.toBool]

theorem produced_accepted {value : Elem ts index} (h : (ts.get index).reader str = .ok value) :
    produced index (⟨index, str⟩ :: cs) (.ok () :: rs) = value :: produced index cs rs := by
  simp only [produced, List.zip_cons_cons, List.filterMap_cons, Except.isOk, Except.toBool, and_self,
    if_true, h]
  rfl

end Produced

section Assignments

variable {vars : Values ts} {c : Call Str}

theorem assign_error {e : Exc ε} (h : (assign c vars).1 = .error e) : (assign c vars).2 = vars := by
  induction c using Call.cases ts with
  | outOfRange index str hi => rw [assign_outOfRange hi]
  | accepts index str value hr =>
      rw [assign_accepts hr] at h
      cases h
  | rejects index str e hr => rw [assign_rejects hr]

inductive Rejection (ts : TypeList Str ε) : Call Str → Exc ε → Prop
  | outOfRange {index : Nat} {str : Str} (h : ts.length ≤ index) : Rejection ts ⟨index, str⟩ .outOfRange
  | byReader {index : Fin ts.length} {str : Str} {e : ε} (h : (ts.get index).reader str = .error e) :
      Rejection ts ⟨index, str⟩ (.rejected e)

theorem assign_throws {e : Exc ε} : (assign c vars).1 = .error e ↔ Rejection ts c e := by
  constructor
  · intro h
    induction c using Call.cases ts with
    | outOfRange index str hi =>
        rw [assign_outOfRange hi] at h
        cases h
        exact .outOfRange hi
    | accepts index str value hr =>
        rw [assign_accepts hr] at h
        cases h
    | rejects index str e hr =>
        rw [assign_rejects hr] at h
        cases h
        exact .byReader hr
  · rintro (hi | hr)
    · rw [assign_outOfRange hi]
    · rw [assign_rejects hr]

theorem run_accepted (cs : List (Call Str)) (vars : Values ts) (index : Fin ts.length)
    {c : Call Str} (hc : (c, .ok ()) ∈ cs.zip (run assign cs vars).1) (hi : c.index = index.val) :
    ∃ value, (ts.get index).reader c.str = .ok value := by
  induction cs generalizing vars with
  | nil => cases hc
  | cons d cs ih =>
      obtain hc | hc := List.mem_cons.mp hc
      · obtain ⟨rfl, hok⟩ := Prod.mk.inj hc
        cases hr : (ts.get index).reader c.str with
        | ok value => exact ⟨value, rfl⟩
        | error e =>
            have hthrows : (assign c vars).1 = .error (.rejected e) :=
              assign_throws.mpr (by
                obtain ⟨k, str⟩ := c
                cases hi
                exact .byReader hr)
            cases hok.trans hthrows
      · exact ih _ hc

theorem run_assign (cs : List (Call Str)) (vars : Values ts) (index : Fin ts.length) :
    (run assign cs vars).2 index =
      (produced index cs (run assign cs vars).1).getLast?.or (vars index) := by
  induction cs generalizing vars with
  | nil => rfl
  | cons c cs ih =>
      rw [run, ih]
      induction c using Call.cases ts with
      | outOfRange k str h =>
          have hne : k ≠ index.val := by omega
          rw [assign_outOfRange h, produced_other hne]
      | accepts k str value h =>
          rw [assign_accepts h]
          dsimp only
          by_cases hk : k = index
          · subst hk
            rw [produced_accepted h, Function.update_self, List.getLast?_cons]
            cases (produced k cs _).getLast? <;> rfl
          · rw [produced_other (Fin.val_ne_of_ne hk), Function.update_of_ne (Ne.symm hk)]
      | rejects k str e h => rw [assign_rejects h, produced_rejected]

end Assignments

/-- What the reader at `self` holds after the calls `cs` with the results
`rs`, and how it meets the next call. -/
structure KeepsLast (self : Nat) (cs : List (Call Str)) (rs : List (Except (Exc ε) Unit))
    (s : Store ts) : Prop where
  held : ∀ index, outcome (DynamicReader.get self index) s = (.ok (produced index cs rs).getLast?, s)
  accepted : ∀ (index : Fin ts.length) c, (c, .ok ()) ∈ cs.zip rs → c.index = index.val →
    ∃ value, (ts.get index).reader c.str = .ok value
  throws : ∀ c e, (step self c s).1 = .error e ↔ Rejection ts c e
  unchanged : ∀ c e, (step self c s).1 = .error e → (step self c s).2 = s

/-- Every slot holds what its last read that returned produced, and a call
that throws leaves the reader as it was. -/
theorem runs_keep_last (self : Nat) (s : Store ts) (cs : List (Call Str)) :
    KeepsLast self cs (run (step self) cs (construct self s)).1
      (run (step self) cs (construct self s)).2 := by
  obtain ⟨hresults, hstore⟩ := run_place self s (fun _ => none) cs
  have hstart : construct self s = place self s fun _ => none := rfl
  rw [hstart, hresults, hstore]
  refine ⟨?_, fun index c => run_accepted cs _ index, ?_, ?_⟩
  · intro index
    have hheld := run_assign cs (fun _ => none) index
    rw [Option.or_none] at hheld
    rw [← hheld]
    exact outcome_ok (get_ok (place_self self s _))
  · intro c e
    rw [step_place]
    exact assign_throws
  · intro c e h
    rw [step_place] at h ⊢
    rw [assign_error h]

end Lzhlib.ReaderRuns
