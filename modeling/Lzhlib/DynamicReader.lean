import Lzhlib.Programs

namespace Lzhlib.DynamicReader

open Programs

variable {Str ε : Type}

/-- `type<ObjectType, Reader>`. A reader gives an object or throws, and the
string alone decides which. -/
structure ReadType (Str ε : Type) where
  Object : Type
  reader : Str → Except ε Object

abbrev TypeList (Str ε : Type) := List (ReadType Str ε)

abbrev Elem (ts : TypeList Str ε) (index : Fin ts.length) : Type := (ts.get index).Object

inductive Exc (ε : Type)
  | undefined
  | outOfRange
  | rejected (e : ε)
  deriving DecidableEq

def Exc.what : Exc ε → Option String
  | .outOfRange => some ("argument 'index' in function 'read' of class " ++
      "'lzhlib::reader::dynamic_reader' is out of range.")
  | .undefined | .rejected _ => none

structure LiteralReader (ts : TypeList Str ε) where
  readers : (index : Fin ts.length) → Str → Except ε (Elem ts index)

def createReaders (ts : TypeList Str ε) : LiteralReader ts := ⟨fun index => (ts.get index).reader⟩

def LiteralReader.read {ts : TypeList Str ε} (r : LiteralReader ts) (index : Fin ts.length)
    (str : Str) : Except ε (Elem ts index) :=
  r.readers index str

/-- The function object `assignment<Index>` and the address of the reader it refers to. -/
structure Assignment (ts : TypeList Str ε) where
  index : Fin ts.length
  reader : Nat

structure Reader (ts : TypeList Str ε) where
  variableTuple : (index : Fin ts.length) → Option (Elem ts index)
  reader : LiteralReader ts
  assignments : List (Assignment ts)

abbrev Store (ts : TypeList Str ε) := Nat → Option (Reader ts)

variable {ts : TypeList Str ε} {α : Type}

abbrev Prog (ts : TypeList Str ε) (α : Type) := Program (Exc ε) (Store ts) α

def createAssignments (ts : TypeList Str ε) (self : Nat) : List (Assignment ts) :=
  (List.finRange ts.length).map fun index => ⟨index, self⟩

def construct (self : Nat) (s : Store ts) : Store ts :=
  Function.update s self (some ⟨fun _ => none, createReaders ts, createAssignments ts self⟩)

def object (self : Nat) : Prog ts (Reader ts) := do
  let s ← MonadState.get
  match s self with
  | some d => pure d
  | none => throw .undefined

def setVariable (self : Nat) (index : Fin ts.length) (value : Option (Elem ts index)) :
    Prog ts PUnit := do
  let d ← object self
  modify fun s => Function.update s self
    (some { d with variableTuple := Function.update d.variableTuple index value })

/-- `std::optional::emplace`: the old value goes before the new one comes. -/
def emplace (self : Nat) (index : Fin ts.length) (value : Elem ts index) : Prog ts PUnit := do
  setVariable self index none
  setVariable self index (some value)

def Assignment.call (f : Assignment ts) (str : Str) : Prog ts PUnit := do
  let d ← object f.reader
  match d.reader.read f.index str with
  | .ok value => emplace f.reader f.index value
  | .error e => throw (.rejected e)

def read (self index : Nat) (str : Str) : Prog ts PUnit := do
  let d ← object self
  match d.assignments[index]? with
  | some f => f.call str
  | none => throw .outOfRange

def get (self : Nat) (index : Fin ts.length) : Prog ts (Option (Elem ts index)) := do
  return (← object self).variableTuple index

section Calls

variable {s : Store ts} {self : Nat} {d : Reader ts} {index : Fin ts.length}

theorem object_ok (h : s self = some d) : object self s = .ok d s := by
  rw [object, get_bind_apply, h]
  rfl

theorem get_ok (h : s self = some d) : get self index s = .ok (d.variableTuple index) s := by
  rw [get, bind_ok (object_ok h)]
  rfl

theorem setVariable_ok (h : s self = some d) (value : Option (Elem ts index)) :
    setVariable self index value s = .ok ⟨⟩ (Function.update s self
      (some { d with variableTuple := Function.update d.variableTuple index value })) := by
  rw [setVariable, bind_ok (object_ok h)]
  rfl

theorem emplace_ok (h : s self = some d) (value : Elem ts index) :
    emplace self index value s = .ok ⟨⟩ (Function.update s self
      (some { d with variableTuple := Function.update d.variableTuple index (some value) })) := by
  rw [emplace, bind_ok (setVariable_ok h none), setVariable_ok (Function.update_self _ _ _)]
  simp only [Function.update_idem]

theorem createAssignments_get (ts : TypeList Str ε) (self : Nat) (index : Fin ts.length) :
    (createAssignments ts self)[index.val]? = some ⟨index, self⟩ := by
  simp [createAssignments]

theorem createAssignments_none {index : Nat} (h : ts.length ≤ index) :
    (createAssignments ts self)[index]? = none := by
  simp [createAssignments, h]

end Calls

end Lzhlib.DynamicReader
