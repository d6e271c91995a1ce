import Lzhlib.Machine
import Lzhlib.Rings

namespace Lzhlib.IndexedList

open Programs Machine Rings

variable {V : Type}

structure Node (V : Type) where
  value : V
  next : Nat := nullIndex
  prev : Nat := nullIndex

structure Storage (V : Type) where
  data : List (Node V)

def construct (size : Nat) (value : V) : Storage V := ⟨List.replicate size { value := value }⟩

/-- The constructor throws when the memory cannot be had; `fits` says which
sizes can be allocated. -/
def allocate (fits : Nat → Bool) (size : Nat) (value : V) : Except Exc (Storage V) :=
  if 0 < size ∧ fits size = false then .error .badAlloc else .ok (construct size value)

/-- A list is reached through a head variable that its caller owns and passes
by reference. -/
structure Handle (V : Type) where
  list : Storage V
  head : Nat

def listPart : Part (Handle V) (Storage V) := ⟨Handle.list, fun l h => { h with list := l }⟩

def Storage.size (s : Storage V) : Nat := s.data.length

/-- `data[index]`, which is not checked in the source. -/
def node (index : Nat) : Prog (Storage V) (Node V) := fun s =>
  match s.data[index]? with
  | some n => .ok n s
  | none => .error .undefined s

def modifyNode (index : Nat) (f : Node V → Node V) : Prog (Storage V) PUnit := do
  let _ ← node index
  modify fun s => ⟨s.data.modify index f⟩

def setNext (index x : Nat) : Prog (Storage V) PUnit := modifyNode index ({ · with next := x })

def setPrev (index x : Nat) : Prog (Storage V) PUnit := modifyNode index ({ · with prev := x })

def setBoth (index x : Nat) : Prog (Storage V) PUnit := do
  setPrev index x
  setNext index x

def setValue (index : Nat) (v : V) : Prog (Storage V) PUnit :=
  modifyNode index ({ · with value := v })

def subscript (index : Nat) : Prog (Storage V) V := do
  let n ← node index
  return n.value

/-- The checked accessor `at`. -/
def checkedAt (index : Nat) : Prog (Storage V) V := do
  let s ← get
  if s.size ≤ index then throw (.atOutOfRange index s.size) else subscript index

/-- `std::vector::resize` either succeeds or, when the memory cannot be had,
throws and leaves the vector alone. -/
def resize [Inhabited V] (fits : Nat → Bool) (newSize : Nat) : Prog (Storage V) PUnit := do
  let s ← get
  if s.size < newSize ∧ fits newSize = false then throw .badAlloc
  else set (⟨s.data.take newSize ++
    List.replicate (newSize - s.size) { value := default }⟩ : Storage V)

def formList (begin stop : Nat) : Prog (Storage V) Nat := do
  if stop ≤ begin ∨ begin = nullIndex ∨ (← get).size < stop then throw .formListArgument
  else
    setNext begin (sizeAdd begin 1)
    setPrev (sizeSub stop 1) (sizeSub stop 2)
    forRange (sizeAdd begin 1) (sizeSub stop 1) fun i => do
      setPrev i (sizeSub i 1)
      setNext i (sizeAdd i 1)
    setPrev begin (sizeSub stop 1)
    setNext (sizeSub stop 1) begin
    return begin

def insertImpl (next inserted : Nat) : Prog (Storage V) Nat := do
  let prev := (← node next).prev
  setNext inserted next
  setPrev inserted prev
  setPrev next inserted
  setNext prev inserted
  return inserted

def removeImpl (removed : Nat) : Prog (Storage V) PUnit := do
  let prev := (← node removed).prev
  let next := (← node removed).next
  setNext prev next
  setPrev next prev
  setBoth removed nullIndex

def pushImpl (index : Nat) : Prog (Handle V) Nat := do
  let head := (← get).head
  if head = nullIndex then
    zoom listPart (setBoth index index)
    modify ({ · with head := index })
    return index
  else
    let _ ← zoom listPart (insertImpl head index)
    modify ({ · with head := index })
    return index

def push (index : Nat) : Prog (Handle V) Nat := pushImpl index

def pop : Prog (Handle V) Nat := do
  let result := (← get).head
  let prev := (← zoom listPart (node result)).prev
  if prev = result then
    modify ({ · with head := nullIndex })
    zoom listPart (setBoth result nullIndex)
    return result
  else
    let n ← zoom listPart (node result)
    modify ({ · with head := n.next })
    zoom listPart (removeImpl result)
    return result

def insert (next inserted : Nat) : Prog (Handle V) Nat := do
  let head := (← get).head
  if next = head then pushImpl inserted
  else if next = nullIndex then zoom listPart (insertImpl head inserted)
  else zoom listPart (insertImpl next inserted)

def remove (removed : Nat) : Prog (Handle V) PUnit := do
  if (← get).head = removed then do
    let _ ← pop
    return ⟨⟩
  else zoom listPart (removeImpl removed)

def clear : Prog (Storage V) PUnit :=
  modify fun s => ⟨s.data.map ({ · with next := nullIndex, prev := nullIndex })⟩

def previous (index : Nat) : Prog (Storage V) Nat := do
  if index = nullIndex then return nullIndex
  let n ← node index
  return n.prev

def next (index : Nat) : Prog (Storage V) Nat := do
  if index = nullIndex then return nullIndex
  let n ← node index
  return n.next

end Lzhlib.IndexedList
