import Lzhlib.IndexedList

namespace Lzhlib.ValueRepo

open Programs Machine IndexedList

variable {V Args α : Type}

/-- A slot: the source wants `used` to imply that there is a value. -/
structure DataT (V : Type) where
  value : Option V := none
  used : Bool := false

instance : Inhabited (DataT V) := ⟨{}⟩

structure Repo (V : Type) where
  list : Storage (DataT V)
  unusedHead : Nat := nullIndex
  usedHead : Nat := nullIndex

def storage : Part (Repo V) (Storage (DataT V)) := ⟨Repo.list, fun l r => { r with list := l }⟩

def unusedList : Part (Repo V) (Handle (DataT V)) where
  get r := ⟨r.list, r.unusedHead⟩
  set h r := { r with list := h.list, unusedHead := h.head }

def usedList : Part (Repo V) (Handle (DataT V)) where
  get r := ⟨r.list, r.usedHead⟩
  set h r := { r with list := h.list, usedHead := h.head }

def empty : Repo V := { list := ⟨[]⟩ }

/-- `value_repo(init_size, args...)`; `value` is what the arguments construct
in every slot, nothing when there are none. -/
def presized (fits : Nat → Bool) (initSize : Nat) (value : Option V) : Except Exc (Repo V) := do
  let list ← allocate fits initSize ({ value := value } : DataT V)
  match formList 0 initSize list with
  | .ok head l => .ok { list := l, unusedHead := head }
  | .error e _ => .error e

/-- How the value type is built from arguments, and assigned from `{args...}`. -/
structure ValueType (Args V : Type) where
  construct : Args → Except Exc V
  assign : Args → Prog V PUnit

def checkIndex (id : Nat) : Prog (Repo V) PUnit := do
  let r ← get
  if r.list.size ≤ id then throw (.indexOutOfRange id) else pure ⟨⟩

def checkUnused (id : Nat) : Prog (Repo V) Bool := do
  let data ← zoom storage (subscript id)
  return data.used == false

def isIdUsed (id : Nat) : Prog (Repo V) Bool := do
  let r ← get
  if id < r.list.size then return !(← checkUnused id) else return false

def setUsed (id : Nat) (used : Bool) : Prog (Repo V) PUnit := do
  let data ← zoom storage (subscript id)
  zoom storage (setValue id { data with used := used })

def setObject (id : Nat) (value : Option V) : Prog (Repo V) PUnit := do
  let data ← zoom storage (subscript id)
  zoom storage (setValue id { data with value := value })

/-- `*list[id].value`, which has no meaning for an empty optional. -/
def object (id : Nat) : Prog (Repo V) V := do
  let data ← zoom storage (subscript id)
  match data.value with
  | some v => return v
  | none => throw .undefined

def getObject (id : Nat) : Prog (Repo V) V := do
  checkIndex id
  if ← checkUnused id then throw (.attemptToUseUnusedStock id) else object id

def withObject (id : Nat) (p : Prog V α) : Prog (Repo V) α := do
  let v ← getObject id
  match p v with
  | .ok a w => do
      setObject id (some w)
      return a
  | .error e w => do
      setObject id (some w)
      throw e

def grow (fits : Nat → Bool) : Prog (Repo V) PUnit := do
  let r ← get
  let oldSize := r.list.size
  if (maxSize - 1) / 3 * 2 < oldSize then throw (.sizeTooLarge oldSize)
  else
    let newSize := sizeAdd (sizeAdd oldSize (oldSize / 2)) 1
    zoom storage (resize fits newSize)
    let head ← zoom storage (formList oldSize newSize)
    modify ({ · with unusedHead := head })

def growWhenFull (fits : Nat → Bool) : Prog (Repo V) PUnit := do
  let r ← get
  if r.unusedHead = nullIndex then grow fits else pure ⟨⟩

def reuseObject (fits : Nat → Bool) : Prog (Repo V) Nat := do
  growWhenFull fits
  let result ← zoom unusedList pop
  setUsed result true
  let _ ← zoom usedList (push result)
  return result

def assignObjectImpl (type : ValueType Args V) (index : Nat) (args : Args) :
    Prog (Repo V) PUnit := do
  let data ← zoom storage (subscript index)
  match data.value with
  | some old => match type.assign args old with
    | .ok _ new => setObject index (some new)
    | .error e new => do
        setObject index (some new)
        throw e
  | none => match type.construct args with
    | .ok new => setObject index (some new)
    | .error e => throw e

def assignObject (type : ValueType Args V) (fits : Nat → Bool) (args : Args) :
    Prog (Repo V) Nat := do
  let result ← reuseObject fits
  assignObjectImpl type result args
  return result

def returnObject (id : Nat) : Prog (Repo V) PUnit := do
  checkIndex id
  if ← checkUnused id then throw (.attemptToReturnUnusedStock id)
  else
    setUsed id false
    zoom usedList (remove id)
    let _ ← zoom unusedList (push id)
    return ⟨⟩

def removeObject (id : Nat) : Prog (Repo V) PUnit := do
  checkIndex id
  if ← checkUnused id then throw (.attemptToRemoveNonexistentStock id)
  else
    setObject id none
    returnObject id

def firstId : Prog (Repo V) Nat := do
  let r ← get
  return r.usedHead

def endId : Prog (Repo V) Nat := return nullIndex

def nextId (current : Nat) : Prog (Repo V) Nat := do
  checkIndex current
  let r ← get
  if current = (← zoom storage (previous r.usedHead)) then return nullIndex
  else zoom storage (next current)

def prevId (current : Nat) : Prog (Repo V) Nat := do
  let r ← get
  if current = nullIndex then zoom storage (previous r.usedHead)
  else
    checkIndex current
    if current = r.usedHead then throw (.indexOutOfRange current)
    else zoom storage (previous current)

inductive Call (Args : Type)
  | assignObject (fits : Nat → Bool) (args : Args)
  | reuseObject (fits : Nat → Bool)
  | removeObject (id : Nat)
  | returnObject (id : Nat)
  | isIdUsed (id : Nat)
  | getObject (id : Nat)
  | firstId
  | endId
  | nextId (id : Nat)
  | prevId (id : Nat)

inductive Reply (V : Type)
  | done
  | id (i : Nat)
  | flag (b : Bool)
  | value (v : V)
  deriving DecidableEq

def exec (type : ValueType Args V) : Call Args → Prog (Repo V) (Reply V)
  | .assignObject fits args => do return .id (← assignObject type fits args)
  | .reuseObject fits => do return .id (← reuseObject fits)
  | .removeObject i => do
      removeObject i
      return .done
  | .returnObject i => do
      returnObject i
      return .done
  | .isIdUsed i => do return .flag (← isIdUsed i)
  | .getObject i => do return .value (← getObject i)
  | .firstId => do return .id (← firstId)
  | .endId => do return .id (← endId)
  | .nextId i => do return .id (← nextId i)
  | .prevId i => do return .id (← prevId i)

end Lzhlib.ValueRepo
