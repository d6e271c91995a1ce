import Lzhlib.ValueRepo
import Mathlib.Data.List.Nodup

namespace Lzhlib.ObjectPool

open Machine ValueRepo

variable {V Args : Type}

/-- What an object pool is for: ids in use, the newest first, a stack of free
ids, and the values the ids stand for. The ids are always the numbers below
the number of slots. -/
structure Pool (V : Type) where
  live : List Nat
  free : List Nat
  value : Nat → Option V
  slots : (live ++ free).Perm (List.range (live.length + free.length))

namespace Pool

def size (p : Pool V) : Nat := p.live.length + p.free.length

theorem mem_slots (p : Pool V) {i : Nat} : i ∈ p.live ∨ i ∈ p.free ↔ i < p.size := by
  rw [← List.mem_append, p.slots.mem_iff, List.mem_range, size]

theorem nodup (p : Pool V) : (p.live ++ p.free).Nodup := p.slots.nodup_iff.mpr List.nodup_range

theorem not_live_of_free (p : Pool V) {i : Nat} (hf : i ∈ p.free) : i ∉ p.live :=
  fun hl => (List.nodup_append.mp p.nodup).2.2 i hl i hf rfl

theorem size_not_live (p : Pool V) : p.size ∉ p.live := fun h =>
  absurd (p.mem_slots.mp (Or.inl h)) (lt_irrefl _)

def none : Pool V := ⟨[], [], fun _ => .none, by simp⟩

def fresh (n : Nat) (value : Option V) : Pool V :=
  ⟨[], List.range n, fun i => if i < n then value else .none, by simp⟩

def setValue (p : Pool V) (i : Nat) (v : Option V) : Pool V :=
  { p with value := Function.update p.value i v }

@[simp] theorem setValue_live (p : Pool V) (i : Nat) (v : Option V) :
    (p.setValue i v).live = p.live := rfl

@[simp] theorem setValue_free (p : Pool V) (i : Nat) (v : Option V) :
    (p.setValue i v).free = p.free := rfl

@[simp] theorem setValue_value (p : Pool V) (i : Nat) (v : Option V) :
    (p.setValue i v).value = Function.update p.value i v := rfl

def take (p : Pool V) (i : Nat) (rest : List Nat) (h : p.free = i :: rest) : Pool V where
  live := i :: p.live
  free := rest
  value := p.value
  slots := by
    have hp := p.slots
    rw [h] at hp
    have hlen : (i :: p.live).length + rest.length = p.live.length + (i :: rest).length := by
      simp only [List.length_cons]
      omega
    rw [hlen]
    exact List.perm_middle.symm.trans hp

/-- The next free id after growth by one half; the other new ids become the
free stack in increasing order. -/
def extend (p : Pool V) (h : p.free = []) : Pool V where
  live := p.size :: p.live
  free := List.range' (p.size + 1) (p.size / 2)
  value := p.value
  slots := by
    have hp := p.slots
    have hs : p.size = p.live.length := by simp [size, h]
    rw [h, List.append_nil] at hp
    rw [List.length_cons, List.length_range', ← hs, List.cons_append]
    apply List.perm_middle.symm.trans
    have happ : List.range' 0 p.size ++ List.range' p.size (p.size / 2 + 1) =
        List.range' 0 (p.size + (1 + p.size / 2)) := by
      simpa [Nat.add_comm 1] using List.range'_append_1 (s := 0) (m := p.size) (n := p.size / 2 + 1)
    rw [List.range_eq_range', Nat.add_assoc, ← happ, List.range'_succ]
    apply List.Perm.append_right _
    rw [← List.range_eq_range', hs]
    simpa using hp

def giveBack (p : Pool V) (i : Nat) (h : i ∈ p.live) : Pool V where
  live := p.live.erase i
  free := i :: p.free
  value := p.value
  slots := by
    have hlen : (p.live.erase i).length + (i :: p.free).length =
        p.live.length + p.free.length := by
      have hpos := List.length_pos_of_mem h
      rw [List.length_erase_of_mem h, List.length_cons]
      omega
    rw [hlen]
    apply List.perm_middle.trans
    rw [← List.cons_append]
    exact ((List.perm_cons_erase h).symm.append_right _).trans p.slots

def reuse (fits : Nat → Bool) (p : Pool V) : Except Exc Nat × Pool V :=
  match h : p.free with
  | i :: rest => (.ok i, p.take i rest h)
  | [] =>
      if (maxSize - 1) / 3 * 2 < p.size then (.error (.sizeTooLarge p.size), p)
      else if fits (p.size + p.size / 2 + 1) = false then (.error .badAlloc, p)
      else (.ok p.size, p.extend h)

theorem reuse_take {fits : Nat → Bool} {p : Pool V} {i : Nat} {rest : List Nat}
    (h : p.free = i :: rest) : p.reuse fits = (.ok i, p.take i rest h) := by
  unfold reuse
  split
  · rename_i j rest' h'
    obtain ⟨rfl, rfl⟩ := List.cons.inj (h.symm.trans h')
    rfl
  · rename_i h'
    exact absurd (h.symm.trans h') (List.cons_ne_nil i rest)

theorem reuse_extend {fits : Nat → Bool} {p : Pool V} (h : p.free = []) : p.reuse fits =
    if (maxSize - 1) / 3 * 2 < p.size then (.error (.sizeTooLarge p.size), p)
    else if fits (p.size + p.size / 2 + 1) = false then (.error .badAlloc, p)
    else (.ok p.size, p.extend h) := by
  unfold reuse
  split
  · rename_i h'
    exact absurd (h'.symm.trans h) (List.cons_ne_nil _ _)
  · rfl

theorem reuse_error {fits : Nat → Bool} {p q : Pool V} {e : Exc}
    (h : p.reuse fits = (.error e, q)) : q = p ∧ e.NoRoom := by
  cases hfree : p.free with
  | cons i rest =>
      rw [reuse_take hfree] at h
      cases h
  | nil =>
      rw [reuse_extend hfree] at h
      split_ifs at h <;> cases h
      · exact ⟨rfl, Or.inr ⟨_, rfl⟩⟩
      · exact ⟨rfl, Or.inl rfl⟩

def after (l : List Nat) (i : Nat) : Nat := l[(l.idxOf i + 1) % l.length]?.getD nullIndex

def before (l : List Nat) (i : Nat) : Nat :=
  l[(l.idxOf i + (l.length - 1)) % l.length]?.getD nullIndex

def ringOf (p : Pool V) (i : Nat) : List Nat := if i ∈ p.live then p.live else p.free

def demandLive {α : Type} (p : Pool V) (i : Nat) (e : Exc)
    (k : i ∈ p.live → Except Exc α × Pool V) : Except Exc α × Pool V :=
  if p.size ≤ i then (.error (.indexOutOfRange i), p)
  else if h : i ∈ p.live then k h else (.error e, p)

theorem demandLive_live {α : Type} {p : Pool V} {i : Nat} (h : i ∈ p.live) (e : Exc)
    (k : i ∈ p.live → Except Exc α × Pool V) : p.demandLive i e k = k h := by
  rw [demandLive, if_neg (not_le.mpr (p.mem_slots.mp (Or.inl h))), dif_pos h]

def settle (type : ValueType Args V) (args : Args) (i : Nat) (p : Pool V) :
    Except Exc Unit × Pool V :=
  match p.value i with
  | some old => match type.assign args old with
    | .ok _ new => (.ok ⟨⟩, p.setValue i (some new))
    | .error e new => (.error e, p.setValue i (some new))
  | .none => match type.construct args with
    | .ok new => (.ok ⟨⟩, p.setValue i (some new))
    | .error e => (.error e, p)

def store (make : Args → V) (args : Args) (i : Nat) (p : Pool V) : Except Exc Unit × Pool V :=
  (.ok ⟨⟩, p.setValue i (some (make args)))

def assign (fill : Args → Nat → Pool V → Except Exc Unit × Pool V) (fits : Nat → Bool)
    (args : Args) (p : Pool V) : Except Exc Nat × Pool V :=
  match p.reuse fits with
  | (.ok i, q) => ((fill args i q).1.map fun _ => i, (fill args i q).2)
  | (.error e, q) => (.error e, q)

theorem assign_ok {fill : Args → Nat → Pool V → Except Exc Unit × Pool V} {fits : Nat → Bool}
    {args : Args} {p q : Pool V} {i : Nat} (h : p.reuse fits = (.ok i, q)) :
    p.assign fill fits args = ((fill args i q).1.map fun _ => i, (fill args i q).2) := by
  rw [assign, h]

theorem assign_error {fill : Args → Nat → Pool V → Except Exc Unit × Pool V} {fits : Nat → Bool}
    {args : Args} {p q : Pool V} {e : Exc} (h : p.reuse fits = (.error e, q)) :
    p.assign fill fits args = (.error e, q) := by
  rw [assign, h]

def release (p : Pool V) (i : Nat) : Except Exc Unit × Pool V :=
  p.demandLive i (.attemptToReturnUnusedStock i) fun h => (.ok ⟨⟩, p.giveBack i h)

def remove (p : Pool V) (i : Nat) : Except Exc Unit × Pool V :=
  p.demandLive i (.attemptToRemoveNonexistentStock i)
    fun h => (.ok ⟨⟩, (p.setValue i .none).giveBack i h)

def get (p : Pool V) (i : Nat) : Except Exc V × Pool V :=
  p.demandLive i (.attemptToUseUnusedStock i)
    fun _ => ((p.value i).elim (.error .undefined) .ok, p)

/-- The id after a live one, the end after the last; on a free id the walk goes
round the free ids. -/
def next (p : Pool V) (i : Nat) : Except Exc Nat :=
  if p.size ≤ i then .error (.indexOutOfRange i)
  else if p.live.getLast? = some i then .ok nullIndex
  else .ok (after (p.ringOf i) i)

def prev (p : Pool V) (i : Nat) : Except Exc Nat :=
  if i = nullIndex then .ok (p.live.getLast?.getD nullIndex)
  else if p.size ≤ i then .error (.indexOutOfRange i)
  else if p.live.head? = some i then .error (.indexOutOfRange i)
  else .ok (before (p.ringOf i) i)

def answer {α β : Type} (f : α → β) (res : Except Exc α × Pool V) : Except Exc β × Pool V :=
  (res.1.map f, res.2)

def exec (fill : Args → Nat → Pool V → Except Exc Unit × Pool V) :
    Call Args → Pool V → Except Exc (Reply V) × Pool V
  | .assignObject fits args, p => answer .id (p.assign fill fits args)
  | .reuseObject fits, p => answer .id (p.reuse fits)
  | .removeObject i, p => answer (fun _ => .done) (p.remove i)
  | .returnObject i, p => answer (fun _ => .done) (p.release i)
  | .isIdUsed i, p => answer .flag (.ok (decide (i ∈ p.live)), p)
  | .getObject i, p => answer .value (p.get i)
  | .firstId, p => answer .id (.ok (p.live.head?.getD nullIndex), p)
  | .endId, p => answer .id (.ok nullIndex, p)
  | .nextId i, p => answer .id (p.next i, p)
  | .prevId i, p => answer .id (p.prev i, p)

def Asks : Call Args → Prop
  | .isIdUsed _ | .getObject _ | .firstId | .endId | .nextId _ | .prevId _ => True
  | _ => False

inductive Effect (fill : Args → Nat → Pool V → Except Exc Unit × Pool V) (p : Pool V) :
    Call Args → Except Exc (Reply V) → Pool V → Prop
  | refused {c : Call Args} (e : Exc) : Effect fill p c (.error e) p
  | asked {c : Call Args} (res : Except Exc (Reply V)) (h : Asks c) : Effect fill p c res p
  | assigned {fits : Nat → Bool} {args : Args} {i : Nat} {q : Pool V}
      (h : p.reuse fits = (.ok i, q)) :
      Effect fill p (.assignObject fits args) ((fill args i q).1.map fun _ => .id i)
        (fill args i q).2
  | reused {fits : Nat → Bool} {i : Nat} {q : Pool V} (h : p.reuse fits = (.ok i, q)) :
      Effect fill p (.reuseObject fits) (.ok (.id i)) q
  | removed {i : Nat} (h : i ∈ p.live) :
      Effect fill p (.removeObject i) (.ok .done) ((p.setValue i .none).giveBack i h)
  | returned {i : Nat} (h : i ∈ p.live) :
      Effect fill p (.returnObject i) (.ok .done) (p.giveBack i h)

theorem exec_effect (fill : Args → Nat → Pool V → Except Exc Unit × Pool V) (c : Call Args)
    (p : Pool V) : Effect fill p c (exec fill c p).1 (exec fill c p).2 := by
  cases c with
  | assignObject fits args =>
      rcases hp : p.reuse fits with ⟨e | i, q⟩
      · rw [exec, answer, assign_error hp, (reuse_error hp).1]
        exact .refused e
      · have hreply : ((fill args i q).1.map fun _ => i).map Reply.id =
            (fill args i q).1.map fun _ => (.id i : Reply V) := by
          cases (fill args i q).1 <;> rfl
        rw [exec, answer, assign_ok hp, hreply]
        exact .assigned hp
  | reuseObject fits =>
      rcases hp : p.reuse fits with ⟨e | i, q⟩
      · rw [exec, answer, hp, (reuse_error hp).1]
        exact .refused e
      · rw [exec, answer, hp]
        exact .reused hp
  | removeObject i =>
      simp only [exec, answer, remove, demandLive]
      split_ifs with _ h
      · exact .refused _
      · exact .removed h
      · exact .refused _
  | returnObject i =>
      simp only [exec, answer, release, demandLive]
      split_ifs with _ h
      · exact .refused _
      · exact .returned h
      · exact .refused _
  | getObject i =>
      simp only [exec, answer, get, demandLive]
      split_ifs <;> exact .asked _ trivial
  | isIdUsed | firstId | endId | nextId | prevId => exact .asked _ trivial

end Pool

end Lzhlib.ObjectPool
