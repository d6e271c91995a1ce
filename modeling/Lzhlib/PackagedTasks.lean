import Mathlib.Data.List.Nodup
import Mathlib.Logic.Function.Basic

namespace Lzhlib.PackagedTasks

inductive Future (R : Type)
  | pending
  | ready (r : R)
  | broken
  deriving DecidableEq

def Future.abandoned {R : Type} : Future R → Future R
  | .pending => .broken
  | .ready r => .ready r
  | .broken => .broken

inductive FutureError
  | noState
  | promiseAlreadySatisfied
  deriving DecidableEq

/-- The shared states, the one that each party's task object refers to, and
after them what calls have stored, in this order. -/
structure Promises (ι α R : Type) where
  future : α → Future R := fun _ => .pending
  object : ι → Option α := fun _ => none
  stored : List (α × R) := []

variable {ι α R : Type} [DecidableEq α] {f f' : Promises ι α R} {t u : ι} {j k : α}
  {r : R}

def Promises.make (f : Promises ι α R) (j : α) : Promises ι α R :=
  { f with future := Function.update f.future j .pending }

def Promises.abandon (f : Promises ι α R) : Option α → Promises ι α R
  | none => f
  | some j => { f with future := Function.update f.future j (f.future j).abandoned }

def Promises.replace [DecidableEq ι] (f : Promises ι α R) (t : ι) (x : Option α) : Promises ι α R :=
  { f.abandon (f.object t) with object := Function.update f.object t x }

def Promises.callable (f : Promises ι α R) (t : ι) : Except FutureError α :=
  match f.object t with
  | none => .error .noState
  | some j =>
      match f.future j with
      | .pending => .ok j
      | .ready _ | .broken => .error .promiseAlreadySatisfied

def Promises.store (f : Promises ι α R) (t : ι) (r : R) : Promises ι α R :=
  match f.object t with
  | none => f
  | some j => { f with future := Function.update f.future j (.ready r), stored := f.stored ++ [(j, r)] }

@[simp] theorem abandon_stored (x : Option α) : (f.abandon x).stored = f.stored := by
  cases x <;> rfl

@[simp] theorem replace_object [DecidableEq ι] (f : Promises ι α R) (t : ι) (x : Option α) :
    (f.replace t x).object t = x := Function.update_self _ _ _

@[simp] theorem replace_stored [DecidableEq ι] (f : Promises ι α R) (t : ι) (x : Option α) :
    (f.replace t x).stored = f.stored := abandon_stored _

theorem abandon_ready (hj : f.future j = .ready r) : f.abandon (some j) = f := by
  rw [Promises.abandon, hj, Future.abandoned, ← hj, Function.update_eq_self]

theorem replace_future [DecidableEq ι] (x : Option α)
    (h : ∀ j, f.object t = some j → ∃ r, f.future j = .ready r) : (f.replace t x).future = f.future := by
  cases ht : f.object t with
  | none => simp [Promises.replace, ht, Promises.abandon]
  | some j =>
      obtain ⟨r, hr⟩ := h j ht
      simp [Promises.replace, ht, abandon_ready hr]

omit [DecidableEq α] in
theorem callable_ok (ht : f.object t = some j) (hj : f.future j = .pending) : f.callable t = .ok j := by
  rw [Promises.callable, ht]
  simp [hj]

theorem store_eq (ht : f.object t = some j) : f.store t r =
    { f with future := Function.update f.future j (.ready r), stored := f.stored ++ [(j, r)] } := by
  rw [Promises.store, ht]

/-- A future is ready with what a call has stored, and no state is stored to twice. -/
structure Kept (f : Promises ι α R) : Prop where
  nodup : (f.stored.map Prod.fst).Nodup
  ready : ∀ j r, f.future j = .ready r ↔ (j, r) ∈ f.stored

omit [DecidableEq α] in
theorem kept_empty : Kept ({} : Promises ι α R) := ⟨List.nodup_nil, fun _ _ => by simp⟩

theorem Kept.make (h : Kept f) (hj : j ∉ f.stored.map Prod.fst) : Kept (f.make j) := by
  refine ⟨h.nodup, fun k r => ?_⟩
  by_cases hk : k = j
  · subst hk
    have hnot : (k, r) ∉ f.stored := fun hin => hj (List.mem_map_of_mem hin)
    simp [Promises.make, hnot]
  · simp [Promises.make, hk, h.ready]

theorem Kept.abandon (h : Kept f) (x : Option α) : Kept (f.abandon x) := by
  cases x with
  | none => exact h
  | some j =>
      refine ⟨h.nodup, fun k r => ?_⟩
      rw [abandon_stored, ← h.ready]
      by_cases hk : k = j
      · subst hk
        cases hf : f.future k <;> simp [Promises.abandon, hf, Future.abandoned]
      · simp [Promises.abandon, hk]

theorem Kept.replace [DecidableEq ι] (h : Kept f) (t : ι) (x : Option α) : Kept (f.replace t x) :=
  ⟨(h.abandon (f.object t)).nodup, (h.abandon (f.object t)).ready⟩

theorem Kept.store (h : Kept f) (ht : f.object t = some j) (hj : j ∉ f.stored.map Prod.fst) :
    Kept (f.store t r) := by
  rw [store_eq ht]
  refine ⟨?_, fun k q => ?_⟩
  · rw [List.map_append, List.nodup_append]
    refine ⟨h.nodup, List.nodup_singleton j, ?_⟩
    rintro a ha b hb rfl
    obtain rfl := List.mem_singleton.mp hb
    exact hj ha
  · by_cases hk : k = j
    · subst hk
      have hnot : (k, q) ∉ f.stored := fun hin => hj (List.mem_map_of_mem hin)
      simp [hnot, eq_comm]
    · simp [hk, h.ready]

/-- The task objects of a list go away one after the other, the last first. -/
def Promises.abandonAll (f : Promises ι α R) (l : List α) : Promises ι α R :=
  l.foldr (fun j g => g.abandon (some j)) f

theorem abandonAll_stored (f : Promises ι α R) (l : List α) : (f.abandonAll l).stored = f.stored := by
  induction l with
  | nil => rfl
  | cons j l ih => exact (abandon_stored (some j)).trans ih

theorem abandonAll_future (f : Promises ι α R) (l : List α) (k : α) : (f.abandonAll l).future k =
    if k ∈ l then (f.future k).abandoned else f.future k := by
  induction l with
  | nil => rfl
  | cons j l ih =>
      have hstep : (f.abandonAll (j :: l)).future =
          Function.update (f.abandonAll l).future j ((f.abandonAll l).future j).abandoned := rfl
      rw [hstep]
      by_cases hk : k = j
      · subst hk
        rw [Function.update_self, ih, if_pos List.mem_cons_self]
        split
        · cases f.future k <;> rfl
        · rfl
      · rw [Function.update_of_ne hk, ih]
        simp [hk]

end Lzhlib.PackagedTasks
