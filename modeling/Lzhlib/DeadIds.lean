import Lzhlib.RepoTraversal

namespace Lzhlib.DeadIds

open Programs Machine ValueRepo ObjectPool RepoRefinement RepoRuns RepoTraversal Runs

variable {V Args α : Type} {r : Repo V} {p : Pool V} {i : Nat}

def Throws (c : Prog (Repo V) α) (r : Repo V) : Prop :=
  ∃ e, e ≠ .undefined ∧ outcome c r = (.error e, r)

theorem throws_of_outcome {c : Prog (Repo V) α} {e : Exc} (he : e ≠ .undefined)
    (h : outcome c r = (.error e, r)) : Throws c r := ⟨e, he, h⟩

theorem not_throws {c : Prog (Repo V) α} {a : α} {t : Repo V} (h : outcome c r = (.ok a, t)) :
    ¬Throws c r := by
  rintro ⟨e, -, he⟩
  cases (Prod.mk.inj (h.symm.trans he)).1

/-- None of the five accesses by id goes through. The end is a proper argument of `prev_id`. -/
structure Rejected (r : Repo V) (i : Nat) : Prop where
  get : Throws (getObject i) r
  remove : Throws (removeObject i) r
  release : Throws (returnObject i) r
  next : Throws (nextId i) r
  prev : i ≠ nullIndex → Throws (prevId i) r

theorem checked_throws (hr : Refines r p) (hi : i ∉ p.live) {e : Exc} (he : e ≠ .undefined)
    (c : Prog (Repo V) α) : Throws (do
      checkIndex i
      if ← checkUnused i then throw e else c) r := by
  have hout := outcome_checked hr i e c
  by_cases hlt : p.size ≤ i
  · rw [if_pos hlt] at hout
    exact ⟨.indexOutOfRange i, by simp, hout⟩
  · rw [if_neg hlt, if_neg hi] at hout
    exact ⟨_, he, hout⟩

theorem nextId_dead (hr : Refines r p) (hi : i ∉ p.live) :
    (Throws (nextId i) r ↔ p.size ≤ i) ∧
      (i < p.size → outcome (nextId i) r = (.ok (Pool.after p.free i), r)) := by
  have hlast : p.live.getLast? ≠ some i := fun h => hi (List.mem_of_mem_getLast? h)
  have hwalk (hlt : i < p.size) : outcome (nextId i) r = (.ok (Pool.after p.free i), r) := by
    rw [nextId_eq hr, Pool.next, if_neg (Nat.not_le_of_lt hlt), if_neg hlast, Pool.ringOf, if_neg hi]
  refine ⟨⟨fun h => ?_, fun h => ?_⟩, hwalk⟩
  · apply Nat.le_of_not_lt
    exact fun hlt => not_throws (hwalk hlt) h
  · refine throws_of_outcome (e := .indexOutOfRange i) (by simp) ?_
    rw [nextId_eq hr, Pool.next, if_pos h]

theorem prevId_dead (hr : Refines r p) (hi : i ∉ p.live) (hnull : i ≠ nullIndex) :
    Throws (prevId i) r ↔ p.size ≤ i := by
  constructor
  · intro h
    apply Nat.le_of_not_lt
    intro hlt
    have hhead : p.live.head? ≠ some i := fun h => hi (List.mem_of_mem_head? h)
    have hwalk : outcome (prevId i) r = (.ok (Pool.before p.free i), r) := by
      rw [prevId_eq hr, Pool.prev, if_neg hnull, if_neg (Nat.not_le_of_lt hlt), if_neg hhead,
        Pool.ringOf, if_neg hi]
    exact not_throws hwalk h
  · intro h
    refine throws_of_outcome (e := .indexOutOfRange i) (by simp) ?_
    rw [prevId_eq hr, Pool.prev, if_neg hnull, if_pos h]

theorem rejected_iff (hr : Refines r p) (hi : i ∉ p.live) : Rejected r i ↔ p.size ≤ i := by
  constructor
  · exact fun h => (nextId_dead hr hi).1.mp h.next
  · intro h
    refine ⟨checked_throws hr hi (e := .attemptToUseUnusedStock i) (by simp) _,
      checked_throws hr hi (e := .attemptToRemoveNonexistentStock i) (by simp) _,
      checked_throws hr hi (e := .attemptToReturnUnusedStock i) (by simp) _,
      (nextId_dead hr hi).1.mpr h, fun hnull => (prevId_dead hr hi hnull).mpr h⟩

/-- An id that is not in use is rejected by all accesses exactly when it is out of range. -/
theorem dead_rejected_iff (type : ValueType Args V) {r₀ : Repo V} (h₀ : Started r₀)
    (cs : List (Call Args)) (i : Nat)
    (hdead : (outcome (isIdUsed i) (run (fun c => outcome (exec type c)) cs r₀).2).1 = .ok false) :
    Rejected (run (fun c => outcome (exec type c)) cs r₀).2 i ↔
      (run (fun c => outcome (exec type c)) cs r₀).2.list.size ≤ i := by
  obtain ⟨p, hp, -⟩ := started_refines h₀
  have hr := (run_refines type cs hp).2
  rw [isIdUsed_eq hr] at hdead
  rw [hr.size]
  exact rejected_iff hr (of_decide_eq_false (Except.ok.inj hdead))

/-- An id is removed, and walking on from it goes round the free slots for ever. -/
theorem nextId_removed :
    ∃ r, r = (run (fun c => outcome (exec (⟨fun a => .ok a, fun a => set a⟩ : ValueType Nat Nat) c))
        [.assignObject (fun _ => true) 7, .assignObject (fun _ => true) 8, .removeObject 0] empty).2 ∧
      (outcome (isIdUsed 0) r).1 = .ok false ∧ outcome (nextId 0) r = (.ok 0, r) ∧ ¬Rejected r 0 := by
  have hnext : outcome (nextId 0) (run (fun c => outcome (exec
      (⟨fun a => .ok a, fun a => set a⟩ : ValueType Nat Nat) c))
      [.assignObject (fun _ => true) 7, .assignObject (fun _ => true) 8, .removeObject 0] empty).2 =
      (.ok 0, _) := rfl
  exact ⟨_, rfl, rfl, hnext, fun h => not_throws hnext h.next⟩

theorem dead_rejected_iff_nine :
    Rejected (run (fun c => outcome (exec (⟨fun a => .ok a, fun a => set a⟩ : ValueType Nat Nat) c))
      [.assignObject (fun _ => true) 7] empty).2 9 :=
  (dead_rejected_iff _ (Or.inl rfl) _ 9 rfl).mpr (by decide)

end Lzhlib.DeadIds
