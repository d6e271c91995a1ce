import Mathlib.Data.List.Nodup
import Mathlib.Logic.Function.Basic

namespace Lzhlib.Custody

variable {ι α : Type} [DecidableEq ι]

/-- What a party has taken, and whether it has begun to work on it. -/
inductive Hand (α : Type)
  | empty
  | taken (j : α)
  | running (j : α)

def Hand.item : Hand α → Option α
  | .empty => none
  | .taken j | .running j => some j

structure Ledger (α : Type) where
  popped : List α
  invoked : List α
  finished : List α

inductive Handles : Ledger α → Hand α → Ledger α → Hand α → Prop
  | nothing {l x} : Handles l x l x
  | takes {l j} : Handles l .empty { l with popped := l.popped ++ [j] } (.taken j)
  | invokes {l j} : Handles l (.taken j) { l with invoked := l.invoked ++ [j] } (.running j)
  | finishes {l j} : Handles l (.running j) { l with finished := l.finished ++ [j] } .empty

theorem handles_same {l l' : Ledger α} {x x' : Hand α} (hl : l' = l) (hx : x' = x) :
    Handles l x l' x' := by
  rw [hl, hx]
  exact .nothing

/-- Whatever was popped is in the hand of one party, or finished. -/
structure Accounted (l : Ledger α) (hands : ι → Hand α) : Prop where
  nodup : l.invoked.Nodup
  invoked : ∀ j ∈ l.invoked, j ∈ l.popped
  finished : ∀ j ∈ l.finished, j ∈ l.invoked
  taken : ∀ t j, hands t = .taken j → j ∈ l.popped ∧ j ∉ l.invoked
  running : ∀ t j, hands t = .running j → j ∈ l.invoked ∧ j ∉ l.finished
  unique : ∀ t u j, (hands t).item = some j → (hands u).item = some j → t = u
  whereabouts : ∀ j ∈ l.popped, j ∈ l.finished ∨ ∃ t, (hands t).item = some j

omit [DecidableEq ι] in
theorem accounted_empty : Accounted (⟨[], [], []⟩ : Ledger α) fun _ : ι => .empty := by
  refine ⟨List.nodup_nil, ?_, ?_, ?_, ?_, ?_, ?_⟩ <;> simp [Hand.item]

variable {l l' : Ledger α} {hands : ι → Hand α} {t u : ι} {x : Hand α} {j : α}

omit [DecidableEq ι] in
theorem Accounted.item_popped (h : Accounted l hands) (hj : (hands t).item = some j) :
    j ∈ l.popped := by
  cases hx : hands t with
  | empty => rw [hx] at hj; cases hj
  | taken i =>
      rw [hx] at hj
      cases hj
      exact (h.taken t j hx).1
  | running i =>
      rw [hx] at hj
      cases hj
      exact h.invoked j (h.running t j hx).1

theorem update_cases {P : ι → Hand α → Prop} (hown : P t x) (hothers : ∀ u, u ≠ t → P u (hands u))
    (u : ι) : P u (Function.update hands t x u) := by
  by_cases hu : u = t
  · subst u
    rwa [Function.update_self]
  · rw [Function.update_of_ne hu]
    exact hothers u hu

theorem update_item (hands : ι → Hand α) (hx : x.item = (hands t).item) (u : ι) :
    (Function.update hands t x u).item = (hands u).item :=
  update_cases (P := fun u y => y.item = (hands u).item) hx (fun _ _ => rfl) u

theorem takes_accounted (h : Accounted l hands) (ht : hands t = .empty) (hj : j ∉ l.popped) :
    Accounted { l with popped := l.popped ++ [j] } (Function.update hands t (.taken j)) := by
  have hmem {i : α} (hi : i ∈ l.popped) : i ∈ l.popped ++ [j] := List.mem_append_left _ hi
  refine ⟨h.nodup, fun i hi => hmem (h.invoked i hi), h.finished, ?_, ?_, ?_, ?_⟩
  · apply update_cases (P := fun _ y => ∀ i, y = .taken i → i ∈ l.popped ++ [j] ∧ i ∉ l.invoked)
    · rintro i ⟨⟩
      exact ⟨List.mem_append_right _ (List.mem_singleton_self _), fun hi => hj (h.invoked _ hi)⟩
    · exact fun u _ i hi => ⟨hmem (h.taken u i hi).1, (h.taken u i hi).2⟩
  · apply update_cases (P := fun _ y => ∀ i, y = .running i → i ∈ l.invoked ∧ i ∉ l.finished)
    · nofun
    · exact fun u _ => h.running u
  · intro u v i hu hv
    by_cases hut : u = t <;> by_cases hvt : v = t
    · exact hut.trans hvt.symm
    · subst u
      rw [Function.update_self] at hu
      rw [Function.update_of_ne hvt] at hv
      cases hu
      exact absurd (h.item_popped hv) hj
    · subst v
      rw [Function.update_of_ne hut] at hu
      rw [Function.update_self] at hv
      cases hv
      exact absurd (h.item_popped hu) hj
    · rw [Function.update_of_ne hut] at hu
      rw [Function.update_of_ne hvt] at hv
      exact h.unique u v i hu hv
  · intro i hi
    obtain hi | hi := List.mem_append.mp hi
    · obtain hfin | ⟨u, hu⟩ := h.whereabouts i hi
      · exact Or.inl hfin
      · refine Or.inr ⟨u, ?_⟩
        rwa [Function.update_of_ne]
        rintro rfl
        rw [ht] at hu
        cases hu
    · refine Or.inr ⟨t, ?_⟩
      rw [Function.update_self, List.mem_singleton.mp hi]
      rfl

theorem invokes_accounted (h : Accounted l hands) (ht : hands t = .taken j) :
    Accounted { l with invoked := l.invoked ++ [j] } (Function.update hands t (.running j)) := by
  obtain ⟨hpopped, hnew⟩ := h.taken t j ht
  have hitem := update_item hands (t := t) (x := .running j) (by rw [ht]; rfl)
  have hmem {i : α} (hi : i ∈ l.invoked) : i ∈ l.invoked ++ [j] := List.mem_append_left _ hi
  refine ⟨?_, ?_, fun i hi => hmem (h.finished i hi), ?_, ?_, ?_, ?_⟩
  · rw [← List.concat_eq_append]
    exact List.Nodup.concat hnew h.nodup
  · intro i hi
    obtain hi | hi := List.mem_append.mp hi
    · exact h.invoked i hi
    · rwa [List.mem_singleton.mp hi]
  · apply update_cases (P := fun _ y => ∀ i, y = .taken i → i ∈ l.popped ∧ i ∉ l.invoked ++ [j])
    · nofun
    · intro u hu i hi
      refine ⟨(h.taken u i hi).1, fun hmem' => ?_⟩
      obtain hold | heq := List.mem_append.mp hmem'
      · exact (h.taken u i hi).2 hold
      · cases List.mem_singleton.mp heq
        exact hu (h.unique u t j (by rw [hi]; rfl) (by rw [ht]; rfl))
  · apply update_cases (P := fun _ y => ∀ i, y = .running i → i ∈ l.invoked ++ [j] ∧ i ∉ l.finished)
    · rintro i ⟨⟩
      exact ⟨List.mem_append_right _ (List.mem_singleton_self _), fun hi => hnew (h.finished j hi)⟩
    · exact fun u _ i hi => ⟨hmem (h.running u i hi).1, (h.running u i hi).2⟩
  · intro u v i hu hv
    rw [hitem] at hu hv
    exact h.unique u v i hu hv
  · intro i hi
    exact (h.whereabouts i hi).imp_right fun ⟨u, hu⟩ => ⟨u, (hitem u).trans hu⟩

theorem finishes_accounted (h : Accounted l hands) (ht : hands t = .running j) :
    Accounted { l with finished := l.finished ++ [j] } (Function.update hands t .empty) := by
  refine ⟨h.nodup, h.invoked, ?_, ?_, ?_, ?_, ?_⟩
  · intro i hi
    obtain hi | hi := List.mem_append.mp hi
    · exact h.finished i hi
    · rw [List.mem_singleton.mp hi]
      exact (h.running t j ht).1
  · apply update_cases (P := fun _ y => ∀ i, y = .taken i → i ∈ l.popped ∧ i ∉ l.invoked)
    · nofun
    · exact fun u _ => h.taken u
  · apply update_cases (P := fun _ y => ∀ i, y = .running i → i ∈ l.invoked ∧ i ∉ l.finished ++ [j])
    · nofun
    · intro u hu i hi
      refine ⟨(h.running u i hi).1, fun hmem => ?_⟩
      obtain hold | heq := List.mem_append.mp hmem
      · exact (h.running u i hi).2 hold
      · cases List.mem_singleton.mp heq
        exact hu (h.unique u t j (by rw [hi]; rfl) (by rw [ht]; rfl))
  · intro u v i hu hv
    by_cases hut : u = t
    · subst u
      rw [Function.update_self] at hu
      cases hu
    by_cases hvt : v = t
    · subst v
      rw [Function.update_self] at hv
      cases hv
    rw [Function.update_of_ne hut] at hu
    rw [Function.update_of_ne hvt] at hv
    exact h.unique u v i hu hv
  · intro i hi
    obtain hfin | ⟨u, hu⟩ := h.whereabouts i hi
    · exact Or.inl (List.mem_append_left _ hfin)
    · by_cases hut : u = t
      · subst u
        rw [ht] at hu
        cases hu
        exact Or.inl (List.mem_append_right _ (List.mem_singleton_self _))
      · exact Or.inr ⟨u, by rwa [Function.update_of_ne hut]⟩

theorem handles_accounted (hm : Handles l (hands t) l' x) (hnodup : l'.popped.Nodup)
    (h : Accounted l hands) : Accounted l' (Function.update hands t x) := by
  generalize hy : hands t = y at hm
  cases hm with
  | nothing => rwa [← hy, Function.update_eq_self]
  | takes =>
      refine takes_accounted h hy fun hj => ?_
      exact (List.nodup_append.mp hnodup).2.2 _ hj _ (List.mem_singleton_self _) rfl
  | invokes => exact invokes_accounted h hy
  | finishes => exact finishes_accounted h hy

end Lzhlib.Custody
