import Lzhlib.ChainProducts

namespace Lzhlib.SplitTables

open Bracketings ResolveMult MultiplyMatrices ChainProducts

variable {n i j : Nat}

/-- The matrices that the recursion of `multiply_matrices_helper` comes down to,
from left to right; as there, no value where an instantiation has no meaning. -/
def factorsUsed (n : Nat) (solution : List (List Nat)) (first last : Nat) : Option (List Nat) :=
  if last < n then
    if first = last then some [first]
    else match splitPos solution first last with
      | none => none
      | some k =>
        if first ≤ k ∧ k < last then do
          let left ← factorsUsed n solution first k
          let right ← factorsUsed n solution (k + 1) last
          return left ++ right
        else none
  else none
termination_by last - first

theorem factorsUsed_eq {solution : List (List Nat)} (s : SplitTable n)
    (hs : ∀ i j, i < j → j < n → splitPos solution i j = some (s.split i j))
    (hij : i ≤ j) (hj : j < n) :
    factorsUsed n solution i j = some (s.bracketing i j hij hj).leaves := by
  refine s.induction (P := fun i j => ∀ hij hj, factorsUsed n solution i j =
    some (s.bracketing i j hij hj).leaves) ?_ ?_ hij hj hij hj
  · intro i hi hii hi'
    rw [s.bracketing_self, factorsUsed, if_pos hi, if_pos rfl, Bracketing.leaves]
  · intro i j hlt hj ihl ihr hij hj'
    have hp := s.proper i j hlt hj
    rw [s.bracketing_lt hlt hj, Bracketing.leaves, factorsUsed, if_pos hj, if_neg hlt.ne]
    simp only [hs i j hlt hj, if_pos hp, ihl hp.1 (hp.2.trans hj), ihr hp.2 hj]
    rfl

/-- Whatever the sizes are and however the costs wrap, `resolve` stays inside
its tables and cuts every range into two shorter ones, so the recursion ends
and meets every matrix of its range once and in order. -/
theorem resolve_usable (hn : 2 ≤ n) (sizes : Nat → Nat) :
    ∃ t, resolved n sizes = some t ∧
      (∀ i j, i < j → j < n → i ≤ t.solution i j ∧ t.solution i j < j) ∧
      (∀ i j, i ≤ j → j < n →
        factorsUsed n (arrayToType n t.solution) i j = some (List.range' i (j + 1 - i))) ∧
      factorsUsed n (arrayToType n t.solution) 0 (n - 1) = some (List.range n) ∧
      ∀ {τ : Type} {E : Arithmetic τ} (C : Chain E n), C.size = sizes → ∀ i j, i ≤ j →
        ∀ hj : j < n, ∃ b : Bracketing i j, b.leaves = List.range' i (j + 1 - i) ∧
          C.multiplyMatricesHelper (arrayToType n t.solution) i j = some (evaluate C b hj) := by
  obtain ⟨t, ht, -, hsolved⟩ := resolve_ok (n := n) (by omega) sizes
  have hsplit (i j : Nat) (hij : i < j) (hj : j < n) :
      splitPos (arrayToType n t.solution) i j = some ((splits hsolved).split i j) :=
    splitPos_arrayToType (hij.trans hj) hj
  have hused (i j : Nat) (hij : i ≤ j) (hj : j < n) :
      factorsUsed n (arrayToType n t.solution) i j = some (List.range' i (j + 1 - i)) := by
    rw [factorsUsed_eq (splits hsolved) hsplit hij hj, Bracketing.leaves_eq]
  refine ⟨t, ht, fun i j hij hj => (hsolved i j hij hj).proper, hused, ?_, ?_⟩
  · rw [hused 0 (n - 1) (Nat.zero_le _) (by omega), Nat.sub_zero, List.range_eq_range',
      Nat.sub_add_cancel (by omega)]
  · rintro τ E C rfl i j hij hj
    exact ⟨_, Bracketing.leaves_eq _, helper_eq C (splits hsolved) hsplit hij hj⟩

theorem resolve_usable_wraps : ∃ t, resolved 3 (fun _ => 2 ^ 63) = some t ∧
    factorsUsed 3 (arrayToType 3 t.solution) 0 2 = some [0, 1, 2] := by
  obtain ⟨t, ht, -, -, hused, -⟩ := resolve_usable (n := 3) (by decide) fun _ => 2 ^ 63
  exact ⟨t, ht, hused⟩

end Lzhlib.SplitTables
