import Lzhlib.ChainProducts

namespace Lzhlib.BoundedChains

open Bracketings Machine ResolveMult MultiplyMatrices ChainProducts

variable {τ : Type} {E : Arithmetic τ} {n i j k bound : Nat} {sizes : Nat → Nat} {t : Tables}

theorem weight_le (hsizes : ∀ i ≤ n, sizes i ≤ bound) (hik : i ≤ k) (hkj : k < j) (hj : j < n) :
    weight sizes i k j ≤ bound ^ 3 := by
  have hi := hsizes i (by omega)
  have hk := hsizes (k + 1) (by omega)
  have hj := hsizes (j + 1) (by omega)
  calc sizes i * sizes (k + 1) * sizes (j + 1)
      ≤ bound * bound * bound := Nat.mul_le_mul (Nat.mul_le_mul hi hk) hj
    _ = bound ^ 3 := by ring

theorem candidate_le_sum (cost : Nat → Nat → Nat) (i k j : Nat) :
    candidate sizes cost i k j ≤ cost i k + cost (k + 1) j + weight sizes i k j :=
  calc candidate sizes cost i k j
      ≤ sizeAdd (cost i k) (cost (k + 1) j) +
          sizeMul (sizeMul (sizes i) (sizes (k + 1))) (sizes (j + 1)) := Nat.mod_le _ _
    _ ≤ cost i k + cost (k + 1) j + weight sizes i k j :=
        Nat.add_le_add (Nat.mod_le _ _)
          ((Nat.mod_le _ _).trans (Nat.mul_le_mul_right _ (Nat.mod_le _ _)))

theorem cost_le (hsizes : ∀ i ≤ n, sizes i ≤ bound) (hdiag : ∀ i < n, t.cost i i = 0)
    (hsolved : ∀ i j, i < j → j < n → Solved sizes t i j) (hij : i ≤ j) (hj : j < n) :
    t.cost i j ≤ (j - i) * bound ^ 3 := by
  obtain ⟨l, rfl⟩ := Nat.exists_eq_add_of_le hij
  induction l generalizing i with
  | zero => simp [hdiag i hj]
  | succ l ih =>
      have hrest := ih (i := i + 1) (by omega) (by omega)
      rw [show i + 1 + l = i + (l + 1) by omega, show i + (l + 1) - (i + 1) = l by omega] at hrest
      calc t.cost i (i + (l + 1))
          ≤ candidate sizes t.cost i i (i + (l + 1)) :=
            (hsolved i (i + (l + 1)) (by omega) hj).cost_le i le_rfl (by omega)
        _ ≤ t.cost i i + t.cost (i + 1) (i + (l + 1)) + weight sizes i i (i + (l + 1)) :=
            candidate_le_sum _ _ _ _
        _ ≤ 0 + l * bound ^ 3 + bound ^ 3 :=
            Nat.add_le_add (Nat.add_le_add (hdiag i (by omega)).le hrest)
              (weight_le hsizes le_rfl (by omega) hj)
        _ = (i + (l + 1) - i) * bound ^ 3 := by
            rw [show i + (l + 1) - i = l + 1 by omega]
            ring

theorem bounded_noOverflow (hsizes : ∀ i ≤ n, sizes i ≤ bound) (hbound : (n - 1) * bound ^ 3 < 2 ^ 64) :
    NoOverflow n sizes := by
  intro t ht j hj k hkj i hik
  obtain ⟨u, hu, hdiag, hsolved⟩ := resolve_ok (n := n) (by omega) sizes
  cases ht.symm.trans hu
  have hleft := cost_le hsizes hdiag hsolved hik (hkj.trans hj)
  have hright := cost_le hsizes hdiag hsolved (Nat.succ_le_of_lt hkj) hj
  have hweight : sizes i * sizes (k + 1) * sizes (j + 1) ≤ bound ^ 3 := weight_le hsizes hik hkj hj
  have hcosts : t.cost i k + t.cost (k + 1) j + bound ^ 3 ≤ (n - 1) * bound ^ 3 :=
    calc t.cost i k + t.cost (k + 1) j + bound ^ 3
        ≤ (k - i) * bound ^ 3 + (j - (k + 1)) * bound ^ 3 + bound ^ 3 :=
          Nat.add_le_add_right (Nat.add_le_add hleft hright) _
      _ = (j - i) * bound ^ 3 := by
          rw [show j - i = (k - i) + (j - (k + 1)) + 1 by omega]
          ring
      _ ≤ (n - 1) * bound ^ 3 := Nat.mul_le_mul_right _ (by omega)
  have hproduct : sizes i * sizes (k + 1) ≤ bound ^ 3 := by
    have hsquare : sizes i * sizes (k + 1) ≤ bound ^ 2 := by
      rw [pow_two]
      exact Nat.mul_le_mul (hsizes i (by omega)) (hsizes (k + 1) (by omega))
    refine hsquare.trans ?_
    obtain rfl | hpos := Nat.eq_zero_or_pos bound
    · exact le_rfl
    · exact Nat.pow_le_pow_right hpos (by omega)
  exact ⟨by omega, by omega, by omega, by omega⟩

/-- With sizes up to `bound`, a chain of `n` matrices cannot make `resolve` wrap
as long as `(n - 1) * bound ^ 3` fits: then no bracketing needs fewer
multiplications than are made, and at most that many are made. -/
theorem bounded_optimal (C : Chain E n) (hn : 2 ≤ n) (hsizes : ∀ i ≤ n, C.size i ≤ bound)
    (hbound : (n - 1) * bound ^ 3 < 2 ^ 64) :
    NoOverflow n C.size ∧
      ∃ p, C.multiplyMatrices = some p ∧ p.multiplications ≤ (n - 1) * bound ^ 3 ∧
        ∀ b : Bracketing 0 (n - 1), p.multiplications ≤ b.cost (weight C.size) := by
  obtain ⟨t, h, ht, hdiag, hrun⟩ := multiplyMatrices_evaluates C hn
  have hno := bounded_noOverflow hsizes hbound
  have hsplit (i j : Nat) (hij : i < j) (hj : j < n) := (h i j hij hj).cost_eq.trans
    (candidate_eq hno ht (h i j hij hj).proper.1 (h i j hij hj).proper.2 hj)
  refine ⟨hno, _, hrun, ?_, fun b => ?_⟩
  · rw [evaluate_multiplications, (splits h).bracketing_cost hdiag hsplit]
    exact cost_le hsizes hdiag h (Nat.zero_le _) (by omega)
  · rw [evaluate_multiplications, (splits h).bracketing_cost hdiag hsplit]
    refine le_cost hdiag (fun i k j hik hkj hj => ?_) b (by omega)
    exact ((h i j (hik.trans_lt hkj) hj).cost_le k hik hkj).trans (candidate_le_sum _ _ _ _)

theorem bounded_optimal_thousand : NoOverflow 1000 (fun i => i * 97 % 99991 + 1) ∧
    ∃ p, (ones (fun i => i * 97 % 99991 + 1) (fun _ => Nat.succ_pos _) 1000).multiplyMatrices = some p ∧
      p.multiplications ≤ 999 * 100000 ^ 3 ∧
      ∀ b : Bracketing 0 999, p.multiplications ≤ b.cost (weight fun i => i * 97 % 99991 + 1) := by
  have hsizes (i : Nat) (_ : i ≤ 1000) : i * 97 % 99991 + 1 ≤ 100000 := by
    have hmod : i * 97 % 99991 < 99991 := Nat.mod_lt _ (by decide)
    omega
  exact bounded_optimal (ones (fun i => i * 97 % 99991 + 1) (fun _ => Nat.succ_pos _) 1000) (by decide)
    hsizes (by decide)

end Lzhlib.BoundedChains
