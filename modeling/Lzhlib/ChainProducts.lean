import Mathlib.Data.Matrix.Mul
import Mathlib.Algebra.BigOperators.Fin
import Lzhlib.MultiplyMatrices

namespace Lzhlib.ChainProducts

open Bracketings Machine ResolveMult MultiplyMatrices

variable {τ : Type} {E : Arithmetic τ} {n i j : Nat}

/-- The product of a range as one bracketing computes it. -/
def evaluate (C : Chain E n) : {i j : Nat} → Bracketing i j → j < n →
    Partial E (C.size i) (C.size (j + 1))
  | _, _, .leaf i, hi => C.single ⟨i, hi⟩
  | _, _, @Bracketing.node _ k _ l r, hj =>
      multiply C.commonType (C.pos (k + 1) (r.le.trans hj.le))
        (evaluate C l (r.le.trans hj.le)) (evaluate C r hj)

theorem splitPos_arrayToType {solution : Nat → Nat → Nat} (hi : i < n) (hj : j < n) :
    splitPos (arrayToType n solution) i j = some (solution i j) := by
  simp [splitPos, arrayToType, hi, hj]

theorem helper_single (C : Chain E n) (solution : List (List Nat)) (hi : i < n) :
    C.multiplyMatricesHelper solution i i = some (C.single ⟨i, hi⟩) := by
  rw [Chain.multiplyMatricesHelper, dif_pos hi, dif_pos rfl]

theorem helper_split (C : Chain E n) {solution : List (List Nat)} {k : Nat}
    (hs : splitPos solution i j = some k) (hik : i ≤ k) (hkj : k < j) (hj : j < n)
    {left : Partial E (C.size i) (C.size (k + 1))}
    {right : Partial E (C.size (k + 1)) (C.size (j + 1))}
    (hl : C.multiplyMatricesHelper solution i k = some left)
    (hr : C.multiplyMatricesHelper solution (k + 1) j = some right) :
    C.multiplyMatricesHelper solution i j =
      some (multiply C.commonType (C.pos (k + 1) (by omega)) left right) := by
  rw [Chain.multiplyMatricesHelper, dif_pos hj, dif_neg (by omega)]
  simp only [hs, dif_pos (And.intro hik hkj), hl, hr]
  rfl

theorem helper_eq (C : Chain E n) {solution : List (List Nat)} (s : SplitTable n)
    (hs : ∀ i j, i < j → j < n → splitPos solution i j = some (s.split i j))
    (hij : i ≤ j) (hj : j < n) :
    C.multiplyMatricesHelper solution i j =
      some (evaluate C (s.bracketing i j hij hj) hj) := by
  refine s.induction (P := fun i j => ∀ hij hj, C.multiplyMatricesHelper solution i j =
    some (evaluate C (s.bracketing i j hij hj) hj)) ?_ ?_ hij hj hij hj
  · intro i hi hii hi'
    rw [s.bracketing_self, helper_single C solution hi, evaluate]
  · intro i j hlt hj ihl ihr hij hj'
    have hp := s.proper i j hlt hj
    rw [s.bracketing_lt hlt hj, evaluate]
    exact helper_split C (hs i j hlt hj) hp.1 hp.2 hj (ihl hp.1 (hp.2.trans hj)) (ihr hp.2 hj)

theorem multiplyMatrices_evaluates (C : Chain E n) (hn : 2 ≤ n) :
    ∃ (t : Tables) (h : ∀ i j, i < j → j < n → Solved C.size t i j),
      resolved n C.size = some t ∧ (∀ i < n, t.cost i i = 0) ∧
      C.multiplyMatrices =
        some (evaluate C ((splits h).bracketing 0 (n - 1) (Nat.zero_le _) (by omega))
          (by omega)) := by
  obtain ⟨t, ht, hdiag, hsolved⟩ := resolve_ok (n := n) (by omega) C.size
  refine ⟨t, hsolved, ht, hdiag, ?_⟩
  rw [Chain.multiplyMatrices, if_pos (by omega), generateMatrixSize_eq, ht]
  exact helper_eq C (splits hsolved)
    (fun i j hij hj => splitPos_arrayToType (hij.trans hj) hj) _ (by omega)

section Values

variable {R : Type} [Semiring R] {height inner width : Nat}

def toMatrix (m : BasicMatrix R height width) : Matrix (Fin height) (Fin width) R :=
  Matrix.of m.value

def factor (C : Chain (uniform R) n) (i : Nat) :
    Matrix (Fin (C.size i)) (Fin (C.size (i + 1))) R :=
  if h : i < n then toMatrix (C.matrix ⟨i, h⟩) else 0

def times (C : Chain (uniform R) n) (i k j : Nat)
    (a : Matrix (Fin (C.size i)) (Fin (C.size k)) R)
    (b : Matrix (Fin (C.size k)) (Fin (C.size j)) R) :
    Matrix (Fin (C.size i)) (Fin (C.size j)) R :=
  a * b

theorem times_assoc (C : Chain (uniform R) n) (i k l j : Nat)
    (a : Matrix (Fin (C.size i)) (Fin (C.size k)) R)
    (b : Matrix (Fin (C.size k)) (Fin (C.size l)) R)
    (c : Matrix (Fin (C.size l)) (Fin (C.size j)) R) :
    times C i l j (times C i k l a b) c = times C i k j a (times C k l j b c) :=
  Matrix.mul_assoc a b c

theorem foldl_add_eq {ι : Type} (f : ι → R) (l : List ι) (a : R) :
    l.foldl (fun sum k => sum + f k) a = a + (l.map f).sum := by
  induction l generalizing a with
  | nil => simp
  | cons k l ih => rw [List.foldl_cons, ih, List.map_cons, List.sum_cons, add_assoc]

theorem foldl_tail_eq (hpos : 0 < inner) (f : Fin inner → R) :
    (List.finRange inner).tail.foldl (fun sum k => sum + f k) (f ⟨0, hpos⟩) = ∑ k, f k := by
  obtain ⟨m, rfl⟩ := Nat.exists_eq_add_one_of_ne_zero hpos.ne'
  rw [foldl_add_eq, Fin.sum_univ_def, List.finRange_succ, List.map_cons, List.sum_cons]
  rfl

theorem multiply_toMatrix (common : Unit) (hpos : 0 < inner)
    (left : Partial (uniform R) height inner) (right : Partial (uniform R) inner width) :
    toMatrix (R := R) (multiply common hpos left right).matrix =
      toMatrix (R := R) left.matrix * toMatrix (R := R) right.matrix := by
  ext a b
  rw [Matrix.mul_apply]
  exact foldl_tail_eq (R := R) hpos fun k =>
    toMatrix (R := R) left.matrix a k * toMatrix (R := R) right.matrix k b

theorem evaluate_toMatrix (C : Chain (uniform R) n) (t : Bracketing i j) (hj : j < n) :
    toMatrix (R := R) (evaluate C t hj).matrix = t.product (times C) (factor C) := by
  induction t with
  | leaf i =>
      rw [Bracketing.product, factor, dif_pos hj]
      rfl
  | @node i k j l r ihl ihr =>
      rw [evaluate, multiply_toMatrix, ihl, ihr]
      rfl

/-- Whatever the tables say, the result is the product from left to right. -/
theorem multiplyMatrices_eq_leftToRight (C : Chain (uniform R) n) (hn : 2 ≤ n) :
    ∃ p, C.multiplyMatrices = some p ∧
      toMatrix (R := R) p.matrix = leftToRight (times C) (factor C) (n - 1) := by
  obtain ⟨t, h, -, -, hrun⟩ := multiplyMatrices_evaluates C hn
  refine ⟨_, hrun, ?_⟩
  rw [evaluate_toMatrix]
  exact product_eq_leftToRight (times_assoc C) _

def ones (size : Nat → Nat) (hpos : ∀ i, 0 < size i) (n : Nat) : Chain (uniform ℕ) n where
  size := size
  pos i _ := hpos i
  element _ := ()
  matrix _ := ⟨fun _ _ => (1 : ℕ)⟩

theorem multiplyMatrices_eq_leftToRight_ones :
    ∃ p, (ones (fun _ => 2) (fun _ => Nat.two_pos) 4).multiplyMatrices = some p ∧
      toMatrix (R := ℕ) p.matrix = Matrix.of fun _ _ => 8 := by
  obtain ⟨p, hp, h⟩ :=
    multiplyMatrices_eq_leftToRight (ones (fun _ => 2) (fun _ => Nat.two_pos) 4) (by decide)
  refine ⟨p, hp, h.trans ?_⟩
  ext a b
  rfl

end Values

section Costs

def weight (sizes : Nat → Nat) (i k j : Nat) : Nat := sizes i * sizes (k + 1) * sizes (j + 1)

theorem evaluate_multiplications (C : Chain E n) (t : Bracketing i j) (hj : j < n) :
    (evaluate C t hj).multiplications = t.cost (weight C.size) := by
  induction t with
  | leaf i => rfl
  | node l r ihl ihr =>
      rw [evaluate, multiply, Bracketing.cost, ihl, ihr]
      rfl

def Fits (sizes : Nat → Nat) (cost : Nat → Nat → Nat) (i k j : Nat) : Prop :=
  sizes i * sizes (k + 1) < 2 ^ 64 ∧ sizes i * sizes (k + 1) * sizes (j + 1) < 2 ^ 64 ∧
    cost i k + cost (k + 1) j < 2 ^ 64 ∧
    cost i k + cost (k + 1) j + sizes i * sizes (k + 1) * sizes (j + 1) < 2 ^ 64

instance (sizes : Nat → Nat) (cost : Nat → Nat → Nat) (i k j : Nat) :
    Decidable (Fits sizes cost i k j) :=
  inferInstanceAs (Decidable (_ ∧ _))

/-- Nothing that `resolve` forms wraps. Every entry is final before it is
read, so the finished table names the operands of each comparison. -/
def NoOverflow (n : Nat) (sizes : Nat → Nat) : Prop :=
  ∀ t, resolved n sizes = some t → ∀ j < n, ∀ k < j, ∀ i ≤ k, Fits sizes t.cost i k j

instance (n : Nat) (sizes : Nat → Nat) : Decidable (NoOverflow n sizes) :=
  decidable_of_iff ((resolved n sizes).all fun t =>
    decide (∀ j < n, ∀ k < j, ∀ i ≤ k, Fits sizes t.cost i k j)) (by
      simp only [NoOverflow, Option.all_eq_true, decide_eq_true_eq])

theorem candidate_eq {sizes : Nat → Nat} {t : Tables} (hno : NoOverflow n sizes)
    (ht : resolved n sizes = some t) {k : Nat} (hik : i ≤ k) (hkj : k < j) (hj : j < n) :
    candidate sizes t.cost i k j = t.cost i k + t.cost (k + 1) j + weight sizes i k j := by
  obtain ⟨h1, h2, h3, h4⟩ := hno t ht j hj k hkj i hik
  rw [candidate, sizeAdd_eq h3, sizeMul_eq h1, sizeMul_eq h2, sizeAdd_eq h4, weight]

/-- The multiplications made are the cost that `resolve` found, and no other
bracketing needs fewer. -/
theorem multiplyMatrices_optimal (C : Chain E n) (hn : 2 ≤ n) (hno : NoOverflow n C.size) :
    ∃ t p, resolved n C.size = some t ∧ C.multiplyMatrices = some p ∧
      p.multiplications = t.cost 0 (n - 1) ∧
      ∀ b : Bracketing 0 (n - 1), p.multiplications ≤ b.cost (weight C.size) := by
  obtain ⟨t, h, ht, hdiag, hrun⟩ := multiplyMatrices_evaluates C hn
  have hsplit (i j : Nat) (hij : i < j) (hj : j < n) := (h i j hij hj).cost_eq.trans
    (candidate_eq hno ht (h i j hij hj).proper.1 (h i j hij hj).proper.2 hj)
  have hle (i k j : Nat) (hik : i ≤ k) (hkj : k < j) (hj : j < n) :=
    ((h i j (hik.trans_lt hkj) hj).cost_le k hik hkj).trans
      (candidate_eq hno ht hik hkj hj).le
  refine ⟨t, _, ht, hrun, ?_, fun b => ?_⟩
  · rw [evaluate_multiplications]
    exact (splits h).bracketing_cost hdiag hsplit _ _
  · rw [evaluate_multiplications]
    exact (isLeast_cost (splits h) hdiag hsplit hle _ _).2 ⟨b, rfl⟩

def testSizes (i : Nat) : Nat := [30, 35, 15, 5].getD i 1

theorem testSizes_pos (i : Nat) : 0 < testSizes i := by
  match i with
  | 0 | 1 | 2 | 3 => decide
  | _ + 4 => exact Nat.one_pos

theorem multiplyMatrices_optimal_test :
    ∃ t p, resolved 3 testSizes = some t ∧
      (ones testSizes testSizes_pos 3).multiplyMatrices = some p ∧
      p.multiplications = t.cost 0 2 ∧
      ∀ b : Bracketing 0 2, p.multiplications ≤ b.cost (weight testSizes) :=
  multiplyMatrices_optimal (ones testSizes testSizes_pos 3) (by decide)
    (by decide : NoOverflow 3 testSizes)

end Costs

end Lzhlib.ChainProducts
