import Mathlib.Order.Bounds.Basic

namespace Lzhlib.Bracketings

variable {i j n : Nat}

/-- The full bracketings of the factors `i` to `j` of a chain. -/
inductive Bracketing : Nat → Nat → Type
  | leaf (i : Nat) : Bracketing i i
  | node {i k j : Nat} (l : Bracketing i k) (r : Bracketing (k + 1) j) : Bracketing i j

theorem Bracketing.le (t : Bracketing i j) : i ≤ j := by
  induction t with
  | leaf i => exact le_rfl
  | node l r ihl ihr => omega

theorem Bracketing.eq_leaf (t : Bracketing i i) : t = .leaf i := by
  cases t with
  | leaf => rfl
  | node l r => exact absurd r.le (by have := l.le; omega)

def Bracketing.leaves : {i j : Nat} → Bracketing i j → List Nat
  | _, _, .leaf i => [i]
  | _, _, .node l r => l.leaves ++ r.leaves

theorem Bracketing.leaves_eq (t : Bracketing i j) : t.leaves = List.range' i (j + 1 - i) := by
  induction t with
  | leaf i => rw [leaves, Nat.add_sub_cancel_left, List.range'_one]
  | @node i k j l r ihl ihr =>
      have hl := l.le
      have hr := r.le
      have hlen : j + 1 - i = k + 1 - i + (j + 1 - (k + 1)) := by omega
      have hstart : k + 1 = i + (k + 1 - i) := by omega
      rw [leaves, ihl, ihr, hlen, ← List.range'_append_1, ← hstart]

/-- Every inner node `(i..k)(k+1..j)` is charged its weight. -/
def Bracketing.cost (weight : Nat → Nat → Nat → Nat) : {i j : Nat} → Bracketing i j → Nat
  | _, _, .leaf _ => 0
  | _, _, @Bracketing.node i k j l r => l.cost weight + r.cost weight + weight i k j

section Products

variable {M : Nat → Nat → Type} (mul : ∀ i k j, M i k → M k j → M i j) (factor : ∀ i, M i (i + 1))

def Bracketing.product : {i j : Nat} → Bracketing i j → M i (j + 1)
  | _, _, .leaf i => factor i
  | _, _, @Bracketing.node i k j l r => mul i (k + 1) (j + 1) l.product r.product

def leftToRight : (j : Nat) → M 0 (j + 1)
  | 0 => factor 0
  | j + 1 => mul 0 (j + 1) (j + 2) (leftToRight j) (factor (j + 1))

variable {mul factor}

theorem leftToRight_mul_product
    (assoc : ∀ i k l j (a : M i k) (b : M k l) (c : M l j),
      mul i l j (mul i k l a b) c = mul i k j a (mul k l j b c)) :
    {i j : Nat} → (t : Bracketing (i + 1) j) →
      mul 0 (i + 1) (j + 1) (leftToRight mul factor i) (t.product mul factor) =
        leftToRight mul factor j
  | _, _, .leaf _ => rfl
  | _, _, .node l r => by
      rw [Bracketing.product, ← assoc, leftToRight_mul_product assoc l,
        leftToRight_mul_product assoc r]

theorem product_eq_leftToRight
    (assoc : ∀ i k l j (a : M i k) (b : M k l) (c : M l j),
      mul i l j (mul i k l a b) c = mul i k j a (mul k l j b c)) :
    {j : Nat} → (t : Bracketing 0 j) → t.product mul factor = leftToRight mul factor j
  | _, .leaf _ => rfl
  | _, .node l r => by
      rw [Bracketing.product, product_eq_leftToRight assoc l, leftToRight_mul_product assoc r]

end Products

/-- A table that cuts every range of the chain into two shorter ones. -/
structure SplitTable (n : Nat) where
  split : Nat → Nat → Nat
  proper : ∀ i j, i < j → j < n → i ≤ split i j ∧ split i j < j

def SplitTable.bracketing (s : SplitTable n) (i j : Nat) (hij : i ≤ j) (hj : j < n) :
    Bracketing i j :=
  if h : i = j then h ▸ .leaf i
  else
    have hs := s.proper i j (by omega) hj
    .node (s.bracketing i (s.split i j) hs.1 (by omega))
      (s.bracketing (s.split i j + 1) j hs.2 hj)
termination_by j - i

theorem SplitTable.bracketing_self (s : SplitTable n) (hij : i ≤ i) (hi : i < n) :
    s.bracketing i i hij hi = .leaf i := by
  rw [SplitTable.bracketing, dif_pos rfl]

theorem SplitTable.bracketing_lt (s : SplitTable n) (hij : i < j) (hj : j < n) :
    s.bracketing i j hij.le hj =
      .node (s.bracketing i (s.split i j) (s.proper i j hij hj).1
          ((s.proper i j hij hj).2.trans hj))
        (s.bracketing (s.split i j + 1) j (s.proper i j hij hj).2 hj) := by
  rw [SplitTable.bracketing, dif_neg hij.ne]

theorem SplitTable.induction (s : SplitTable n) {P : Nat → Nat → Prop}
    (leaf : ∀ i < n, P i i)
    (node : ∀ i j, i < j → j < n → P i (s.split i j) → P (s.split i j + 1) j → P i j)
    (hij : i ≤ j) (hj : j < n) : P i j := by
  induction hlen : j - i using Nat.strong_induction_on generalizing i j with
  | _ len ih =>
      obtain rfl | hlt := hij.eq_or_lt
      · exact leaf i hj
      · have hs := s.proper i j hlt hj
        exact node i j hlt hj (ih _ (by omega) hs.1 (by omega) rfl) (ih _ (by omega) hs.2 hj rfl)

section Costs

variable {weight : Nat → Nat → Nat → Nat} {c : Nat → Nat → Nat}

theorem SplitTable.bracketing_cost (s : SplitTable n) (hself : ∀ i < n, c i i = 0)
    (hsplit : ∀ i j, i < j → j < n →
      c i j = c i (s.split i j) + c (s.split i j + 1) j + weight i (s.split i j) j)
    (hij : i ≤ j) (hj : j < n) : (s.bracketing i j hij hj).cost weight = c i j := by
  refine s.induction
    (P := fun i j => ∀ hij hj, (s.bracketing i j hij hj).cost weight = c i j)
    ?_ ?_ hij hj hij hj
  · intro i hi hij hi'
    rw [s.bracketing_self, hself i hi, Bracketing.cost]
  · intro i j hlt hj ihl ihr hij hj'
    rw [s.bracketing_lt hlt hj, Bracketing.cost, ihl, ihr, hsplit i j hlt hj]

theorem le_cost (hself : ∀ i < n, c i i = 0)
    (hle : ∀ i k j, i ≤ k → k < j → j < n → c i j ≤ c i k + c (k + 1) j + weight i k j)
    (t : Bracketing i j) (hj : j < n) : c i j ≤ t.cost weight := by
  induction t with
  | leaf i => exact (hself i hj).le
  | node l r ihl ihr =>
      have hk := r.le
      have hl := ihl (by omega)
      have hr := ihr hj
      have hsum := hle _ _ _ l.le hk hj
      rw [Bracketing.cost]
      omega

/-- Optimal substructure: the cuts of a table that is optimal cut by cut are
optimal among all bracketings. -/
theorem isLeast_cost (s : SplitTable n) (hself : ∀ i < n, c i i = 0)
    (hsplit : ∀ i j, i < j → j < n →
      c i j = c i (s.split i j) + c (s.split i j + 1) j + weight i (s.split i j) j)
    (hle : ∀ i k j, i ≤ k → k < j → j < n → c i j ≤ c i k + c (k + 1) j + weight i k j)
    (hij : i ≤ j) (hj : j < n) :
    IsLeast (Set.range fun t : Bracketing i j => t.cost weight)
      ((s.bracketing i j hij hj).cost weight) := by
  refine ⟨⟨_, rfl⟩, ?_⟩
  rintro _ ⟨t, rfl⟩
  rw [s.bracketing_cost hself hsplit]
  exact le_cost hself hle t hj

end Costs

end Lzhlib.Bracketings
