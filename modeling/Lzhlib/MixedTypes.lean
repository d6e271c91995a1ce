import Mathlib.Data.ZMod.Basic
import Mathlib.Tactic.Abel
import Lzhlib.ChainProducts

namespace Lzhlib.MixedTypes

open Bracketings Machine ResolveMult MultiplyMatrices ChainProducts

inductive Unsigned
  | u32
  | u64
  deriving DecidableEq

def Unsigned.bits : Unsigned → Nat
  | .u32 => 32
  | .u64 => 64

def Unsigned.wider : Unsigned → Unsigned → Unsigned
  | .u32, .u32 => .u32
  | _, _ => .u64

/-- The operands of an operator are brought to the wider of their types, in
which the result wraps, and that is their common type too. -/
def unsigned : Arithmetic Unsigned where
  Val t := BitVec t.bits
  common := Unsigned.wider
  usual := Unsigned.wider
  mul x y := BitVec.setWidth _ x * BitVec.setWidth _ y
  add x y := BitVec.setWidth _ x + BitVec.setWidth _ y
  convert c x := BitVec.setWidth c.bits x

section Words

variable {s t c : Unsigned}

def toNat (x : unsigned.Val t) : Nat := BitVec.toNat x

theorem toNat_lt (x : unsigned.Val t) : toNat x < 2 ^ t.bits := BitVec.isLt _

theorem toNat_convert (x : unsigned.Val t) :
    toNat (unsigned.convert c x) = toNat x % 2 ^ c.bits := BitVec.toNat_setWidth ..

theorem toNat_mul (x : unsigned.Val s) (y : unsigned.Val t) :
    toNat (unsigned.mul x y) = toNat x * toNat y % 2 ^ (s.wider t).bits := by
  have h : toNat (unsigned.mul x y) = toNat (unsigned.convert (s.wider t) x) *
      toNat (unsigned.convert (s.wider t) y) % 2 ^ (s.wider t).bits := BitVec.toNat_mul _ _
  rw [h, toNat_convert, toNat_convert, ← Nat.mul_mod]

theorem toNat_add (x : unsigned.Val s) (y : unsigned.Val t) :
    toNat (unsigned.add x y) = (toNat x + toNat y) % 2 ^ (s.wider t).bits := by
  have h : toNat (unsigned.add x y) = (toNat (unsigned.convert (s.wider t) x) +
      toNat (unsigned.convert (s.wider t) y)) % 2 ^ (s.wider t).bits := BitVec.toNat_add _ _
  rw [h, toNat_convert, toNat_convert, ← Nat.add_mod]

theorem wider_self (t : Unsigned) : t.wider t = t := by cases t <;> rfl

theorem wider_comm (s t : Unsigned) : s.wider t = t.wider s := by cases s <;> cases t <;> rfl

theorem wider_assoc (s t c : Unsigned) : (s.wider t).wider c = s.wider (t.wider c) := by
  cases s <;> cases t <;> cases c <;> rfl

theorem bits_le_wider (s t : Unsigned) : s.bits ≤ (s.wider t).bits := by
  cases s <;> cases t <;> decide

def highPart (s t c : Unsigned) (x y : Nat) : Nat := if s.wider t = c then 0 else x * y / 2 ^ 32

theorem mul_add_highPart (h : (s.wider t).wider c = c) (x : unsigned.Val s) (y : unsigned.Val t) :
    (toNat (unsigned.mul x y) : ZMod (2 ^ c.bits)) + 2 ^ 32 * highPart s t c (toNat x) (toNat y) =
      toNat x * toNat y := by
  rw [toNat_mul, highPart]
  split_ifs with hc
  · subst hc
    simp
  · have hs : s.wider t = .u32 := by
      cases hs : s.wider t <;> cases c <;> simp_all [Unsigned.wider]
    rw [hs]
    have hsplit : toNat x * toNat y % 2 ^ Unsigned.u32.bits + 2 ^ 32 * (toNat x * toNat y / 2 ^ 32) =
        toNat x * toNat y := Nat.mod_add_div _ _
    exact_mod_cast congrArg (Nat.cast : ℕ → ZMod (2 ^ c.bits)) hsplit

theorem convert_add (x : unsigned.Val c) (y : unsigned.Val t) :
    (toNat (unsigned.convert c (unsigned.add x y)) : ZMod (2 ^ c.bits)) = toNat x + toNat y := by
  rw [toNat_convert, toNat_add,
    Nat.mod_mod_of_dvd _ (Nat.pow_dvd_pow 2 (bits_le_wider c t)), ZMod.natCast_mod]
  exact Nat.cast_add _ _

end Words

section Sums

variable {height inner width : Nat}

def residues (N : Nat) (p : Partial unsigned height width) :
    Matrix (Fin height) (Fin width) (ZMod N) :=
  Matrix.of fun a b => (toNat (p.matrix.value a b) : ZMod N)

theorem multiply_residues (c : Unsigned) (hpos : 0 < inner) (left : Partial unsigned height inner)
    (right : Partial unsigned inner width) (a : Fin height) (b : Fin width) :
    residues (2 ^ c.bits) (multiply c hpos left right) a b =
      ∑ k, (toNat (unsigned.mul (left.matrix.value a k) (right.matrix.value k b)) :
        ZMod (2 ^ c.bits)) := by
  rw [← foldl_tail_eq hpos]
  have hstart : (toNat (unsigned.convert c (unsigned.mul (left.matrix.value a ⟨0, hpos⟩)
      (right.matrix.value ⟨0, hpos⟩ b))) : ZMod (2 ^ c.bits)) =
      toNat (unsigned.mul (left.matrix.value a ⟨0, hpos⟩) (right.matrix.value ⟨0, hpos⟩ b)) := by
    rw [toNat_convert, ZMod.natCast_mod]
  rw [← hstart]
  exact (List.foldl_hom (fun x : unsigned.Val c => (toNat x : ZMod (2 ^ c.bits)))
    fun sum k => (convert_add sum _).symm).symm

def highParts (c : Unsigned) (left : Partial unsigned height inner)
    (right : Partial unsigned inner width) : Matrix (Fin height) (Fin width) ℕ :=
  Matrix.of fun a b => ∑ k, highPart left.element right.element c
    (toNat (left.matrix.value a k)) (toNat (right.matrix.value k b))

theorem multiply_add_highParts {c : Unsigned} {left : Partial unsigned height inner}
    {right : Partial unsigned inner width} (h : (left.element.wider right.element).wider c = c)
    (hpos : 0 < inner) :
    residues (2 ^ c.bits) (multiply c hpos left right) +
        (2 ^ 32 : ZMod (2 ^ c.bits)) • (highParts c left right).map (Nat.castRingHom _) =
      residues (2 ^ c.bits) left * residues (2 ^ c.bits) right := by
  ext a b
  rw [Matrix.add_apply, multiply_residues, Matrix.mul_apply, Matrix.smul_apply, Matrix.map_apply,
    highParts, Matrix.of_apply, map_sum, smul_eq_mul, Finset.mul_sum, ← Finset.sum_add_distrib]
  apply Finset.sum_congr rfl
  intro k _
  exact mul_add_highPart h _ _

end Sums

section Loss

variable {R : Type} [CommRing R] {l m n : Type} [Fintype m] {q : R}

theorem mul_losses (hq : q * q = 0) {p h : Matrix l n R} {x a u : Matrix l m R}
    {y b v : Matrix m n R} (hx : x + q • u = a) (hy : y + q • v = b) (hp : p + q • h = x * y) :
    p + q • (u * b + a * v + h) = a * b := by
  have hp' : p = x * y - q • h := eq_sub_of_add_eq hp
  subst hx hy hp'
  simp only [Matrix.add_mul, Matrix.mul_add, Matrix.smul_mul, Matrix.mul_smul, smul_add, smul_smul,
    hq, zero_smul]
  abel

end Loss

variable {n i j k : Nat} {C : Chain unsigned n}

def converted (C : Chain unsigned n) (i : Nat) : Matrix (Fin (C.size i)) (Fin (C.size (i + 1))) ℕ :=
  if h : i < n then
    Matrix.of fun a b => toNat (unsigned.convert C.commonType ((C.matrix ⟨i, h⟩).value a b))
  else 0

def natTimes (size : Nat → Nat) (i k j : Nat) (a : Matrix (Fin (size i)) (Fin (size k)) ℕ)
    (b : Matrix (Fin (size k)) (Fin (size j)) ℕ) : Matrix (Fin (size i)) (Fin (size j)) ℕ :=
  a * b

theorem natTimes_assoc (size : Nat → Nat) (i k l j : Nat)
    (a : Matrix (Fin (size i)) (Fin (size k)) ℕ) (b : Matrix (Fin (size k)) (Fin (size l)) ℕ)
    (c : Matrix (Fin (size l)) (Fin (size j)) ℕ) :
    natTimes size i l j (natTimes size i k l a b) c =
      natTimes size i k j a (natTimes size k l j b c) :=
  Matrix.mul_assoc a b c

/-- The call returns the product of the converted factors modulo `2 ^ w`, with
`w` the width of their common type. -/
def ConvertsFirst (C : Chain unsigned n) : Prop :=
  ∃ p, C.multiplyMatrices = some p ∧ p.element = C.commonType ∧ ∀ a b,
    toNat (p.matrix.value a b) =
      leftToRight (natTimes C.size) (converted C) (n - 1) a b % 2 ^ C.commonType.bits

/-- The factors `i` and `i + 1` are multiplied in a narrower type than the chain's. -/
def Narrow (C : Chain unsigned n) (i : Nat) : Prop :=
  C.element i = .u32 ∧ C.element (i + 1) = .u32 ∧ C.commonType = .u64

instance (C : Chain unsigned n) (i : Nat) : Decidable (Narrow C i) :=
  inferInstanceAs (Decidable (_ ∧ _))

def trueProduct (C : Chain unsigned n) (t : Bracketing i j) :
    Matrix (Fin (C.size i)) (Fin (C.size (j + 1))) ℕ :=
  t.product (natTimes C.size) (converted C)

theorem trueProduct_leaf (C : Chain unsigned n) (i : Nat) :
    trueProduct C (.leaf i) = converted C i := rfl

theorem trueProduct_eq (C : Chain unsigned n) (t : Bracketing 0 j) :
    trueProduct C t = leftToRight (natTimes C.size) (converted C) j :=
  product_eq_leftToRight (natTimes_assoc C.size) t

/-- The multiples of `2 ^ 32` that the product loses: those of every pair of
narrow neighbours, multiplied with the rest of the chain. -/
def lost (C : Chain unsigned n) : {i j : Nat} → Bracketing i j →
    Matrix (Fin (C.size i)) (Fin (C.size (j + 1))) ℕ
  | _, _, .leaf _ => 0
  | _, _, @Bracketing.node i k j l r =>
      lost C l * trueProduct C r + trueProduct C l * lost C r +
        if i = k ∧ k + 1 = j ∧ Narrow C i then
          Matrix.of fun a b => ∑ s, trueProduct C l a s * trueProduct C r s b / 2 ^ 32
        else 0

theorem lost_leaf (C : Chain unsigned n) (i : Nat) : lost C (.leaf i) = 0 := rfl

section CommonType

theorem wider_foldl (f : Nat → Unsigned) (l : List Nat) (a : Unsigned) :
    a.wider (l.foldl (fun t i => t.wider (f i)) a) = l.foldl (fun t i => t.wider (f i)) a ∧
      ∀ i ∈ l, (f i).wider (l.foldl (fun t i => t.wider (f i)) a) =
        l.foldl (fun t i => t.wider (f i)) a := by
  induction l generalizing a with
  | nil => exact ⟨wider_self a, by simp⟩
  | cons i l ih =>
      obtain ⟨hacc, hl⟩ := ih (a.wider (f i))
      rw [List.foldl_cons]
      refine ⟨?_, fun k hk => ?_⟩
      · rw [← hacc, ← wider_assoc, ← wider_assoc, wider_self]
      · obtain rfl | hk := List.mem_cons.mp hk
        · rw [← hacc, wider_comm a, ← wider_assoc, ← wider_assoc, wider_self]
        · exact hl k hk

theorem element_wider (C : Chain unsigned n) (hi : i < n) :
    (C.element i).wider C.commonType = C.commonType := by
  obtain ⟨hzero, hsucc⟩ := wider_foldl (fun i => C.element (i + 1)) (List.range (n - 1)) (C.element 0)
  cases i with
  | zero => exact hzero
  | succ i => exact hsucc i (List.mem_range.mpr (by omega))

theorem evaluate_wider (C : Chain unsigned n) (t : Bracketing i j) (hj : j < n) :
    (evaluate C t hj).element.wider C.commonType = C.commonType := by
  cases t with
  | leaf => exact element_wider C hj
  | node => exact wider_self _

theorem converted_apply (C : Chain unsigned n) (hi : i < n) (a : Fin (C.size i))
    (b : Fin (C.size (i + 1))) : converted C i a b = toNat ((C.matrix ⟨i, hi⟩).value a b) := by
  have hbits : (C.element i).bits ≤ C.commonType.bits := by
    rw [← element_wider C hi]
    exact bits_le_wider _ _
  rw [converted, dif_pos hi, Matrix.of_apply, toNat_convert]
  exact Nat.mod_eq_of_lt ((toNat_lt _).trans_le (Nat.pow_le_pow_right Nat.two_pos hbits))

end CommonType

section Evaluation

theorem highParts_eq_zero {height inner width : Nat} {c : Unsigned}
    {left : Partial unsigned height inner} {right : Partial unsigned inner width}
    (h : left.element.wider right.element = c) : highParts c left right = 0 := by
  ext a b
  simp [highParts, highPart, h]

theorem narrow_or_wider (C : Chain unsigned n) (hi : i + 1 < n) :
    Narrow C i ∨ (C.element i).wider (C.element (i + 1)) = C.commonType := by
  have hleft := element_wider C (Nat.lt_of_succ_lt hi)
  have hright := element_wider C hi
  rw [Narrow]
  revert hleft hright
  cases C.element i <;> cases C.element (i + 1) <;> cases C.commonType <;> simp [Unsigned.wider]

theorem highParts_evaluate (C : Chain unsigned n) (l : Bracketing i k) (r : Bracketing (k + 1) j)
    (hk : k < n) (hj : j < n) :
    highParts C.commonType (evaluate C l hk) (evaluate C r hj) =
      if i = k ∧ k + 1 = j ∧ Narrow C i then
        Matrix.of fun a b => ∑ s, trueProduct C l a s * trueProduct C r s b / 2 ^ 32
      else 0 := by
  have hwide := evaluate_wider C r hj
  have hwide' := evaluate_wider C l hk
  cases l with
  | node l l' =>
      rw [if_neg (by have := l.le; have := l'.le; omega)]
      exact highParts_eq_zero ((wider_comm _ _).trans hwide)
  | leaf i =>
      cases r with
      | node r r' =>
          rw [if_neg (by have := r.le; have := r'.le; omega)]
          exact highParts_eq_zero hwide'
      | leaf =>
          obtain hnarrow | hcommon := narrow_or_wider C hj
          · rw [if_pos ⟨rfl, rfl, hnarrow⟩]
            ext a b
            rw [highParts, Matrix.of_apply, Matrix.of_apply]
            apply Finset.sum_congr rfl
            intro s _
            rw [trueProduct, trueProduct, Bracketing.product, Bracketing.product,
              converted_apply C hk, converted_apply C hj]
            have hne : (C.element i).wider (C.element (i + 1)) ≠ C.commonType := by
              rw [hnarrow.1, hnarrow.2.1, hnarrow.2.2]
              decide
            exact if_neg hne
          · rw [highParts_eq_zero hcommon, if_neg]
            rintro ⟨-, -, hs, ht, hc⟩
            rw [hs, ht, hc] at hcommon
            cases hcommon

theorem square_eq_zero (c : Unsigned) : (2 ^ 32 : ZMod (2 ^ c.bits)) * 2 ^ 32 = 0 := by
  cases c <;> decide

theorem evaluate_add_lost (C : Chain unsigned n) (t : Bracketing i j) (hj : j < n) :
    residues (2 ^ C.commonType.bits) (evaluate C t hj) +
        (2 ^ 32 : ZMod (2 ^ C.commonType.bits)) • (lost C t).map (Nat.castRingHom _) =
      (trueProduct C t).map (Nat.castRingHom _) := by
  induction t with
  | leaf i =>
      ext a b
      simp [lost, trueProduct, Bracketing.product, converted_apply C hj, residues, evaluate,
        Chain.single]
  | @node i k j l r ihl ihr =>
      have hk := r.le.trans_lt hj
      have hwide : ((evaluate C l (Nat.lt_of_succ_lt hk)).element.wider
          (evaluate C r hj).element).wider C.commonType = C.commonType := by
        rw [wider_assoc, evaluate_wider, evaluate_wider]
      have hp := multiply_add_highParts hwide (C.pos (k + 1) hk.le)
      rw [highParts_evaluate] at hp
      have hsum := mul_losses (square_eq_zero _) (ihl (Nat.lt_of_succ_lt hk)) (ihr hj) hp
      have hprod : trueProduct C (.node l r) = trueProduct C l * trueProduct C r := rfl
      rw [hprod, lost, evaluate, Matrix.map_mul, ← hsum]
      simp only [Matrix.map_add, Matrix.map_mul, map_add, implies_true]

end Evaluation

section Tables

def Follows (solution : Nat → Nat → Nat) : {i j : Nat} → Bracketing i j → Prop
  | _, _, .leaf _ => True
  | _, _, @Bracketing.node i k j l r => solution i j = k ∧ Follows solution l ∧ Follows solution r

theorem bracketing_follows (s : SplitTable n) (hij : i ≤ j) (hj : j < n) :
    Follows s.split (s.bracketing i j hij hj) := by
  refine s.induction (P := fun i j => ∀ hij hj, Follows s.split (s.bracketing i j hij hj))
    ?_ ?_ hij hj hij hj
  · intro i hi hij hi'
    rw [s.bracketing_self]
    trivial
  · intro i j hlt hj ihl ihr hij hj'
    rw [s.bracketing_lt hlt hj]
    exact ⟨rfl, ihl _ _, ihr _ _⟩

theorem Follows.unique {solution : Nat → Nat → Nat} {t t' : Bracketing i j} (h : Follows solution t)
    (h' : Follows solution t') : t = t' := by
  induction t with
  | leaf i => exact t'.eq_leaf.symm
  | node l r ihl ihr =>
      obtain ⟨hs, hl, hr⟩ := h
      cases t' with
      | leaf => exact absurd r.le (by have := l.le; omega)
      | node l' r' =>
          obtain ⟨hs', hl', hr'⟩ := h'
          cases hs.symm.trans hs'
          rw [ihl hl hl', ihr hr hr']

def Pairs : {i j : Nat} → Bracketing i j → Nat → Prop
  | _, _, .leaf _, _ => False
  | _, _, @Bracketing.node i k j l r, p => i = p ∧ k = p ∧ j = p + 1 ∨ Pairs l p ∨ Pairs r p

theorem Pairs.bounds {t : Bracketing i j} {p : Nat} (h : Pairs t p) : i ≤ p ∧ p + 1 ≤ j := by
  induction t with
  | leaf => exact h.elim
  | node l r ihl ihr =>
      have hl := l.le
      have hr := r.le
      obtain h | h | h := h
      · omega
      · have hb := ihl h
        omega
      · have hb := ihr h
        omega

end Tables

section Losses

def Fits (C : Chain unsigned n) (t : Bracketing i j) : Prop :=
  ∀ p, Pairs t p → Narrow C p → ∀ a s b,
    converted C p a s * converted C (p + 1) s b < 2 ^ 32

theorem lost_eq_zero {t : Bracketing i j} (h : Fits C t) : lost C t = 0 := by
  induction t with
  | leaf => rfl
  | @node i k j l r ihl ihr =>
      rw [lost, ihl fun p hp => h p (Or.inr (Or.inl hp)), ihr fun p hp => h p (Or.inr (Or.inr hp)),
        Matrix.zero_mul, Matrix.mul_zero, add_zero, zero_add]
      split_ifs with hpair
      · obtain ⟨rfl, rfl, hnarrow⟩ := hpair
        have hfits := h i (Or.inl ⟨rfl, rfl, rfl⟩) hnarrow
        rw [l.eq_leaf, r.eq_leaf]
        ext a b
        rw [Matrix.of_apply, trueProduct_leaf, trueProduct_leaf]
        exact Finset.sum_eq_zero fun s _ => Nat.div_eq_of_lt (hfits a s b)
      · rfl

end Losses

def refill (C : Chain unsigned n) (m : (i : Fin n) →
    BasicMatrix (unsigned.Val (C.element i)) (C.size i) (C.size (i.val + 1))) : Chain unsigned n :=
  { C with matrix := m }

section Calls

theorem multiplyMatrices_follows (C : Chain unsigned n) (hn : 2 ≤ n) :
    ∃ (tables : Tables) (t : Bracketing 0 (n - 1)) (hlast : n - 1 < n),
      resolved n C.size = some tables ∧ Follows tables.solution t ∧
        ∀ m, (refill C m).multiplyMatrices = some (evaluate (refill C m) t hlast) := by
  obtain ⟨tables, h, htables, -, -⟩ := multiplyMatrices_evaluates C hn
  refine ⟨tables, (splits h).bracketing 0 (n - 1) (Nat.zero_le _) (by omega), by omega, htables,
    bracketing_follows (splits h) _ _, fun m => ?_⟩
  obtain ⟨tables', h', htables', -, hrun⟩ := multiplyMatrices_evaluates (refill C m) hn
  cases htables.symm.trans htables'
  exact hrun

theorem evaluate_element (C : Chain unsigned n) (t : Bracketing i j) (hij : i < j) (hj : j < n) :
    (evaluate C t hj).element = C.commonType := by
  cases t with
  | leaf => exact absurd hij (lt_irrefl _)
  | node => rfl

theorem evaluate_entry_iff (C : Chain unsigned n) (t : Bracketing i j) (hij : i < j) (hj : j < n)
    (a : Fin (C.size i)) (b : Fin (C.size (j + 1))) :
    toNat ((evaluate C t hj).matrix.value a b) = trueProduct C t a b % 2 ^ C.commonType.bits ↔
      2 ^ 32 ∣ lost C t a b := by
  have hlt : toNat ((evaluate C t hj).matrix.value a b) < 2 ^ C.commonType.bits :=
    (toNat_lt _).trans_eq (by rw [evaluate_element C t hij])
  have hsum : (toNat ((evaluate C t hj).matrix.value a b) : ZMod (2 ^ C.commonType.bits)) +
      ((2 ^ 32 * lost C t a b : ℕ) : ZMod (2 ^ C.commonType.bits)) = trueProduct C t a b := by
    rw [Nat.cast_mul, Nat.cast_pow, Nat.cast_ofNat]
    exact congrFun (congrFun (evaluate_add_lost C t hj) a) b
  have hentry : toNat ((evaluate C t hj).matrix.value a b) =
      trueProduct C t a b % 2 ^ C.commonType.bits ↔
      2 ^ C.commonType.bits ∣ 2 ^ 32 * lost C t a b := by
    rw [← Nat.mod_eq_of_lt hlt, ← ZMod.natCast_eq_natCast_iff', ← hsum, left_eq_add,
      ZMod.natCast_eq_zero_iff]
  rw [hentry]
  cases hc : C.commonType with
  | u64 =>
      have hbits : 2 ^ Unsigned.u64.bits = 2 ^ 32 * 2 ^ 32 := by decide
      rw [hbits, Nat.mul_dvd_mul_iff_left (by decide : 0 < 2 ^ 32)]
  | u32 =>
      have hzero : lost C t = 0 := lost_eq_zero fun p _ hp => by
        rw [hp.2.2] at hc
        cases hc
      rw [hzero]
      exact iff_of_true (Dvd.intro _ rfl) (dvd_zero _)

theorem convertsFirst_iff_lost (C : Chain unsigned n) (hn : 2 ≤ n) {t : Bracketing 0 (n - 1)}
    {hlast : n - 1 < n} (hrun : C.multiplyMatrices = some (evaluate C t hlast)) :
    ConvertsFirst C ↔ ∀ a b, 2 ^ 32 ∣ lost C t a b := by
  have hentry := evaluate_entry_iff C t (by omega) hlast
  rw [trueProduct_eq] at hentry
  constructor
  · rintro ⟨p, hp, -, hval⟩ a b
    cases hrun.symm.trans hp
    exact (hentry a b).mp (hval a b)
  · intro hlost
    exact ⟨_, hrun, evaluate_element C t (by omega) hlast, fun a b => (hentry a b).mpr (hlost a b)⟩

theorem convertsFirst_of_fits (C : Chain unsigned n) (hn : 2 ≤ n) {t : Bracketing 0 (n - 1)}
    {hlast : n - 1 < n} (hrun : C.multiplyMatrices = some (evaluate C t hlast)) (hfits : Fits C t) :
    ConvertsFirst C := by
  apply (convertsFirst_iff_lost C hn hrun).mpr
  intro a b
  rw [lost_eq_zero hfits]
  exact dvd_zero _

end Calls

section Corners

variable {h w : Nat}

def corner (h w v : Nat) : Matrix (Fin h) (Fin w) ℕ :=
  Matrix.of fun a b => if a.val = 0 ∧ b.val = 0 then v else 0

theorem corner_apply (v : Nat) (a : Fin h) (b : Fin w) :
    corner h w v a b = if a.val = 0 ∧ b.val = 0 then v else 0 := rfl

theorem corner_le (v : Nat) (a : Fin h) (b : Fin w) : corner h w v a b ≤ v := by
  rw [corner_apply]
  split_ifs
  · exact le_rfl
  · exact Nat.zero_le v

theorem sum_corner_div {inner : Nat} (hpos : 0 < inner) (u v d : Nat) (a : Fin h) (b : Fin w) :
    ∑ s, corner h inner u a s * corner inner w v s b / d = corner h w (u * v / d) a b := by
  rw [Finset.sum_eq_single ⟨0, hpos⟩]
  · by_cases ha : a.val = 0 <;> by_cases hb : b.val = 0 <;> simp [corner_apply, ha, hb]
  · intro s _ hs
    have hne : s.val ≠ 0 := fun h => hs (Fin.ext h)
    simp [corner_apply, hne]
  · exact fun h => absurd (Finset.mem_univ _) h

theorem corner_mul {inner : Nat} (hpos : 0 < inner) (u v : Nat) :
    corner h inner u * corner inner w v = corner h w (u * v) := by
  ext a b
  have hsum := sum_corner_div hpos u v 1 a b
  simp only [Nat.div_one] at hsum
  exact hsum

def cornerValue (p i : Nat) : Nat := if i = p ∨ i = p + 1 then 2 ^ 16 else 1

def corners (C : Chain unsigned n) (p : Nat) : Chain unsigned n :=
  refill C fun i => ⟨fun a b => BitVec.ofNat (C.element i).bits
    (corner (C.size i) (C.size (i.val + 1)) (cornerValue p i) a b)⟩

theorem converted_corners (C : Chain unsigned n) (p : Nat) (hi : i < n) :
    converted (corners C p) i = corner (C.size i) (C.size (i + 1)) (cornerValue p i) := by
  ext a b
  rw [converted_apply _ hi]
  have hle : corner (C.size i) (C.size (i + 1)) (cornerValue p i) a b ≤ 2 ^ 16 :=
    (corner_le _ a b).trans (by rw [cornerValue]; split_ifs <;> decide)
  have hbits : 2 ^ 16 < 2 ^ (C.element i).bits := by
    cases C.element i <;> decide
  exact (BitVec.toNat_ofNat _ _).trans (Nat.mod_eq_of_lt (hle.trans_lt hbits))

theorem trueProduct_corners (C : Chain unsigned n) {p : Nat} (t : Bracketing i j) (hj : j < n)
    (haway : j < p ∨ p + 1 < i) :
    trueProduct (corners C p) t = corner (C.size i) (C.size (j + 1)) 1 := by
  induction t with
  | leaf i =>
      rw [trueProduct_leaf, converted_corners C p hj, cornerValue, if_neg (by omega)]
  | node l r ihl ihr =>
      have hl := l.le
      have hr := r.le
      have hprod : trueProduct (corners C p) (.node l r) =
        trueProduct (corners C p) l * trueProduct (corners C p) r := rfl
      rw [hprod, ihl (by omega) (by omega), ihr hj (by omega)]
      exact corner_mul (C.pos _ (by omega)) 1 1

theorem lost_corners_away (C : Chain unsigned n) {p : Nat} (t : Bracketing i j) (hj : j < n)
    (haway : j < p ∨ p + 1 < i) : lost (corners C p) t = 0 := by
  apply lost_eq_zero
  intro q hq hnarrow a s b
  have hb := hq.bounds
  rw [converted_corners C p (by omega), converted_corners C p (by omega), cornerValue, cornerValue,
    if_neg (by omega), if_neg (by omega)]
  exact (Nat.mul_le_mul (corner_le 1 a s) (corner_le 1 s b)).trans_lt (by decide)

theorem lost_corners (C : Chain unsigned n) {p : Nat} (hnarrow : Narrow C p) {t : Bracketing i j}
    (hj : j < n) (hp : Pairs t p) :
    lost (corners C p) t = corner (C.size i) (C.size (j + 1)) 1 := by
  induction t with
  | leaf => exact hp.elim
  | @node i k j l r ihl ihr =>
      have hl := l.le
      have hr := r.le
      rw [lost]
      obtain ⟨rfl, rfl, rfl⟩ | hp | hp := hp
      · rw [l.eq_leaf, r.eq_leaf, lost_leaf, lost_leaf, Matrix.zero_mul, Matrix.mul_zero,
          if_pos ⟨rfl, rfl, hnarrow⟩, add_zero, zero_add, trueProduct_leaf, trueProduct_leaf,
          converted_corners C k (Nat.lt_of_succ_lt hj), converted_corners C k hj, cornerValue, cornerValue,
          if_pos (Or.inl rfl), if_pos (Or.inr rfl)]
        ext a b
        exact sum_corner_div (C.pos _ (by omega)) _ _ _ a b
      · have hb := hp.bounds
        rw [ihl (by omega) hp, lost_corners_away C r hj (by omega),
          trueProduct_corners C r hj (by omega), if_neg (by omega), Matrix.mul_zero, add_zero,
          add_zero]
        exact corner_mul (C.pos _ (by omega)) 1 1
      · have hb := hp.bounds
        rw [ihr hj hp, lost_corners_away C l (by omega) (by omega),
          trueProduct_corners C l (by omega) (by omega), if_neg (by omega), Matrix.zero_mul, add_zero,
          zero_add]
        exact corner_mul (C.pos _ (by omega)) 1 1

end Corners

/-- The call multiplies as if every factor were converted first exactly when
what it loses at narrow neighbours cancels modulo `2 ^ w`; for all entries of
the given types and sizes, exactly when it multiplies no such neighbours with
each other. -/
theorem convertsFirst_iff (C : Chain unsigned n) (hn : 2 ≤ n) :
    ∃ (tables : Tables) (t : Bracketing 0 (n - 1)),
      resolved n C.size = some tables ∧ Follows tables.solution t ∧
      (ConvertsFirst C ↔ ∀ a b, 2 ^ 32 ∣ lost C t a b) ∧
      ((∀ m, ConvertsFirst (refill C m)) ↔ ∀ p, Pairs t p → ¬Narrow C p) := by
  obtain ⟨tables, t, hlast, htables, hfollows, hrun⟩ := multiplyMatrices_follows C hn
  refine ⟨tables, t, htables, hfollows, convertsFirst_iff_lost C hn (hrun C.matrix), ?_⟩
  constructor
  · intro h p hp hnarrow
    have hlost := (convertsFirst_iff_lost (corners C p) hn (hrun _)).mp (h _)
      ⟨0, C.pos 0 (Nat.zero_le n)⟩ ⟨0, C.pos _ (by omega)⟩
    have hone : lost (corners C p) t ⟨0, C.pos 0 (Nat.zero_le n)⟩ ⟨0, C.pos _ (by omega)⟩ = 1 := by
      rw [lost_corners C hnarrow hlast hp]
      exact (corner_apply 1 _ _).trans (if_pos ⟨rfl, rfl⟩)
    exact absurd (Nat.le_of_dvd Nat.one_pos (hlost.trans (dvd_of_eq hone))) (by decide)
  · intro h m
    exact convertsFirst_of_fits (refill C m) hn (hrun m) fun p hp hnarrow =>
      absurd hnarrow (h p hp)

def mixed : Chain unsigned 3 where
  size _ := 1
  pos _ _ := Nat.one_pos
  element i := if i = 0 then .u64 else .u32
  matrix i := ⟨fun _ _ => BitVec.ofNat _ (if i.val = 0 then 1 else 2 ^ 16)⟩

theorem convertsFirst_iff_mixed : ∃ (tables : Tables) (t : Bracketing 0 2),
    resolved 3 mixed.size = some tables ∧ Follows tables.solution t ∧
    (ConvertsFirst mixed ↔ ∀ a b, 2 ^ 32 ∣ lost mixed t a b) ∧
    ((∀ m, ConvertsFirst (refill mixed m)) ↔ ∀ p, Pairs t p → ¬Narrow mixed p) :=
  convertsFirst_iff mixed (by decide)

/-- The product of the two factors of 32 bits wraps to zero before it is
converted, and zero is the result. -/
theorem mixed_wraps :
    (∃ p, mixed.multiplyMatrices = some p ∧ ∀ a b, toNat (p.matrix.value a b) = 0) ∧
      (∀ a b, leftToRight (natTimes mixed.size) (converted mixed) 2 a b = 2 ^ 32) ∧
      ¬ConvertsFirst mixed := by
  obtain ⟨tables, t, hlast, htables, hfollows, hrun⟩ := multiplyMatrices_follows mixed (by decide)
  have hsolution : (resolved 3 mixed.size).map (fun t => (t.solution 0 2, t.solution 1 2)) =
      some (0, 1) := by decide
  rw [htables, Option.map_some, Option.some_inj, Prod.mk.injEq] at hsolution
  obtain ⟨h02, h12⟩ := hsolution
  obtain rfl : t = .node (.leaf 0) (.node (.leaf 1) (.leaf 2)) :=
    hfollows.unique ⟨h02, trivial, h12, trivial, trivial⟩
  have hzero : ∀ a b : Fin 1, toNat ((evaluate mixed
    (.node (.leaf 0) (.node (.leaf 1) (.leaf 2))) (by decide)).matrix.value a b) = 0 := by decide
  have htrue : ∀ a b : Fin 1, (show ℕ from
    leftToRight (natTimes mixed.size) (converted mixed) 2 a b) = 2 ^ 32 := by decide
  refine ⟨⟨_, hrun mixed.matrix, hzero⟩, htrue, ?_⟩
  rintro ⟨p, hp, -, hval⟩
  cases (hrun mixed.matrix).symm.trans hp
  have hmod := (hval (0 : Fin 1) (0 : Fin 1)).trans (congrArg (· % 2 ^ 64) (htrue 0 0))
  exact absurd ((hzero 0 0).symm.trans hmod) (by decide)

end Lzhlib.MixedTypes
