import Mathlib.Algebra.Free
import Mathlib.Data.List.GetD
import Lzhlib.ChainProducts

namespace Lzhlib.ProductExpressions

open MultiplyMatrices ChainProducts

variable {α τ : Type} {E : Arithmetic τ}

structure AnyMatrix (E : Arithmetic τ) where
  element : τ
  height : Nat
  width : Nat
  height_pos : 0 < height
  width_pos : 0 < width
  matrix : BasicMatrix (E.Val element) height width

def AnyMatrix.SameType (m m' : AnyMatrix E) : Prop :=
  m.element = m'.element ∧ m.height = m'.height ∧ m.width = m'.width

instance [DecidableEq τ] (m m' : AnyMatrix E) : Decidable (m.SameType m') :=
  inferInstanceAs (Decidable (_ ∧ _))

def CheckConsistencies (matrices : List (AnyMatrix E)) : Prop :=
  matrices.IsChain fun m m' => m.width = m'.height

instance (matrices : List (AnyMatrix E)) : Decidable (CheckConsistencies matrices) :=
  inferInstanceAs (Decidable (List.IsChain _ _))

def sizeOfMatrices (first : AnyMatrix E) (matrices : List (AnyMatrix E)) : Nat → Nat
  | 0 => first.height
  | i + 1 => (matrices.getD i first).width

theorem sizeOfMatrices_pos (first : AnyMatrix E) (matrices : List (AnyMatrix E)) (i : Nat) :
    0 < sizeOfMatrices first matrices i := by
  cases i with
  | zero => exact first.height_pos
  | succ i => exact (matrices.getD i first).width_pos

theorem sizeOfMatrices_eq {first : AnyMatrix E} {rest : List (AnyMatrix E)}
    (h : CheckConsistencies (first :: rest)) {i : Nat} (hi : i < rest.length + 1) :
    sizeOfMatrices first (first :: rest) i = ((first :: rest).getD i first).height := by
  cases i with
  | zero => rfl
  | succ i =>
      have hlt : i + 1 < (first :: rest).length := hi
      rw [sizeOfMatrices, List.getD_eq_getElem _ _ (by omega), List.getD_eq_getElem _ _ hlt]
      exact List.IsChain.getElem h i hlt

def chain (first : AnyMatrix E) (rest : List (AnyMatrix E))
    (h : CheckConsistencies (first :: rest)) : Chain E (rest.length + 1) where
  size := sizeOfMatrices first (first :: rest)
  pos i _ := sizeOfMatrices_pos first (first :: rest) i
  element i := ((first :: rest).getD i first).element
  matrix i := ⟨fun row column =>
    ((first :: rest).getD i first).matrix.value (Fin.cast (sizeOfMatrices_eq h i.isLt) row) column⟩

/-- There is no value where a `static_assert` fails. -/
def multiplyMatrices : List (AnyMatrix E) → Option (AnyMatrix E)
  | [] => none
  | first :: rest =>
    if h : CheckConsistencies (first :: rest) then do
      let result ← (chain first rest h).multiplyMatrices
      return ⟨result.element, _, _, sizeOfMatrices_pos first (first :: rest) 0,
        sizeOfMatrices_pos first (first :: rest) (rest.length + 1), result.matrix⟩
    else none

def multiplyMatricesTuple (matrices : List (AnyMatrix E)) : Option (AnyMatrix E) :=
  multiplyMatrices matrices

theorem multiplyMatrices_ok {matrices : List (AnyMatrix E)} (h : CheckConsistencies matrices)
    (hlen : 2 ≤ matrices.length) : ∃ p, multiplyMatrices matrices = some p := by
  match matrices, h, hlen with
  | first :: rest, h, hlen =>
    obtain ⟨_, _, _, _, hrun⟩ := multiplyMatrices_evaluates (chain first rest h) hlen
    rw [multiplyMatrices, dif_pos h, hrun]
    exact ⟨_, rfl⟩

/-- The tuple of references and the `static_assert` of its type. -/
structure ExprMultiply (E : Arithmetic τ) where
  matrices : List (AnyMatrix E)
  consistent : CheckConsistencies matrices

namespace ExprMultiply

def ofTuple (matrices : List (AnyMatrix E)) : Option (ExprMultiply E) :=
  if h : CheckConsistencies matrices then some ⟨matrices, h⟩ else none

theorem ofTuple_iff {matrices : List (AnyMatrix E)} {e : ExprMultiply E} :
    ofTuple matrices = some e ↔ e.matrices = matrices := by
  constructor
  · intro h
    rw [ofTuple] at h
    split_ifs at h with hcons
    cases h
    rfl
  · rintro rfl
    exact dif_pos e.consistent

def evaluate (e : ExprMultiply E) : Option (AnyMatrix E) :=
  multiplyMatricesTuple e.matrices

def convert (e : ExprMultiply E) : Option (AnyMatrix E) :=
  e.evaluate

def shiftEval (e : ExprMultiply E) : Option (AnyMatrix E) :=
  e.evaluate

def assign [DecidableEq τ] (target : AnyMatrix E) (e : ExprMultiply E) : Option (AnyMatrix E) := do
  let value ← e.evaluate
  if value.SameType target then return value else none

end ExprMultiply

inductive Operand (E : Arithmetic τ) where
  | matrix (m : AnyMatrix E)
  | expr (e : ExprMultiply E)

namespace Operand

def matrices : Operand E → List (AnyMatrix E)
  | .matrix m => [m]
  | .expr e => e.matrices

def IsExpr : Operand E → Prop
  | .matrix _ => False
  | .expr _ => True

end Operand

inductive CatArgument (E : Arithmetic τ) where
  | tuple (matrices : List (AnyMatrix E))
  | expr (e : ExprMultiply E)

/-- An `expr_multiply` has no `std::tuple_size`, so it is not a tuple. -/
def tupleCat : CatArgument E → CatArgument E → Option (List (AnyMatrix E))
  | .tuple matrices, .tuple matrices' => some (matrices ++ matrices')
  | _, _ => none

/-- The overloads of `operator()` for two operands, with no value where the body
of the chosen one is ill-formed. -/
def makeExprMultiply : Operand E → Operand E → Option (ExprMultiply E)
  | .matrix m, .matrix m' => ExprMultiply.ofTuple [m, m']
  | .expr e, .matrix m => do
    let matrices ← tupleCat (.tuple e.matrices) (.tuple [m])
    ExprMultiply.ofTuple matrices
  | .matrix m, .expr e => do
    let matrices ← tupleCat (.tuple [m]) (.tuple e.matrices)
    ExprMultiply.ofTuple matrices
  | .expr e, .expr e' => do
    -- the other overloads pass the member `matrices`
    let matrices ← tupleCat (.expr e) (.expr e')
    ExprMultiply.ofTuple matrices

theorem makeExprMultiply_iff {lhs rhs : Operand E} {e : ExprMultiply E} :
    makeExprMultiply lhs rhs = some e ↔
      e.matrices = lhs.matrices ++ rhs.matrices ∧ ¬(lhs.IsExpr ∧ rhs.IsExpr) := by
  cases lhs <;> cases rhs <;>
    simp [makeExprMultiply, tupleCat, ExprMultiply.ofTuple_iff, Operand.matrices, Operand.IsExpr]

def build : FreeMagma (AnyMatrix E) → Option (Operand E)
  | .of m => some (.matrix m)
  | l * r => do
    let lhs ← build l
    let rhs ← build r
    let e ← makeExprMultiply lhs rhs
    return .expr e

def leaves : FreeMagma α → List α
  | .of a => [a]
  | l * r => leaves l ++ leaves r

theorem leaves_mul (l r : FreeMagma α) : leaves (l * r) = leaves l ++ leaves r :=
  rfl

theorem leaves_length (t : FreeMagma α) : (leaves t).length = t.length := by
  induction t with
  | ih1 a => rfl
  | ih2 l r ihl ihr =>
      rw [leaves_mul, List.length_append, ihl, ihr]
      rfl

/-- Every product has a single matrix for one of its operands. -/
def LeafBeside : FreeMagma α → Prop
  | .of _ => True
  | l * r => (l.length = 1 ∨ r.length = 1) ∧ LeafBeside l ∧ LeafBeside r

structure Stands (t : FreeMagma (AnyMatrix E)) (o : Operand E) : Prop where
  matrices_eq : o.matrices = leaves t
  isExpr_iff : o.IsExpr ↔ t.length ≠ 1

theorem stands_leaf (m : AnyMatrix E) : Stands (.of m) (.matrix m) where
  matrices_eq := rfl
  isExpr_iff := by simp [Operand.IsExpr]

theorem length_mul_ne (l r : FreeMagma α) : (l * r).length ≠ 1 := by
  have hl := l.length_pos
  have hr := r.length_pos
  change l.length + r.length ≠ 1
  omega

theorem Stands.mul {l r : FreeMagma (AnyMatrix E)} {lhs rhs : Operand E} {e : ExprMultiply E}
    (hl : Stands l lhs) (hr : Stands r rhs) (he : e.matrices = lhs.matrices ++ rhs.matrices) :
    Stands (l * r) (.expr e) where
  matrices_eq := by rw [Operand.matrices, he, hl.matrices_eq, hr.matrices_eq, leaves_mul]
  isExpr_iff := iff_of_true trivial (length_mul_ne l r)

theorem Stands.beside_iff {l r : FreeMagma (AnyMatrix E)} {lhs rhs : Operand E}
    (hl : Stands l lhs) (hr : Stands r rhs) :
    ¬(lhs.IsExpr ∧ rhs.IsExpr) ↔ l.length = 1 ∨ r.length = 1 := by
  rw [hl.isExpr_iff, hr.isExpr_iff, not_and_or, not_not, not_not]

theorem build_stands {t : FreeMagma (AnyMatrix E)} {o : Operand E} (h : build t = some o) :
    Stands t o ∧ LeafBeside t := by
  induction t generalizing o with
  | ih1 m =>
      cases h
      exact ⟨stands_leaf m, trivial⟩
  | ih2 l r ihl ihr =>
      obtain ⟨lhs, hlhs, h⟩ := Option.bind_eq_some_iff.mp h
      obtain ⟨rhs, hrhs, h⟩ := Option.bind_eq_some_iff.mp h
      obtain ⟨e, hmake, h⟩ := Option.bind_eq_some_iff.mp h
      cases h
      obtain ⟨hl, hleft⟩ := ihl hlhs
      obtain ⟨hr, hright⟩ := ihr hrhs
      obtain ⟨he, hne⟩ := makeExprMultiply_iff.mp hmake
      exact ⟨hl.mul hr he, (hl.beside_iff hr).mp hne, hleft, hright⟩

theorem build_mul {l r : FreeMagma (AnyMatrix E)} {lhs rhs : Operand E} {e : ExprMultiply E}
    (hl : build l = some lhs) (hr : build r = some rhs) (he : makeExprMultiply lhs rhs = some e) :
    build (l * r) = some (.expr e) := by
  change (build l).bind _ = _
  rw [hl, Option.bind_some, hr, Option.bind_eq_bind, Option.bind_some, he]
  rfl

theorem build_ok {t : FreeMagma (AnyMatrix E)} (hcons : CheckConsistencies (leaves t))
    (ht : LeafBeside t) : ∃ o, build t = some o := by
  induction t with
  | ih1 m => exact ⟨_, rfl⟩
  | ih2 l r ihl ihr =>
      obtain ⟨hbeside, hleft, hright⟩ := ht
      rw [leaves_mul] at hcons
      obtain ⟨lhs, hlhs⟩ := ihl (List.IsChain.left_of_append hcons) hleft
      obtain ⟨rhs, hrhs⟩ := ihr (List.IsChain.right_of_append hcons) hright
      have hl := (build_stands hlhs).1
      have hr := (build_stands hrhs).1
      have hmake : makeExprMultiply lhs rhs = some ⟨leaves l ++ leaves r, hcons⟩ :=
        makeExprMultiply_iff.mpr
          ⟨by rw [hl.matrices_eq, hr.matrices_eq], (hl.beside_iff hr).mpr hbeside⟩
      exact ⟨_, build_mul hlhs hrhs hmake⟩

structure Evaluates [DecidableEq τ] (e : ExprMultiply E) (matrices : List (AnyMatrix E))
    (product : AnyMatrix E) : Prop where
  multiplied : multiplyMatrices matrices = some product
  shiftEval_eq : e.shiftEval = some product
  convert_eq : e.convert = some product
  assign_eq : ∀ target, product.SameType target → e.assign target = some product

theorem ExprMultiply.evaluates [DecidableEq τ] (e : ExprMultiply E) (hlen : 2 ≤ e.matrices.length) :
    ∃ product, Evaluates e e.matrices product := by
  obtain ⟨product, h⟩ := multiplyMatrices_ok e.consistent hlen
  refine ⟨product, h, h, h, fun target htype => ?_⟩
  rw [assign, evaluate, multiplyMatricesTuple, h]
  exact if_pos htype

/-- An expression is well formed, its tuple is the leaves from left to right,
and it evaluates to what `multiply_matrices` makes of them. -/
def SameSemantic [DecidableEq τ] (t : FreeMagma (AnyMatrix E)) : Prop :=
  ∃ e, build t = some (.expr e) ∧ e.matrices = leaves t ∧ ∃ product, Evaluates e (leaves t) product

theorem build_sameSemantic_iff [DecidableEq τ] (t : FreeMagma (AnyMatrix E)) (hlen : 2 ≤ t.length)
    (hcons : CheckConsistencies (leaves t)) : SameSemantic t ↔ LeafBeside t := by
  constructor
  · rintro ⟨e, he, -⟩
    exact (build_stands he).2
  · intro ht
    obtain ⟨o, ho⟩ := build_ok hcons ht
    have hstands := (build_stands ho).1
    cases o with
    | matrix m => exact absurd (hstands.isExpr_iff.mpr (by omega)) id
    | expr e =>
        have he : e.matrices = leaves t := hstands.matrices_eq
        exact ⟨e, ho, he, he ▸ e.evaluates (by rw [he, leaves_length]; exact hlen)⟩

def row (a b : ℕ) : AnyMatrix (uniform ℕ) :=
  ⟨(), 1, 2, Nat.one_pos, Nat.two_pos, ⟨fun _ j => (if j.val = 0 then a else b : ℕ)⟩⟩

def column (a b : ℕ) : AnyMatrix (uniform ℕ) :=
  ⟨(), 2, 1, Nat.two_pos, Nat.one_pos, ⟨fun i _ => (if i.val = 0 then a else b : ℕ)⟩⟩

def nested : FreeMagma (AnyMatrix (uniform ℕ)) :=
  .of (row 1 2) * (.of (column 3 4) * .of (row 5 6))

theorem build_sameSemantic_iff_nested : SameSemantic nested := by
  have hcons : CheckConsistencies (leaves nested) := by
    simp [CheckConsistencies, nested, leaves, row, column]
  exact (build_sameSemantic_iff nested (by decide) hcons).mpr
    ⟨Or.inl rfl, trivial, Or.inl rfl, trivial, trivial⟩

def pairs : FreeMagma (AnyMatrix (uniform ℕ)) :=
  (.of (row 1 2) * .of (column 3 4)) * (.of (row 5 6) * .of (column 7 8))

/-- Four compatible matrices, and `multiply_matrices` has their product. -/
theorem pairs_ill_formed : CheckConsistencies (leaves pairs) ∧
    (∃ product, multiplyMatrices (leaves pairs) = some product) ∧ build pairs = none ∧
    ¬SameSemantic pairs := by
  have hcons : CheckConsistencies (leaves pairs) := by
    simp [CheckConsistencies, pairs, leaves, row, column]
  have hnone : build pairs = none := rfl
  refine ⟨hcons, multiplyMatrices_ok hcons (by decide), hnone, ?_⟩
  rintro ⟨e, he, -⟩
  rw [hnone] at he
  cases he

end Lzhlib.ProductExpressions
