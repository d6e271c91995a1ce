import Mathlib.Data.List.FinRange
import Mathlib.Algebra.Ring.Defs
import Lzhlib.ResolveMult

namespace Lzhlib.MultiplyMatrices

open ResolveMult

structure BasicMatrix (T : Type) (height width : Nat) where
  value : Fin height → Fin width → T

/-- The arithmetic of the element types: `common` is `std::common_type`, and
`usual` the type that the operands of an operator are brought to. -/
structure Arithmetic (τ : Type) where
  Val : τ → Type
  common : τ → τ → τ
  usual : τ → τ → τ
  mul : {a b : τ} → Val a → Val b → Val (usual a b)
  add : {a b : τ} → Val a → Val b → Val (usual a b)
  convert : {a : τ} → (b : τ) → Val a → Val b

/-- One element type for all the factors. -/
def uniform (R : Type) [Semiring R] : Arithmetic Unit where
  Val _ := R
  common _ _ := ()
  usual _ _ := ()
  mul a b := a * b
  add a b := a + b
  convert _ a := a

variable {τ : Type} {E : Arithmetic τ} {n height inner width : Nat}

/-- The matrices of a call; the checks on the sizes of neighbours are in their types. -/
structure Chain (E : Arithmetic τ) (n : Nat) where
  size : Nat → Nat
  pos : ∀ i ≤ n, 0 < size i
  element : Nat → τ
  matrix : (i : Fin n) → BasicMatrix (E.Val (element i)) (size i) (size (i.val + 1))

/-- `std::common_type_t<typename Matrices::value_type...>`. -/
def Chain.commonType (C : Chain E n) : τ :=
  (List.range (n - 1)).foldl (fun t i => E.common t (C.element (i + 1))) (C.element 0)

/-- What a call of the helper returns, with the number of scalar
multiplications made for it. -/
structure Partial (E : Arithmetic τ) (height width : Nat) where
  element : τ
  matrix : BasicMatrix (E.Val element) height width
  multiplications : Nat

def Chain.single (C : Chain E n) (i : Fin n) : Partial E (C.size i) (C.size (i.val + 1)) :=
  ⟨C.element i, C.matrix i, 0⟩

/-- The body of `multiply_matrices_helper` once both halves are there. The sum
starts with the product at index zero and the loop adds the others. -/
def multiply (common : τ) (hpos : 0 < inner) (left : Partial E height inner)
    (right : Partial E inner width) : Partial E height width where
  element := common
  matrix := ⟨fun i j => (List.finRange inner).tail.foldl
    (fun sum k => E.convert common
      (E.add sum (E.mul (left.matrix.value i k) (right.matrix.value k j))))
    (E.convert common
      (E.mul (left.matrix.value i ⟨0, hpos⟩) (right.matrix.value ⟨0, hpos⟩ j)))⟩
  multiplications := left.multiplications + right.multiplications + height * inner * width

def arrayToType (n : Nat) (solution : Nat → Nat → Nat) : List (List Nat) :=
  (List.range n).map fun i => (List.range n).map fun j => solution i j

/-- `get_v<Last, get_t<First, Solution>>`. -/
def splitPos (solution : List (List Nat)) (first last : Nat) : Option Nat := do
  let row ← solution[first]?
  row[last]?

/-- The recursion of the templates. There is no value where the instantiation
has no meaning: an index outside the tuple, or a range that is not cut into two. -/
def Chain.multiplyMatricesHelper (C : Chain E n) (solution : List (List Nat)) (first last : Nat) :
    Option (Partial E (C.size first) (C.size (last + 1))) :=
  if hlast : last < n then
    if h : first = last then some (h ▸ C.single ⟨last, hlast⟩)
    else match splitPos solution first last with
      | none => none
      | some k =>
        if hk : first ≤ k ∧ k < last then do
          let left ← C.multiplyMatricesHelper solution first k
          let right ← C.multiplyMatricesHelper solution (k + 1) last
          return multiply C.commonType (C.pos (k + 1) (by omega)) left right
        else none
  else none
termination_by last - first

def Chain.multiplyMatrices (C : Chain E n) :
    Option (Partial E (C.size 0) (C.size (n - 1 + 1))) :=
  if 1 < n then do
    let tables ← resolved n (generateMatrixSize C.size (fun i => C.size (i + 1)))
    C.multiplyMatricesHelper (arrayToType n tables.solution) 0 (n - 1)
  else none

end Lzhlib.MultiplyMatrices
