import Lzhlib.Machine
import Lzhlib.Bracketings

namespace Lzhlib.ResolveMult

open Programs Machine Bracketings

variable {n : Nat} {sizes : Nat → Nat}

/-- The tables of `resolve`, of which only the square of side `n` is ever used. -/
structure Tables where
  cost : Nat → Nat → Nat
  solution : Nat → Nat → Nat

def zeros : Tables := ⟨fun _ _ => 0, fun _ _ => 0⟩

def put (table : Nat → Nat → Nat) (i j v : Nat) : Nat → Nat → Nat :=
  fun a b => if a = i ∧ b = j then v else table a b

def generateMatrixSize (height width : Nat → Nat) : Nat → Nat
  | 0 => height 0
  | i + 1 => width i

theorem generateMatrixSize_eq (size : Nat → Nat) :
    generateMatrixSize size (fun i => size (i + 1)) = size := by
  funext i
  cases i <;> rfl

def sizeAt (n : Nat) (sizes : Nat → Nat) (i : Nat) : Prog Tables Nat :=
  if i < n + 1 then pure (sizes i) else throw .undefined

def costAt (n i j : Nat) : Prog Tables Nat := do
  let t ← get
  if i < n ∧ j < n then return t.cost i j else throw .undefined

def setCost (n i j v : Nat) : Prog Tables PUnit :=
  if i < n ∧ j < n then modify fun t => { t with cost := put t.cost i j v } else throw .undefined

def setSolution (n i j v : Nat) : Prog Tables PUnit :=
  if i < n ∧ j < n then modify fun t => { t with solution := put t.solution i j v }
  else throw .undefined

def compareSplit (n : Nat) (sizes : Nat → Nat) (i j k : Nat) : Prog Tables PUnit := do
  let left ← costAt n i k
  let right ← costAt n (k + 1) j
  let height ← sizeAt n sizes i
  let inner ← sizeAt n sizes (k + 1)
  let width ← sizeAt n sizes (j + 1)
  let currentCost := sizeAdd (sizeAdd left right) (sizeMul (sizeMul height inner) width)
  let best ← costAt n i j
  if currentCost < best then do
    setCost n i j currentCost
    setSolution n i j k
  else pure ⟨⟩

def fillEntry (n : Nat) (sizes : Nat → Nat) (i j : Nat) : Prog Tables PUnit := do
  setCost n i j maxSize
  setSolution n i j (j - 1)
  forRange i j (compareSplit n sizes i j)

def clearDiagonal (n : Nat) : Prog Tables PUnit :=
  forRange 0 n fun i => do
    setCost n i i 0
    setSolution n i i 0

def fillTables (n : Nat) (sizes : Nat → Nat) : Prog Tables PUnit :=
  forRange 2 (n + 1) fun l =>
    forRange 0 (n - l + 1) fun i => fillEntry n sizes i (i + l - 1)

def resolve (n : Nat) (sizes : Nat → Nat) : Prog Tables PUnit := do
  clearDiagonal n
  fillTables n sizes

/-- The tables as a constant expression; a failing evaluation does not compile. -/
def resolved (n : Nat) (sizes : Nat → Nat) : Option Tables :=
  match resolve n sizes zeros with
  | .ok _ t => some t
  | .error _ _ => none

def Tables.record (t : Tables) (i j c s : Nat) : Tables :=
  ⟨put t.cost i j c, put t.solution i j s⟩

theorem put_self (table : Nat → Nat → Nat) (i j v : Nat) : put table i j v i j = v := by
  simp [put]

theorem put_of_ne (table : Nat → Nat → Nat) {i j v a b : Nat} (h : a ≠ i ∨ b ≠ j) :
    put table i j v a b = table a b := by
  rw [put, if_neg (by omega)]

theorem put_put (table : Nat → Nat → Nat) (i j v w : Nat) :
    put (put table i j v) i j w = put table i j w := by
  funext a b
  by_cases h : a = i ∧ b = j <;> simp [put, h]

def candidate (sizes : Nat → Nat) (cost : Nat → Nat → Nat) (i k j : Nat) : Nat :=
  sizeAdd (sizeAdd (cost i k) (cost (k + 1) j))
    (sizeMul (sizeMul (sizes i) (sizes (k + 1))) (sizes (j + 1)))

theorem candidate_le (cost : Nat → Nat → Nat) (i k j : Nat) :
    candidate sizes cost i k j ≤ maxSize :=
  Nat.le_sub_one_of_lt (Nat.mod_lt _ (by decide))

theorem candidate_put (cost : Nat → Nat → Nat) {i k j a b v : Nat} (hik : i ≤ k) (hkj : k < j)
    (hlen : j - i ≤ b - a) :
    candidate sizes (put cost a b v) i k j = candidate sizes cost i k j := by
  rw [candidate, candidate, put_of_ne _ (by omega), put_of_ne _ (by omega)]

theorem compareSplit_ok {i k j : Nat} (hik : i ≤ k) (hkj : k < j) (hj : j < n) (t : Tables) :
    compareSplit n sizes i j k t = .ok ⟨⟩
      (if candidate sizes t.cost i k j < t.cost i j then
        t.record i j (candidate sizes t.cost i k j) k else t) := by
  have h1 : i < n ∧ k < n := by omega
  have h2 : k + 1 < n ∧ j < n := by omega
  have h3 : i < n ∧ j < n := by omega
  have h4 : i < n + 1 := by omega
  have h5 : k + 1 < n + 1 := by omega
  have h6 : j + 1 < n + 1 := by omega
  simp only [compareSplit, costAt, sizeAt, setCost, setSolution, if_pos h1, if_pos h2, if_pos h3,
    if_pos h4, if_pos h5, if_pos h6]
  change (if candidate sizes t.cost i k j < t.cost i j then _ else _ : Prog Tables PUnit) t = _
  split_ifs <;> rfl

structure Solved (sizes : Nat → Nat) (t : Tables) (i j : Nat) : Prop where
  proper : i ≤ t.solution i j ∧ t.solution i j < j
  cost_eq : t.cost i j = candidate sizes t.cost i (t.solution i j) j
  cost_le : ∀ k, i ≤ k → k < j → t.cost i j ≤ candidate sizes t.cost i k j

theorem Solved.record {t : Tables} {i j a b c s : Nat} (h : Solved sizes t i j)
    (hlen : j - i ≤ b - a) (hne : i ≠ a ∨ j ≠ b) : Solved sizes (t.record a b c s) i j := by
  have hsol : (t.record a b c s).solution i j = t.solution i j := put_of_ne _ hne
  have hcost : (t.record a b c s).cost i j = t.cost i j := put_of_ne _ hne
  refine ⟨hsol ▸ h.proper, ?_, ?_⟩
  · rw [hcost, hsol]
    exact h.cost_eq.trans (candidate_put _ h.proper.1 h.proper.2 hlen).symm
  · intro k hik hkj
    rw [hcost]
    exact (h.cost_le k hik hkj).trans (candidate_put _ hik hkj hlen).ge

/-- The record of the innermost loop: the best split so far, or the default
split with the largest cost. -/
def Best (sizes : Nat → Nat) (t : Tables) (i j k : Nat) (u : Tables) : Prop :=
  ∃ c s, u = t.record i j c s ∧ (i ≤ s ∧ s < j) ∧
    (∀ m, i ≤ m → m < k → c ≤ candidate sizes t.cost i m j) ∧
    (c = candidate sizes t.cost i s j ∨ c = maxSize ∧ s = j - 1)

theorem compareSplit_best {i j k : Nat} (hik : i ≤ k) (hkj : k < j) (hj : j < n) {t u : Tables}
    (hu : Best sizes t i j k u) :
    ∃ w, compareSplit n sizes i j k u = .ok ⟨⟩ w ∧ Best sizes t i j (k + 1) w := by
  obtain ⟨c, s, rfl, hs, hle, hc⟩ := hu
  refine ⟨_, compareSplit_ok hik hkj hj _, ?_⟩
  simp only [Tables.record, put_self, candidate_put _ hik hkj le_rfl]
  split_ifs with hlt
  · refine ⟨candidate sizes t.cost i k j, k, by simp only [put_put, Tables.record], ⟨hik, hkj⟩,
      ?_, Or.inl rfl⟩
    intro m him hmk
    obtain hmk | rfl := Nat.lt_succ_iff_lt_or_eq.mp hmk
    · exact hlt.le.trans (hle m him hmk)
    · exact le_rfl
  · refine ⟨c, s, rfl, hs, ?_, hc⟩
    intro m him hmk
    obtain hmk | rfl := Nat.lt_succ_iff_lt_or_eq.mp hmk
    · exact hle m him hmk
    · exact not_lt.mp hlt

theorem Best.solved {i j : Nat} {t u : Tables} (hu : Best sizes t i j j u) :
    ∃ c s, u = t.record i j c s ∧ Solved sizes u i j := by
  obtain ⟨c, s, rfl, hs, hle, hc⟩ := hu
  refine ⟨c, s, rfl, ?_, ?_, ?_⟩
  · simpa only [Tables.record, put_self] using hs
  · simp only [Tables.record, put_self]
    rw [candidate_put _ hs.1 hs.2 le_rfl]
    obtain hc | ⟨rfl, rfl⟩ := hc
    · exact hc
    · exact le_antisymm (hle _ hs.1 hs.2) (candidate_le _ _ _ _)
  · intro k hik hkj
    simp only [Tables.record, put_self]
    rw [candidate_put _ hik hkj le_rfl]
    exact hle k hik hkj

theorem fillEntry_ok (sizes : Nat → Nat) {i j : Nat} (hij : i < j) (hj : j < n) (t : Tables) :
    ∃ c s, fillEntry n sizes i j t = .ok ⟨⟩ (t.record i j c s) ∧
      Solved sizes (t.record i j c s) i j := by
  have hstart : Best sizes t i j i (t.record i j maxSize (j - 1)) :=
    ⟨maxSize, j - 1, rfl, by omega, by omega, Or.inr ⟨rfl, rfl⟩⟩
  obtain ⟨u, hu, hbest⟩ := forRange_ok (Best sizes t i j) hij.le
    (fun k u hik hkj hb => compareSplit_best hik hkj hj hb) hstart
  obtain ⟨c, s, rfl, hsolved⟩ := hbest.solved
  refine ⟨c, s, ?_, hsolved⟩
  have h : i < n ∧ j < n := by omega
  simp only [fillEntry, setCost, setSolution, if_pos h]
  exact hu

theorem clearDiagonal_ok (t : Tables) :
    ∃ u, clearDiagonal n t = .ok ⟨⟩ u ∧ ∀ i < n, u.cost i i = 0 := by
  refine forRange_ok (fun k (u : Tables) => ∀ i < k, u.cost i i = 0) (Nat.zero_le n) ?_ (by simp)
  intro i u _ hi hu
  have h : i < n ∧ i < n := ⟨hi, hi⟩
  refine ⟨u.record i i 0 0, by simp only [setCost, setSolution, if_pos h]; rfl, ?_⟩
  intro m hm
  by_cases hmi : m = i
  · rw [hmi]
    exact put_self _ _ _ _
  · exact (put_of_ne _ (Or.inl hmi)).trans (hu m (by omega))

structure SolvedUpTo (n : Nat) (sizes : Nat → Nat) (l b : Nat) (t : Tables) : Prop where
  diagonal : ∀ i < n, t.cost i i = 0
  entry : ∀ i j, i < j → j < n → j + 1 < i + l ∨ (j + 1 = i + l ∧ i < b) → Solved sizes t i j

theorem SolvedUpTo.step {l b : Nat} {t : Tables} (h : SolvedUpTo n sizes l b t) (hl : 2 ≤ l)
    (hb : b + l ≤ n) : ∃ u, fillEntry n sizes b (b + l - 1) t = .ok ⟨⟩ u ∧
      SolvedUpTo n sizes l (b + 1) u := by
  have hlt : b < b + l - 1 := by omega
  have hle : b + l - 1 < n := by omega
  obtain ⟨c, s, hrun, hsolved⟩ := fillEntry_ok sizes hlt hle t
  refine ⟨_, hrun, ?_, ?_⟩
  · intro i hi
    exact (put_of_ne _ (by omega)).trans (h.diagonal i hi)
  · intro i j hij hj hlen
    by_cases hnew : i = b ∧ j = b + l - 1
    · rw [hnew.1, hnew.2]
      exact hsolved
    · exact (h.entry i j hij hj (by omega)).record (by omega) (by omega)

theorem SolvedUpTo.longer {l : Nat} {t : Tables} (h : SolvedUpTo n sizes l (n - l + 1) t)
    (hl : l ≤ n) : SolvedUpTo n sizes (l + 1) 0 t :=
  ⟨h.diagonal, fun i j hij hj hlen => h.entry i j hij hj (by omega)⟩

theorem fillTables_ok (sizes : Nat → Nat) {t : Tables} (hn : 1 ≤ n) (hdiag : ∀ i < n, t.cost i i = 0) :
    ∃ u, fillTables n sizes t = .ok ⟨⟩ u ∧ SolvedUpTo n sizes (n + 1) 0 u := by
  have hstart : SolvedUpTo n sizes 2 0 t := ⟨hdiag, fun i j hij hj hlen => by omega⟩
  refine forRange_ok (fun l u => SolvedUpTo n sizes l 0 u) (by omega) ?_ hstart
  intro l u hl hln hu
  obtain ⟨w, hw, hsolved⟩ := forRange_ok (SolvedUpTo n sizes l) (Nat.zero_le (n - l + 1))
    (fun b w _ hb hw => hw.step hl (by omega)) hu
  exact ⟨w, hw, hsolved.longer (by omega)⟩

/-- The tables of `resolve`: no access outside them, whatever the sizes, and
every entry above the diagonal solved. -/
theorem resolve_ok (hn : 1 ≤ n) (sizes : Nat → Nat) :
    ∃ t, resolved n sizes = some t ∧ (∀ i < n, t.cost i i = 0) ∧
      ∀ i j, i < j → j < n → Solved sizes t i j := by
  obtain ⟨t, ht, hdiag⟩ := clearDiagonal_ok (n := n) zeros
  obtain ⟨u, hu, hsolved⟩ := fillTables_ok sizes hn hdiag
  refine ⟨u, ?_, hsolved.diagonal, fun i j hij hj => hsolved.entry i j hij hj (by omega)⟩
  have hrun : resolve n sizes zeros = .ok ⟨⟩ u := by
    rw [resolve, bind_ok ht]
    exact hu
  rw [resolved, hrun]

def splits {t : Tables} (h : ∀ i j, i < j → j < n → Solved sizes t i j) : SplitTable n :=
  ⟨t.solution, fun i j hij hj => (h i j hij hj).proper⟩

end Lzhlib.ResolveMult
