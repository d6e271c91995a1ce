import Mathlib.Data.Finset.Card
import Mathlib.Logic.Function.Basic

namespace Lzhlib.Ownership

variable {ι κ : Type} [DecidableEq κ]

inductive Owner (ι : Type)
  | free
  | thread (t : ι)
  | common

/-- What a step of the thread `t` does to the ownership of the cells, to the
cell in its hands, and to the number of the common cells. -/
inductive Transfer (t : ι) :
    (κ → Owner ι) → Option κ → Nat → (κ → Owner ι) → Option κ → Nat → Prop
  | keep {o x n} : Transfer t o x n o x n
  | alloc {o n} (a : κ) (h : o a = .free) :
      Transfer t o none n (Function.update o a (.thread t)) (some a) n
  | detach {o n} (a : κ) (h : o a = .common) :
      Transfer t o none (n + 1) (Function.update o a (.thread t)) (some a) n
  | attach {o n} (a : κ) : Transfer t o (some a) n (Function.update o a .common) none (n + 1)
  | free {o n} (a : κ) : Transfer t o (some a) n (Function.update o a .free) none n

/-- Every cell that a thread owns is the one in its hands, and there are `n` common cells. -/
structure Settled (o : κ → Owner ι) (held : ι → Option κ) (n : Nat) : Prop where
  owns : ∀ t a, o a = .thread t ↔ held t = some a
  common : ∃ F : Finset κ, (∀ a, a ∈ F ↔ o a = .common) ∧ F.card = n

variable {t : ι} {o o' : κ → Owner ι} {held : ι → Option κ} {x : Option κ} {n n' : Nat} {a : κ}

theorem common_insert (h : ∃ F : Finset κ, (∀ a, a ∈ F ↔ o a = .common) ∧ F.card = n)
    (ha : o a ≠ .common) : ∃ F : Finset κ,
      (∀ b, b ∈ F ↔ Function.update o a .common b = .common) ∧ F.card = n + 1 := by
  obtain ⟨F, hF, rfl⟩ := h
  refine ⟨insert a F, fun b => ?_, Finset.card_insert_of_notMem (mt (hF a).mp ha)⟩
  by_cases hb : b = a
  · subst b
    simp
  · rw [Function.update_of_ne hb, Finset.mem_insert, hF]
    exact or_iff_right hb

theorem common_erase (h : ∃ F : Finset κ, (∀ a, a ∈ F ↔ o a = .common) ∧ F.card = n + 1)
    (ha : o a = .common) {w : Owner ι} (hw : w ≠ .common) : ∃ F : Finset κ,
      (∀ b, b ∈ F ↔ Function.update o a w b = .common) ∧ F.card = n := by
  obtain ⟨F, hF, hcard⟩ := h
  refine ⟨F.erase a, fun b => ?_, ?_⟩
  · by_cases hb : b = a
    · subst b
      simp [hw]
    · rw [Function.update_of_ne hb, Finset.mem_erase, hF]
      exact and_iff_right hb
  · rw [Finset.card_erase_of_mem ((hF a).mpr ha), hcard, Nat.add_sub_cancel]

theorem common_other (h : ∃ F : Finset κ, (∀ a, a ∈ F ↔ o a = .common) ∧ F.card = n)
    (ha : o a ≠ .common) {w : Owner ι} (hw : w ≠ .common) : ∃ F : Finset κ,
      (∀ b, b ∈ F ↔ Function.update o a w b = .common) ∧ F.card = n := by
  obtain ⟨F, hF, hcard⟩ := h
  refine ⟨F, fun b => ?_, hcard⟩
  by_cases hb : b = a
  · subst b
    simp [hF, ha, hw]
  · rw [Function.update_of_ne hb, hF]

variable [DecidableEq ι]

theorem owns_update (h : ∀ t a, o a = .thread t ↔ held t = some a) {w : Owner ι}
    (ha : ∀ u, u ≠ t → held u ≠ some a) (hw : ∀ u, w = .thread u ↔ u = t ∧ x = some a)
    (hx : ∀ b, b ≠ a → (held t = some b ↔ x = some b)) (u : ι) (b : κ) :
    Function.update o a w b = .thread u ↔ Function.update held t x u = some b := by
  by_cases hb : b = a
  · subst b
    rw [Function.update_self, hw]
    by_cases hu : u = t
    · subst u
      rw [Function.update_self]
      simp
    · rw [Function.update_of_ne hu]
      exact iff_of_false (fun h => hu h.1) (ha u hu)
  · rw [Function.update_of_ne hb, h]
    by_cases hu : u = t
    · subst u
      rw [Function.update_self]
      exact hx b hb
    · rw [Function.update_of_ne hu]

theorem Transfer.settled (h : Transfer t o (held t) n o' x n') (hs : Settled o held n) :
    Settled o' (Function.update held t x) n' := by
  obtain ⟨howns, hcommon⟩ := hs
  have hunique {a : κ} (ht : held t = some a) (u : ι) (hu : u ≠ t) : held u ≠ some a := by
    rw [Ne, ← howns, (howns t a).mpr ht]
    simpa using hu.symm
  have hnobody {a : κ} (ha : ∀ u, o a ≠ .thread u) (u : ι) (_ : u ≠ t) : held u ≠ some a :=
    mt (howns u a).mpr (ha u)
  generalize hx : held t = y at h
  cases h with
  | keep =>
      refine ⟨?_, hcommon⟩
      rwa [← hx, Function.update_eq_self]
  | alloc a ha =>
      refine ⟨owns_update howns (hnobody (by simp [ha])) ?_ ?_, common_other hcommon ?_ nofun⟩
      · simp [eq_comm]
      · intro b hb
        simp [hx, hb.symm]
      · simp [ha]
  | detach a ha =>
      refine ⟨owns_update howns (hnobody (by simp [ha])) ?_ ?_, common_erase hcommon ha nofun⟩
      · simp [eq_comm]
      · intro b hb
        simp [hx, hb.symm]
  | attach a =>
      refine ⟨owns_update howns (hunique hx) ?_ ?_, common_insert hcommon ?_⟩
      · simp
      · intro b hb
        simp [hx, hb.symm]
      · simp [(howns t a).mpr hx]
  | free a =>
      refine ⟨owns_update howns (hunique hx) ?_ ?_, common_other hcommon ?_ nofun⟩
      · simp
      · intro b hb
        simp [hx, hb.symm]
      · simp [(howns t a).mpr hx]

end Lzhlib.Ownership
