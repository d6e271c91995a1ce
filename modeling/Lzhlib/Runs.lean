import Mathlib.Logic.Function.Basic
import Mathlib.Order.MinMax

namespace Lzhlib.Runs

variable {Op σ τ ρ : Type}

/-- Run every operation from the state the previous one left, keeping what
each of them returned. -/
def run (step : Op → σ → ρ × σ) : List Op → σ → List ρ × σ
  | [], s => ([], s)
  | o :: os, s => ((step o s).1 :: (run step os (step o s).2).1, (run step os (step o s).2).2)

/-- Every operation of the run meets its precondition in the state it starts from. -/
def Along (step : Op → σ → ρ × σ) (pre : Op → σ → Prop) : List Op → σ → Prop
  | [], _ => True
  | o :: os, s => pre o s ∧ Along step pre os (step o s).2

theorem along_true (step : Op → σ → ρ × σ) (os : List Op) (s : σ) :
    Along step (fun _ _ => True) os s := by
  induction os generalizing s with
  | nil => trivial
  | cons o os ih => exact ⟨trivial, ih _⟩

theorem Along.imp {step : Op → σ → ρ × σ} {pre pre' : Op → σ → Prop} {os : List Op} {s : σ}
    (h : Along step pre os s) (himp : ∀ o s, pre o s → pre' o s) : Along step pre' os s := by
  induction os generalizing s with
  | nil => trivial
  | cons o os ih => exact ⟨himp o s h.1, ih h.2⟩

theorem Along.and {step : Op → σ → ρ × σ} {pre pre' : Op → σ → Prop} {os : List Op} {s : σ}
    (h : Along step pre os s) (h' : Along step pre' os s) :
    Along step (fun o s => pre o s ∧ pre' o s) os s := by
  induction os generalizing s with
  | nil => trivial
  | cons o os ih => exact ⟨⟨h.1, h'.1⟩, ih h.2 h'.2⟩

theorem run_invariant {step : Op → σ → ρ × σ} {pre : Op → σ → Prop} (I : σ → Prop) (Q : ρ → Prop)
    (hstep : ∀ o s, I s → pre o s → Q (step o s).1 ∧ I (step o s).2) (os : List Op) (s : σ)
    (hs : I s) (ho : Along step pre os s) :
    (∀ r ∈ (run step os s).1, Q r) ∧ I (run step os s).2 := by
  induction os generalizing s with
  | nil => exact ⟨fun r hr => absurd hr List.not_mem_nil, hs⟩
  | cons o os ih =>
      obtain ⟨hq, hi⟩ := hstep o s hs ho.1
      obtain ⟨hqs, his⟩ := ih _ hi ho.2
      refine ⟨?_, his⟩
      intro r hr
      obtain rfl | hr := List.mem_cons.mp hr
      · exact hq
      · exact hqs r hr

def Throughout (step : Op → σ → ρ × σ) (P : σ → Prop) : List Op → σ → Prop
  | [], s => P s
  | o :: os, s => P s ∧ Throughout step P os (step o s).2

theorem Throughout.head {step : Op → σ → ρ × σ} {P : σ → Prop} {os : List Op} {s : σ}
    (h : Throughout step P os s) : P s := by
  cases os with
  | nil => exact h
  | cons o os => exact h.1

/-- When a condition on each step decides whether the step keeps a property,
the same condition along the run decides it for the whole run. -/
theorem throughout_iff_along {step : Op → σ → ρ × σ} {pre cond : Op → σ → Prop} {I P : σ → Prop}
    (hstep : ∀ o s, I s → P s → pre o s → I (step o s).2 ∧ (P (step o s).2 ↔ cond o s))
    (os : List Op) (s : σ) (hi : I s) (hp : P s) (ho : Along step pre os s) :
    Throughout step P os s ↔ Along step cond os s := by
  induction os generalizing s with
  | nil => exact iff_of_true hp trivial
  | cons o os ih =>
      obtain ⟨hi', hcond⟩ := hstep o s hi hp ho.1
      constructor
      · rintro ⟨-, hrest⟩
        exact ⟨hcond.mp hrest.head, (ih _ hi' hrest.head ho.2).mp hrest⟩
      · rintro ⟨hc, hrest⟩
        exact ⟨hp, (ih _ hi' (hcond.mpr hc) ho.2).mpr hrest⟩

/-- Forward simulation for deterministic operations: related states give equal
outcomes and related successors, so whole runs agree. -/
theorem run_simulation {step : Op → σ → ρ × σ} {spec : Op → τ → ρ × τ}
    (pre : Op → τ → Prop) (R : σ → τ → Prop)
    (hstep : ∀ o s a, R s a → pre o a → (step o s).1 = (spec o a).1 ∧ R (step o s).2 (spec o a).2)
    (os : List Op) (s : σ) (a : τ) (hr : R s a) (ho : Along spec pre os a) :
    (run step os s).1 = (run spec os a).1 ∧ R (run step os s).2 (run spec os a).2 := by
  induction os generalizing s a with
  | nil => exact ⟨rfl, hr⟩
  | cons o os ih =>
      obtain ⟨he, hr'⟩ := hstep o s a hr ho.1
      obtain ⟨hes, hrs⟩ := ih _ _ hr' ho.2
      exact ⟨by simp only [run, he, hes], hrs⟩

theorem run_append (step : Op → σ → ρ × σ) (os os' : List Op) (s : σ) :
    (run step (os ++ os') s).2 = (run step os' (run step os s).2).2 := by
  induction os generalizing s with
  | nil => rfl
  | cons o os ih => exact ih _

theorem along_map {step : Op → σ → ρ × σ} {spec : Op → τ → ρ × τ} {pre : Op → σ → Prop}
    {pre' : Op → τ → Prop} {φ : τ → σ} (hstep : ∀ o a, (step o (φ a)).2 = φ (spec o a).2)
    (hpre : ∀ o a, pre o (φ a) ↔ pre' o a) (os : List Op) (a : τ) :
    Along step pre os (φ a) ↔ Along spec pre' os a := by
  induction os generalizing a with
  | nil => exact Iff.rfl
  | cons o os ih =>
      rw [Along, Along, hpre, hstep, ih]

/-- Two machines are in the same state after every part of a run if and only if
no operation of it takes them apart. -/
theorem agree_iff_along {f g : Op → σ → ρ × σ} {cond : Op → σ → Prop}
    (hcond : ∀ o s, (f o s).2 = (g o s).2 ↔ cond o s) (os : List Op) (s : σ) :
    (∀ done, done <+: os → (run f done s).2 = (run g done s).2) ↔ Along f cond os s := by
  induction os generalizing s with
  | nil =>
      refine iff_of_true (fun done hdone => ?_) trivial
      rw [List.prefix_nil.mp hdone]
      rfl
  | cons o os ih =>
      constructor
      · intro h
        have hfirst : (f o s).2 = (g o s).2 := h [o] ⟨os, rfl⟩
        refine ⟨(hcond o s).mp hfirst, (ih _).mp fun done hdone => ?_⟩
        have hrest := h (o :: done) (List.cons_prefix_cons.mpr ⟨rfl, hdone⟩)
        rw [run, run, ← hfirst] at hrest
        exact hrest
      · rintro ⟨hc, hrest⟩ done hdone
        cases done with
        | nil => rfl
        | cons o' done =>
            obtain ⟨rfl, htail⟩ := List.cons_prefix_cons.mp hdone
            rw [run, run, ← (hcond o' s).mpr hc]
            exact (ih _).mpr hrest done htail

def peak (step : Op → σ → ρ × σ) (measure : σ → Nat) : List Op → σ → Nat
  | [], s => measure s
  | o :: os, s => max (measure s) (peak step measure os (step o s).2)

theorem measure_le_peak (step : Op → σ → ρ × σ) (measure : σ → Nat) (os : List Op) (s : σ) :
    measure s ≤ peak step measure os s := by
  cases os with
  | nil => exact le_rfl
  | cons o os => exact le_max_left _ _

theorem run_peak {step : Op → σ → ρ × σ} {measure : σ → Nat} (I : Nat → σ → Prop)
    (hstep : ∀ o s m, I m s → I (max m (measure (step o s).2)) (step o s).2) (os : List Op) {s : σ}
    {m : Nat} (hs : I m s) (hm : measure s ≤ m) :
    I (max m (peak step measure os s)) (run step os s).2 := by
  induction os generalizing s m with
  | nil =>
      rw [peak, max_eq_left hm]
      exact hs
  | cons o os ih =>
      have hrest := ih (hstep o s m hs) (le_max_right _ _)
      rw [max_assoc, max_eq_right (measure_le_peak step measure os _)] at hrest
      rw [peak, ← max_assoc, max_eq_left hm]
      exact hrest

section SideBySide

variable {ι : Type} [DecidableEq ι]

def each (step : Op → σ → ρ × σ) (o : ι × Op) (v : ι → σ) : ρ × (ι → σ) :=
  ((step o.2 (v o.1)).1, Function.update v o.1 (step o.2 (v o.1)).2)

def opsOf (i : ι) : List (ι × Op) → List Op
  | [] => []
  | o :: os => if o.1 = i then o.2 :: opsOf i os else opsOf i os

def resultsOf (i : ι) : List (ι × Op) → List ρ → List ρ
  | o :: os, r :: rs => if o.1 = i then r :: resultsOf i os rs else resultsOf i os rs
  | _, _ => []

theorem run_each (step : Op → σ → ρ × σ) (i : ι) (os : List (ι × Op)) (v : ι → σ) :
    resultsOf i os (run (each step) os v).1 = (run step (opsOf i os) (v i)).1 ∧
      (run (each step) os v).2 i = (run step (opsOf i os) (v i)).2 := by
  induction os generalizing v with
  | nil => exact ⟨rfl, rfl⟩
  | cons o os ih =>
      obtain ⟨hresults, hstate⟩ := ih (each step o v).2
      by_cases hi : o.1 = i
      · subst hi
        have hnext : (each step o v).2 o.1 = (step o.2 (v o.1)).2 := Function.update_self _ _ _
        rw [hnext] at hresults hstate
        rw [run, resultsOf, if_pos rfl, opsOf, if_pos rfl, run]
        exact ⟨congrArg _ hresults, hstate⟩
      · have hnext : (each step o v).2 i = v i := Function.update_of_ne (Ne.symm hi) _ _
        rw [hnext] at hresults hstate
        rw [run, resultsOf, if_neg hi, opsOf, if_neg hi]
        exact ⟨hresults, hstate⟩

theorem update_eq_update_iff {i j : ι} (h : i ≠ j) {f : ι → σ} {x y : σ} :
    Function.update f i x = Function.update f j y ↔ x = f i ∧ y = f j := by
  constructor
  · intro heq
    have hi := congrFun heq i
    have hj := congrFun heq j
    rw [Function.update_self, Function.update_of_ne h] at hi
    rw [Function.update_self, Function.update_of_ne h.symm] at hj
    exact ⟨hi, hj.symm⟩
  · rintro ⟨rfl, rfl⟩
    rw [Function.update_eq_self, Function.update_eq_self]

end SideBySide

end Lzhlib.Runs
