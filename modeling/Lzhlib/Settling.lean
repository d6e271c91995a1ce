import Lzhlib.Interleaving
import Mathlib.Algebra.Order.BigOperators.Group.Finset

namespace Lzhlib.Settling

open Interleaving

/-- No run goes on for ever, and none stops before `rest` holds. -/
inductive Settles {κ : Type} (step : κ → κ → Prop) (rest : κ → Prop) : κ → Prop
  | rest {c} (h : rest c) : Settles step rest c
  | later {c} (hmoves : ∃ d, step c d) (h : ∀ d, step c d → Settles step rest d) :
      Settles step rest c

section Measures

variable {κ : Type} {step : κ → κ → Prop} {rest : κ → Prop} {c d : κ}

theorem settles_of_measure {I : κ → Prop} (measure : κ → Nat × Nat)
    (hkeep : ∀ c d, I c → step c d → I d)
    (hless : ∀ c d, I c → step c d → Prod.Lex (· < ·) (· < ·) (measure d) (measure c))
    (hmoves : ∀ c, I c → rest c ∨ ∃ d, step c d) (hc : I c) : Settles step rest c := by
  have hwf : WellFounded (Prod.Lex (· < · : Nat → Nat → Prop) (· < · : Nat → Nat → Prop)) :=
    (Prod.lex Nat.lt_wfRel Nat.lt_wfRel).wf
  generalize hm : measure c = m
  induction m using hwf.induction generalizing c with
  | _ m ih =>
      subst hm
      obtain hrest | hnext := hmoves c hc
      · exact .rest hrest
      · exact .later hnext fun d hstep => ih _ (hless c d hc hstep) (hkeep c d hc hstep) rfl

end Measures

section Ranks

variable {ι σ π : Type} [DecidableEq ι] {move : ι → σ → π → σ → π → Prop}
  {guard : Config ι σ π → ι → Prop} {c d : Config ι σ π} {rest : Config ι σ π → Prop}

theorem finitely_active {p₀ : π} {F₀ : Finset ι} (hc : ∀ t, t ∉ F₀ → c.pc t = p₀)
    (h : Steps move c d) : ∃ F : Finset ι, ∀ t, t ∉ F → d.pc t = p₀ := by
  induction h with
  | refl => exact ⟨F₀, hc⟩
  | @tail d _ _ hlast ih =>
      obtain ⟨t, s, p, -, rfl⟩ := hlast
      obtain ⟨F, hF⟩ := ih
      refine ⟨insert t F, fun u hu => ?_⟩
      rw [Finset.mem_insert, not_or] at hu
      rw [after_pc_of_ne _ hu.1]
      exact hF u hu.2

theorem sum_after_lt {F : Finset ι} {t : ι} {s : σ} {p : π} (rank : ι → σ → π → Nat) (ht : t ∈ F)
    (hown : rank t s p < rank t c.shared (c.pc t))
    (hothers : ∀ u, u ≠ t → rank u s (c.pc u) ≤ rank u c.shared (c.pc u)) :
    ∑ u ∈ F, rank u s ((c.after t s p).pc u) < ∑ u ∈ F, rank u c.shared (c.pc u) := by
  apply Finset.sum_lt_sum
  · intro u _
    exact after_forall (P := fun u q => rank u s q ≤ rank u c.shared (c.pc u)) c s hown.le hothers u
  · exact ⟨t, ht, by rwa [after_pc_self]⟩

theorem sum_after {F : Finset ι} {t : ι} {s : σ} {p : π} (f : π → Nat) (ht : t ∈ F) :
    ∑ u ∈ F, f ((c.after t s p).pc u) + f (c.pc t) = ∑ u ∈ F, f (c.pc u) + f p := by
  have hothers : ∑ u ∈ F.erase t, f ((c.after t s p).pc u) = ∑ u ∈ F.erase t, f (c.pc u) :=
    Finset.sum_congr rfl fun u hu => by rw [after_pc_of_ne _ (Finset.ne_of_mem_erase hu)]
  rw [← Finset.add_sum_erase F _ ht, ← Finset.add_sum_erase F (fun u => f (c.pc u)) ht, hothers,
    after_pc_self]
  omega

/-- The rule of ranks. A step spends fuel, or it keeps the fuel and lowers the
rank of its thread, and then raises that of no other. -/
theorem settles_of_ranks {I : Config ι σ π → Prop} (F : Finset ι) (fuel : Config ι σ π → Nat)
    (rank : ι → σ → π → Nat)
    (hkeep : ∀ c t s p, I c → guard c t → move t c.shared (c.pc t) s p → I (c.after t s p))
    (hless : ∀ c t s p, I c → guard c t → move t c.shared (c.pc t) s p →
      fuel (c.after t s p) < fuel c ∨ (fuel (c.after t s p) = fuel c ∧ t ∈ F ∧
        rank t s p < rank t c.shared (c.pc t) ∧
        ∀ u, u ≠ t → rank u s (c.pc u) ≤ rank u c.shared (c.pc u)))
    (hmoves : ∀ c, I c → rest c ∨ ∃ t s p, guard c t ∧ move t c.shared (c.pc t) s p) (hc : I c) :
    Settles (GuardedStep move guard) rest c := by
  apply settles_of_measure (I := I) fun c => (fuel c, ∑ u ∈ F, rank u c.shared (c.pc u))
  · rintro c _ hi ⟨t, s, p, hg, hm, rfl⟩
    exact hkeep c t s p hi hg hm
  · rintro c _ hi ⟨t, s, p, hg, hm, rfl⟩
    obtain hfuel | ⟨hfuel, ht, hrank, hothers⟩ := hless c t s p hi hg hm
    · exact .left _ _ hfuel
    · rw [hfuel]
      exact .right _ (sum_after_lt rank ht hrank hothers)
  · intro c hi
    refine (hmoves c hi).imp_right ?_
    rintro ⟨t, s, p, hg, hm⟩
    exact ⟨_, t, s, p, hg, hm, rfl⟩
  · exact hc

end Ranks

end Lzhlib.Settling
