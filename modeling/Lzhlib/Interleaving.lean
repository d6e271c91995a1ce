import Mathlib.Logic.Function.Basic
import Mathlib.Logic.Relation

namespace Lzhlib.Interleaving

variable {ι σ π γ : Type} [DecidableEq ι]

/-- What the threads share, and where each of them is. -/
structure Config (ι σ π : Type) where
  shared : σ
  pc : ι → π

def Config.after (c : Config ι σ π) (t : ι) (s : σ) (p : π) : Config ι σ π :=
  ⟨s, Function.update c.pc t p⟩

@[simp] theorem after_shared (c : Config ι σ π) (t : ι) (s : σ) (p : π) :
    (c.after t s p).shared = s := rfl

@[simp] theorem after_pc_self (c : Config ι σ π) (t : ι) (s : σ) (p : π) :
    (c.after t s p).pc t = p := Function.update_self _ _ _

theorem after_pc_of_ne (c : Config ι σ π) {t u : ι} (h : u ≠ t) (s : σ) (p : π) :
    (c.after t s p).pc u = c.pc u := Function.update_of_ne h _ _

theorem after_forall {P : ι → π → Prop} (c : Config ι σ π) {t : ι} (s : σ) {p : π} (hown : P t p)
    (hothers : ∀ u, u ≠ t → P u (c.pc u)) (u : ι) : P u ((c.after t s p).pc u) := by
  by_cases hu : u = t
  · subst u
    rwa [after_pc_self]
  · rw [after_pc_of_ne _ hu]
    exact hothers u hu

theorem after_same (c : Config ι σ π) {t : ι} {s : σ} {p : π} (hs : s = c.shared)
    (hp : p = c.pc t) : c.after t s p = c := by
  rw [Config.after, hs, hp, Function.update_eq_self]

def Step (move : ι → σ → π → σ → π → Prop) (c d : Config ι σ π) : Prop :=
  ∃ t s p, move t c.shared (c.pc t) s p ∧ d = c.after t s p

abbrev Steps (move : ι → σ → π → σ → π → Prop) : Config ι σ π → Config ι σ π → Prop :=
  Relation.ReflTransGen (Step move)

variable {move : ι → σ → π → σ → π → Prop}

theorem Steps.next {c d : Config ι σ π} (h : Steps move c d) (t : ι) {s : σ} {p : π}
    (hm : move t d.shared (d.pc t) s p) : Steps move c (d.after t s p) :=
  h.tail ⟨t, s, p, hm, rfl⟩

theorem Steps.next_at {c d : Config ι σ π} (h : Steps move c d) {t : ι} {p₀ : π} (hp : d.pc t = p₀)
    {s : σ} {p : π} (hm : move t d.shared p₀ s p) : Steps move c (d.after t s p) :=
  h.next t (hp ▸ hm)

inductive Alone (move : ι → σ → π → σ → π → Prop) (t : ι) (s : σ) (p : π) : σ → π → Prop
  | refl : Alone move t s p s p
  | next {s' p' s'' p''} (h : Alone move t s p s' p') (hm : move t s' p' s'' p'') :
      Alone move t s p s'' p''

theorem Steps.start {c d : Config ι σ π} (_ : Steps move c d) (t : ι) :
    Alone move t d.shared (d.pc t) d.shared (d.pc t) := .refl

theorem Steps.alone {c d : Config ι σ π} (h : Steps move c d) {t : ι} {s : σ} {p : π}
    (ha : Alone move t d.shared (d.pc t) s p) : Steps move c (d.after t s p) := by
  induction ha with
  | refl =>
      rwa [after_same d rfl rfl]
  | @next s' p' s'' p'' _ hm ih =>
      have hsame : (d.after t s' p').after t s'' p'' = d.after t s'' p'' := by
        rw [Config.after, Config.after, Function.update_idem, Config.after]
      rw [← hsame]
      apply ih.next t
      rwa [after_shared, after_pc_self]

theorem Steps.call {c d : Config ι σ π} (h : Steps move c d) {t : ι} {s : σ}
    (ha : Alone move t d.shared (d.pc t) s (d.pc t)) : Steps move c ⟨s, d.pc⟩ := by
  have hafter := h.alone ha
  rwa [Config.after, Function.update_eq_self] at hafter

theorem Steps.invariant {I : Config ι σ π → Prop} {c d : Config ι σ π}
    (hstep : ∀ c t s p, I c → move t c.shared (c.pc t) s p → I (c.after t s p)) (hc : I c)
    (h : Steps move c d) : I d := by
  induction h with
  | refl => exact hc
  | tail _ hlast ih =>
      obtain ⟨t, s, p, hm, rfl⟩ := hlast
      exact hstep _ t s p ih hm

theorem Steps.threadwise {L : ι → π → Prop} {c d : Config ι σ π}
    (hstep : ∀ t s p s' p', move t s p s' p' → L t p → L t p') (hc : ∀ t, L t (c.pc t))
    (h : Steps move c d) (t : ι) : L t (d.pc t) := by
  refine h.invariant (I := fun d => ∀ t, L t (d.pc t)) ?_ hc t
  intro d t s p hd hm
  exact after_forall d s (hstep _ _ _ _ _ hm (hd t)) fun u _ => hd u

/-- The proof outline rule. The shared state satisfies `G`, every thread its own
assertion `L`, and `g` is an auxiliary value that the proof may change at each
step. The thread that moves establishes its next assertion, and the step
leaves the assertions of the other threads intact. -/
theorem Steps.outline {c d : Config ι σ π} (G : σ → γ → Prop) (L : ι → σ → γ → π → Prop)
    (hstart : ∃ g, G c.shared g ∧ ∀ t, L t c.shared g (c.pc t))
    (hstep : ∀ d g t s p, Steps move c d → G d.shared g → (∀ u, L u d.shared g (d.pc u)) →
      move t d.shared (d.pc t) s p →
      ∃ g', G s g' ∧ L t s g' p ∧ ∀ u, u ≠ t → L u s g' (d.pc u))
    (h : Steps move c d) : ∃ g, G d.shared g ∧ ∀ t, L t d.shared g (d.pc t) := by
  induction h with
  | refl => exact hstart
  | tail hd hlast ih =>
      obtain ⟨t, s, p, hm, rfl⟩ := hlast
      obtain ⟨g, hg, hl⟩ := ih
      obtain ⟨g', hg', hown, hothers⟩ := hstep _ g t s p hd hg hl hm
      exact ⟨g', hg', after_forall _ _ hown hothers⟩

section Guarded

def GuardedStep (move : ι → σ → π → σ → π → Prop) (guard : Config ι σ π → ι → Prop)
    (c d : Config ι σ π) : Prop :=
  ∃ t s p, guard c t ∧ move t c.shared (c.pc t) s p ∧ d = c.after t s p

abbrev GuardedSteps (move : ι → σ → π → σ → π → Prop) (guard : Config ι σ π → ι → Prop) :
    Config ι σ π → Config ι σ π → Prop :=
  Relation.ReflTransGen (GuardedStep move guard)

variable {guard : Config ι σ π → ι → Prop} {c d : Config ι σ π}

theorem GuardedSteps.next (h : GuardedSteps move guard c d) (t : ι) {s : σ} {p : π}
    (hg : guard d t) (hm : move t d.shared (d.pc t) s p) :
    GuardedSteps move guard c (d.after t s p) :=
  h.tail ⟨t, s, p, hg, hm, rfl⟩

theorem GuardedSteps.steps (h : GuardedSteps move guard c d) : Steps move c d := by
  induction h with
  | refl => exact .refl
  | tail _ hlast ih =>
      obtain ⟨t, s, p, -, hm, rfl⟩ := hlast
      exact ih.next t hm

theorem GuardedSteps.invariant {I : Config ι σ π → Prop}
    (hstep : ∀ d t s p, Steps move c d → I d → guard d t → move t d.shared (d.pc t) s p →
      I (d.after t s p)) (hc : I c) (h : GuardedSteps move guard c d) : I d := by
  induction h with
  | refl => exact hc
  | tail hd hlast ih =>
      obtain ⟨t, s, p, hg, hm, rfl⟩ := hlast
      exact hstep _ t s p (GuardedSteps.steps hd) ih hg hm

end Guarded

section Projection

variable {σ' π' : Type} {move' : ι → σ' → π' → σ' → π' → Prop} {f : σ → σ'} {g : π → π'}

/-- What a component sees of a system it is part of. -/
def Config.project (c : Config ι σ π) (f : σ → σ') (g : π → π') : Config ι σ' π' :=
  ⟨f c.shared, fun t => g (c.pc t)⟩

theorem project_after (c : Config ι σ π) (t : ι) (s : σ) (p : π) :
    (c.after t s p).project f g = (c.project f g).after t (f s) (g p) := by
  refine congrArg (Config.mk (f s)) (funext fun u => ?_)
  by_cases hu : u = t
  · subst u
    rw [after_pc_self, Function.update_self]
  · rw [after_pc_of_ne _ hu, Function.update_of_ne hu]
    rfl

theorem Steps.project {c d : Config ι σ π}
    (hstep : ∀ t s p s' p', move t s p s' p' →
      move' t (f s) (g p) (f s') (g p') ∨ (f s' = f s ∧ g p' = g p))
    (h : Steps move c d) : Steps move' (c.project f g) (d.project f g) := by
  induction h with
  | refl => exact .refl
  | @tail d _ _ hlast ih =>
      obtain ⟨t, s, p, hm, rfl⟩ := hlast
      rw [project_after]
      obtain hm' | ⟨hs, hp⟩ := hstep t _ _ s p hm
      · exact ih.next t hm'
      · rwa [after_same (d.project f g) hs hp]

end Projection

/-- What one step of the thread `t` does to a mutex that names its holder:
nothing, or the thread takes it, or gives it up. -/
def Handover (t : ι) (m m' : Option ι) (holds holds' : Prop) : Prop :=
  (m' = m ∧ (holds' ↔ holds)) ∨ (m = none ∧ m' = some t ∧ holds') ∨
    (holds ∧ m' = none ∧ ¬holds')

section Handover

variable {t u : ι} {m m' : Option ι} {holds holds' : Prop}

omit [DecidableEq ι] in
theorem Handover.own (h : Handover t m m' holds holds') (ho : m = some t ↔ holds) :
    m' = some t ↔ holds' := by
  obtain ⟨rfl, hiff⟩ | ⟨-, rfl, hh⟩ | ⟨-, rfl, hh⟩ := h
  · rw [ho, hiff]
  · exact iff_of_true rfl hh
  · exact iff_of_false (by simp) hh

omit [DecidableEq ι] in
theorem Handover.other (h : Handover t m m' holds holds') (ho : m = some t ↔ holds) (hu : u ≠ t) :
    m' = some u ↔ m = some u := by
  obtain ⟨rfl, -⟩ | ⟨rfl, rfl, -⟩ | ⟨hh, rfl, -⟩ := h
  · exact Iff.rfl
  · exact iff_of_false (by simpa using hu.symm) (by simp)
  · apply iff_of_false (by simp)
    rw [ho.mpr hh]
    simpa using hu.symm

theorem Steps.mutex {c d : Config ι σ π} (m : σ → Option ι) (holds : π → Prop)
    (hstep : ∀ t s p s' p', move t s p s' p' → Handover t (m s) (m s') (holds p) (holds p'))
    (hc : ∀ t, m c.shared = some t ↔ holds (c.pc t)) (h : Steps move c d) (t : ι) :
    m d.shared = some t ↔ holds (d.pc t) := by
  refine h.invariant (I := fun d => ∀ t, m d.shared = some t ↔ holds (d.pc t)) ?_ hc t
  intro d t s p hd hm
  have hhand := hstep _ _ _ _ _ hm
  apply after_forall d s (P := fun u q => m s = some u ↔ holds q)
  · exact hhand.own (hd t)
  · intro u hu
    rw [hhand.other (hd t) hu]
    exact hd u

end Handover

end Lzhlib.Interleaving
