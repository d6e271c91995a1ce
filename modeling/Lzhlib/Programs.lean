import Mathlib.Data.List.Nodup
import Mathlib.Logic.Function.Basic

namespace Lzhlib.Programs

variable {ε σ τ α β : Type}

/-- Programs over a store that may throw. A throw keeps the store it was
raised in, as an exception of the source does. -/
abbrev Program (ε σ α : Type) := EStateM ε σ α

theorem bind_ok {p : Program ε σ α} {s t : σ} {a : α} (h : p s = .ok a t)
    (f : α → Program ε σ β) : (p >>= f) s = f a t := by
  simp only [bind, EStateM.bind, h]

theorem bind_error {p : Program ε σ α} {s t : σ} {e : ε} (h : p s = .error e t)
    (f : α → Program ε σ β) : (p >>= f) s = .error e t := by
  simp only [bind, EStateM.bind, h]

theorem error_of_bind_pure {p : Program ε σ α} {f : α → β} {s t : σ} {e : ε}
    (h : (p >>= fun a => pure (f a)) s = .error e t) : p s = .error e t := by
  cases hp : p s with
  | ok a u =>
      rw [bind_ok hp] at h
      cases h
  | error e' u =>
      rw [bind_error hp] at h
      cases h
      rfl

@[simp] theorem pure_apply (a : α) (s : σ) : (pure a : Program ε σ α) s = .ok a s := rfl

@[simp] theorem throw_apply (e : ε) (s : σ) : (throw e : Program ε σ α) s = .error e s := rfl

@[simp] theorem modify_apply (f : σ → σ) (s : σ) :
    (modify f : Program ε σ PUnit) s = .ok ⟨⟩ (f s) := rfl

@[simp] theorem pure_bind_apply (a : α) (f : α → Program ε σ β) (s : σ) :
    (pure a >>= f) s = f a s := rfl

@[simp] theorem throw_bind_apply (e : ε) (f : α → Program ε σ β) (s : σ) :
    ((throw e : Program ε σ α) >>= f) s = .error e s := rfl

@[simp] theorem get_bind_apply (f : σ → Program ε σ β) (s : σ) : (get >>= f) s = f s s := rfl

@[simp] theorem modify_bind_apply (g : σ → σ) (f : PUnit → Program ε σ β) (s : σ) :
    ((modify g : Program ε σ PUnit) >>= f) s = f ⟨⟩ (g s) := rfl

theorem modifyGet_bind {g : σ → β × σ} {s t : σ} {b : β} (h : g s = (b, t))
    (f : β → Program ε σ α) : (modifyGet g >>= f) s = f b t := by
  have hrun : (modifyGet g : Program ε σ β) s = .ok (g s).1 (g s).2 := rfl
  rw [bind_ok hrun, h]

theorem ok_of_bind {p : Program ε σ α} {f : α → Program ε σ β} {s t : σ} {b : β}
    (h : (p >>= f) s = .ok b t) : ∃ a u, p s = .ok a u ∧ f a u = .ok b t := by
  cases hp : p s with
  | ok a u => exact ⟨a, u, rfl, (bind_ok hp f).symm.trans h⟩
  | error e u =>
      rw [bind_error hp] at h
      cases h

theorem mapM_forall {P : β → Prop} {p : α → Program ε σ β}
    (h : ∀ a s b t, p a s = .ok b t → P b) {as : List α} {bs : List β} {s t : σ}
    (hrun : as.mapM p s = .ok bs t) : ∀ b ∈ bs, P b := by
  induction as generalizing s bs with
  | nil =>
      cases hrun
      exact List.forall_mem_nil _
  | cons a as ih =>
      rw [List.mapM_cons] at hrun
      obtain ⟨b, u, ha, hrun⟩ := ok_of_bind hrun
      obtain ⟨bs', u', has, hrun⟩ := ok_of_bind hrun
      cases hrun
      exact List.forall_mem_cons.mpr ⟨h a s b u ha, ih has⟩

/-- A member of a larger store. -/
structure Part (σ τ : Type) where
  get : σ → τ
  set : τ → σ → σ

def zoom (part : Part σ τ) (p : Program ε τ α) : Program ε σ α := fun s =>
  match p (part.get s) with
  | .ok a t => .ok a (part.set t s)
  | .error e t => .error e (part.set t s)

theorem zoom_ok (part : Part σ τ) {p : Program ε τ α} {s : σ} {t : τ} {a : α}
    (h : p (part.get s) = .ok a t) : zoom part p s = .ok a (part.set t s) := by
  simp only [zoom, h]

theorem zoom_error (part : Part σ τ) {p : Program ε τ α} {s : σ} {t : τ} {e : ε}
    (h : p (part.get s) = .error e t) : zoom part p s = .error e (part.set t s) := by
  simp only [zoom, h]

def forEach (body : β → Program ε σ PUnit) : List β → Program ε σ PUnit
  | [] => pure ⟨⟩
  | b :: rest => do body b; forEach body rest

theorem forEach_append (body : β → Program ε σ PUnit) (l m : List β) {s t : σ}
    (h : forEach body l s = .ok ⟨⟩ t) : forEach body (l ++ m) s = forEach body m t := by
  induction l generalizing s with
  | nil =>
      cases h
      rfl
  | cons b l ih =>
      obtain ⟨a, u, hb, h⟩ := ok_of_bind h
      exact (bind_ok hb _).trans (ih h)

theorem forEach_keys {κ : Type} {body : β → Program ε σ PUnit} (key : β → κ)
    (I : List κ → σ → Prop) (l : List β) (hnodup : (l.map key).Nodup)
    (hbody : ∀ b ∈ l, ∀ d s, key b ∉ d → I d s → ∃ t, body b s = .ok ⟨⟩ t ∧ I (d ++ [key b]) t)
    (d : List κ) (hd : ∀ b ∈ l, key b ∉ d) {s : σ} (hs : I d s) :
    ∃ t, forEach body l s = .ok ⟨⟩ t ∧ I (d ++ l.map key) t := by
  induction l generalizing d s with
  | nil => exact ⟨s, rfl, by rwa [List.map_nil, List.append_nil]⟩
  | cons b l ih =>
      obtain ⟨hnot, hnodup⟩ := List.nodup_cons.mp hnodup
      obtain ⟨t, ht, hi⟩ := hbody b List.mem_cons_self d s (hd b List.mem_cons_self) hs
      have hd' : ∀ c ∈ l, key c ∉ d ++ [key b] := by
        intro c hc hmem
        obtain hmem | hmem := List.mem_append.mp hmem
        · exact hd c (List.mem_cons_of_mem b hc) hmem
        · exact hnot (List.mem_singleton.mp hmem ▸ List.mem_map_of_mem hc)
      obtain ⟨u, hu, hj⟩ :=
        ih hnodup (fun c hc => hbody c (List.mem_cons_of_mem b hc)) (d ++ [key b]) hd' hi
      refine ⟨u, ?_, by rwa [List.append_assoc] at hj⟩
      rw [forEach, bind_ok ht]
      exact hu

theorem forEach_ok {κ : Type} {body : β → Program ε σ PUnit} (key : β → κ)
    (I : List κ → σ → Prop) (l : List β) (hnodup : (l.map key).Nodup)
    (hbody : ∀ b ∈ l, ∀ d s, key b ∉ d → I d s → ∃ t, body b s = .ok ⟨⟩ t ∧ I (d ++ [key b]) t)
    {s : σ} (hs : I [] s) : ∃ t, forEach body l s = .ok ⟨⟩ t ∧ I (l.map key) t :=
  forEach_keys key I l hnodup hbody [] (fun _ _ => List.not_mem_nil) hs

def forRange (start stop : Nat) (body : Nat → Program ε σ PUnit) : Program ε σ PUnit :=
  forEach body (List.range' start (stop - start))

theorem forRange_ok {start stop : Nat} {body : Nat → Program ε σ PUnit} (I : Nat → σ → Prop)
    (hle : start ≤ stop)
    (hbody : ∀ i s, start ≤ i → i < stop → I i s → ∃ t, body i s = .ok ⟨⟩ t ∧ I (i + 1) t)
    {s : σ} (hs : I start s) : ∃ t, forRange start stop body s = .ok ⟨⟩ t ∧ I stop t := by
  obtain ⟨len, rfl⟩ := Nat.exists_eq_add_of_le hle
  simp only [forRange, Nat.add_sub_cancel_left]
  induction len generalizing start s with
  | zero => exact ⟨s, rfl, hs⟩
  | succ len ih =>
      obtain ⟨t, ht, hi⟩ := hbody start s (Nat.le_refl _) (by omega) hs
      obtain ⟨u, hu, hj⟩ := ih hi (by omega)
        (fun i s h h' => hbody i s (by omega) (by omega))
      refine ⟨u, ?_, by rwa [Nat.add_assoc, Nat.add_comm 1] at hj⟩
      rw [List.range'_succ, forEach, bind_ok ht]
      exact hu

/-- The outcome of a call as its caller sees it: the value or the exception,
and the store left behind in either case. -/
def outcome (p : Program ε σ α) (s : σ) : Except ε α × σ :=
  match p s with
  | .ok a t => (.ok a, t)
  | .error e t => (.error e, t)

theorem outcome_ok {p : Program ε σ α} {s t : σ} {a : α} (h : p s = .ok a t) :
    outcome p s = (.ok a, t) := by
  simp only [outcome, h]

theorem outcome_error {p : Program ε σ α} {s t : σ} {e : ε} (h : p s = .error e t) :
    outcome p s = (.error e, t) := by
  simp only [outcome, h]

theorem ok_of_outcome {p : Program ε σ α} {s t : σ} {a : α} (h : outcome p s = (.ok a, t)) :
    p s = .ok a t := by
  cases hp : p s with
  | ok b u =>
      rw [outcome_ok hp] at h
      cases h
      rfl
  | error e u =>
      rw [outcome_error hp] at h
      cases h

theorem error_of_outcome {p : Program ε σ α} {s t : σ} {e : ε}
    (h : outcome p s = (.error e, t)) : p s = .error e t := by
  cases hp : p s with
  | ok b u =>
      rw [outcome_ok hp] at h
      cases h
  | error e u =>
      rw [outcome_error hp] at h
      cases h
      rfl

theorem outcome_bind_ok {p : Program ε σ α} {s t : σ} {a : α} (h : outcome p s = (.ok a, t))
    (f : α → Program ε σ β) : outcome (p >>= f) s = outcome (f a) t := by
  rw [outcome, bind_ok (ok_of_outcome h), outcome]

theorem outcome_bind_error {p : Program ε σ α} {s t : σ} {e : ε} (h : outcome p s = (.error e, t))
    (f : α → Program ε σ β) : outcome (p >>= f) s = (.error e, t) :=
  outcome_error (bind_error (error_of_outcome h) f)

theorem outcome_map (p : Program ε σ α) (f : α → β) (s : σ) :
    outcome (do return f (← p)) s = ((outcome p s).1.map f, (outcome p s).2) := by
  cases hp : p s with
  | ok a t =>
      rw [outcome_ok hp]
      exact outcome_ok (bind_ok hp _)
  | error e t =>
      rw [outcome_error hp]
      exact outcome_error (bind_error hp _)

theorem outcome_zoom (part : Part σ τ) (p : Program ε τ α) (s : σ) : outcome (zoom part p) s =
    ((outcome p (part.get s)).1, part.set (outcome p (part.get s)).2 s) := by
  rw [outcome, zoom, outcome]
  cases p (part.get s) <;> rfl

section Preserves

variable {I : σ → Prop} {p : Program ε σ α}

def Preserves (I : σ → Prop) (p : Program ε σ α) : Prop := ∀ s, I s → I (outcome p s).2

theorem Preserves.pure (a : α) : Preserves I (pure a : Program ε σ α) := fun _ h => h

theorem Preserves.throw (e : ε) : Preserves I (throw e : Program ε σ α) := fun _ h => h

theorem Preserves.bind {f : α → Program ε σ β} (hp : Preserves I p) (hf : ∀ a, Preserves I (f a)) :
    Preserves I (p >>= f) := by
  intro s hs
  have hi := hp s hs
  cases h : p s with
  | ok a t =>
      rw [outcome_ok h] at hi
      have ht : outcome (p >>= f) s = outcome (f a) t := by rw [outcome, bind_ok h, outcome]
      rw [ht]
      exact hf a t hi
  | error e t =>
      rw [outcome_error h] at hi
      rw [outcome_error (bind_error h f)]
      exact hi

theorem Preserves.forEach {body : β → Program ε σ PUnit} (h : ∀ b, Preserves I (body b))
    (l : List β) : Preserves I (forEach body l) := by
  induction l with
  | nil => exact Preserves.pure _
  | cons b l ih => exact (h b).bind fun _ => ih

end Preserves

end Lzhlib.Programs
