import Lzhlib.RepoRuns

namespace Lzhlib.RepoMaps

open Programs Machine ValueRepo ObjectPool RepoRefinement

variable {V Args α : Type} {r : Repo V} {f : Nat → Option V} {i : Nat}

/-- A repository whose live slots all have a value is a finite map. -/
def Maps (r : Repo V) (f : Nat → Option V) : Prop :=
  ∃ p : Pool V, Refines r p ∧
    ∀ i, (i ∈ p.live ∧ p.value i = f i ∧ (f i).isSome) ∨ (i ∉ p.live ∧ f i = none)

theorem maps_empty : Maps (empty : Repo V) (fun _ => none) :=
  ⟨Pool.none, RepoRuns.refines_empty, fun _ => Or.inr ⟨List.not_mem_nil, rfl⟩⟩

theorem live_of_some {p : Pool V} {v : V}
    (hf : ∀ i, (i ∈ p.live ∧ p.value i = f i ∧ (f i).isSome) ∨ (i ∉ p.live ∧ f i = none))
    (hv : f i = some v) : i ∈ p.live ∧ p.value i = some v := by
  obtain ⟨hi, he, -⟩ | ⟨-, hn⟩ := hf i
  · exact ⟨hi, he.trans hv⟩
  · rw [hv] at hn
    cases hn

theorem getObject_maps (h : Maps r f) {v : V} (hv : f i = some v) : getObject i r = .ok v r := by
  obtain ⟨p, hr, hf⟩ := h
  obtain ⟨hi, hvalue⟩ := live_of_some hf hv
  apply ok_of_outcome
  rw [getObject_eq hr, Pool.get, Pool.demandLive_live hi, hvalue]
  rfl

theorem getObject_rejects (h : Maps r f) (hv : f i = none) :
    ∃ e, getObject i r = .error e r ∧ e.RejectsId i := by
  obtain ⟨p, hr, hf⟩ := h
  obtain ⟨-, -, hs⟩ | ⟨hi, -⟩ := hf i
  · rw [hv] at hs
    cases hs
  · have hget := getObject_eq hr i
    rw [Pool.get, Pool.demandLive] at hget
    split_ifs at hget with hsize
    · exact ⟨_, error_of_outcome hget, Or.inl rfl⟩
    · exact ⟨_, error_of_outcome hget, Or.inr rfl⟩

theorem isIdUsed_maps (h : Maps r f) (i : Nat) : isIdUsed i r = .ok (f i).isSome r := by
  obtain ⟨p, hr, hf⟩ := h
  apply ok_of_outcome
  rw [isIdUsed_eq hr]
  obtain ⟨hi, -, hs⟩ | ⟨hi, hn⟩ := hf i
  · simp [hi, hs]
  · simp [hi, hn]

theorem setObject_maps (h : Maps r f) {v : V} (hv : f i = some v) (w : V) :
    ∃ t, setObject i (some w) r = .ok ⟨⟩ t ∧ Maps t (Function.update f i (some w)) := by
  obtain ⟨p, hr, hf⟩ := h
  obtain ⟨hi, -⟩ := live_of_some hf hv
  obtain ⟨t, ht, hrt⟩ := setObject_simulates hr (p.mem_slots.mp (Or.inl hi)) (some w)
  refine ⟨t, ok_of_outcome ht, _, hrt, fun j => ?_⟩
  by_cases hj : j = i
  · subst j
    exact Or.inl ⟨hi, by simp, by simp⟩
  · simpa [hj] using hf j

theorem withObject_maps (h : Maps r f) {v w : V} {a : α} {p : Prog V α} (hv : f i = some v)
    (hp : p v = .ok a w) :
    ∃ t, withObject i p r = .ok a t ∧ Maps t (Function.update f i (some w)) := by
  obtain ⟨t, ht, hm⟩ := setObject_maps h hv w
  refine ⟨t, ?_, hm⟩
  rw [withObject, bind_ok (getObject_maps h hv), hp]
  exact bind_ok ht _

theorem withObject_throws (h : Maps r f) {v w : V} {e : Exc} {p : Prog V α} (hv : f i = some v)
    (hp : p v = .error e w) :
    ∃ t, withObject i p r = .error e t ∧ Maps t (Function.update f i (some w)) := by
  obtain ⟨t, ht, hm⟩ := setObject_maps h hv w
  refine ⟨t, ?_, hm⟩
  rw [withObject, bind_ok (getObject_maps h hv), hp]
  exact bind_ok ht _

theorem withObject_rejects (h : Maps r f) (hv : f i = none) (p : Prog V α) :
    ∃ e, withObject i p r = .error e r ∧ e.RejectsId i := by
  obtain ⟨e, he, hr⟩ := getObject_rejects h hv
  exact ⟨e, bind_error he _, hr⟩

theorem removeObject_maps (h : Maps r f) {v : V} (hv : f i = some v) :
    ∃ t, removeObject i r = .ok ⟨⟩ t ∧ Maps t (Function.update f i none) := by
  obtain ⟨p, hr, hf⟩ := h
  obtain ⟨hi, -⟩ := live_of_some hf hv
  obtain ⟨t, ht, hrt⟩ := removeObject_simulates hr i
  rw [Pool.remove, Pool.demandLive_live hi] at ht hrt
  have hnodup : p.live.Nodup := (List.nodup_append.mp p.nodup).1
  refine ⟨t, ok_of_outcome ht, _, hrt, fun j => ?_⟩
  have hmem : j ∈ p.live.erase i ↔ j ≠ i ∧ j ∈ p.live := hnodup.mem_erase_iff
  by_cases hj : j = i
  · subst j
    exact Or.inr ⟨by simp [Pool.giveBack, hmem], by simp⟩
  · simpa [Pool.giveBack, hmem, hj] using hf j

theorem removeObject_rejects (h : Maps r f) (hv : f i = none) :
    ∃ e t, removeObject i r = .error e t ∧ Maps t f := by
  obtain ⟨p, hr, hf⟩ := h
  obtain ⟨-, -, hs⟩ | ⟨hi, -⟩ := hf i
  · rw [hv] at hs
    cases hs
  · obtain ⟨t, ht, hrt⟩ := removeObject_simulates hr i
    rw [Pool.remove, Pool.demandLive, dif_neg hi] at ht hrt
    split_ifs at ht hrt
    · exact ⟨_, t, error_of_outcome ht, p, hrt, hf⟩
    · exact ⟨_, t, error_of_outcome ht, p, hrt, hf⟩

theorem assignObject_maps (type : ValueType Args V) {make : Args → V}
    (hc : ∀ a, type.construct a = .ok (make a))
    (ha : ∀ a old, type.assign a old = .ok ⟨⟩ (make a)) (fits : Nat → Bool) (args : Args)
    (h : Maps r f) :
    (∃ e t, assignObject type fits args r = .error e t ∧ e.NoRoom ∧ Maps t f) ∨
    (∃ i t, assignObject type fits args r = .ok i t ∧ f i = none ∧
      Maps t (Function.update f i (some (make args)))) := by
  obtain ⟨p, hr, hf⟩ := h
  obtain ⟨t, ht, hrt⟩ := assignObject_simulates type fits args hr
  rw [RepoRuns.settle_eq_store hc ha] at ht hrt
  rcases hp : p.reuse fits with ⟨e | i, q⟩
  · obtain ⟨hq, he⟩ := Pool.reuse_error hp
    rw [Pool.assign_error hp] at ht hrt
    exact Or.inl ⟨e, t, error_of_outcome ht, he, q, hrt, hq ▸ hf⟩
  · obtain ⟨hiq, hi, hlive, hvalue⟩ := reuse_live hp
    rw [Pool.assign_ok hp] at ht hrt
    refine Or.inr ⟨i, t, ok_of_outcome ht, ?_, _, hrt, fun j => ?_⟩
    · exact ((hf i).resolve_left fun h => hi h.1).2
    · by_cases hj : j = i
      · subst j
        exact Or.inl ⟨hiq, by simp [Pool.store], by simp⟩
      · simpa [Pool.store, hlive, hvalue, hj] using hf j

end Lzhlib.RepoMaps
