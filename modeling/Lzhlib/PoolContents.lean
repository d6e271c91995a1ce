import Lzhlib.RepoRefinement

namespace Lzhlib.ObjectPool.Pool

open Machine RepoRefinement

variable {V W : Type} {p q : Pool V} {i j : Nat} {v : V}

theorem ext (hl : p.live = q.live) (hf : p.free = q.free) (hv : ∀ i, p.value i = q.value i) :
    p = q := by
  obtain ⟨live, free, value, _⟩ := p
  obtain ⟨live', free', value', _⟩ := q
  obtain rfl : live = live' := hl
  obtain rfl : free = free' := hf
  obtain rfl : value = value' := funext hv
  rfl

/-- The ids in use are those that stand for a value. -/
def Full (p : Pool V) : Prop := ∀ i, i ∈ p.live ↔ ∃ v, p.value i = some v

theorem full_none : (none : Pool V).Full := fun i => iff_of_false List.not_mem_nil (by simp [none])

theorem Full.live (hp : p.Full) (h : p.value i = some v) : i ∈ p.live := (hp i).mpr ⟨v, h⟩

theorem Full.value_none (hp : p.Full) (h : i ∉ p.live) : p.value i = .none := by
  rw [hp, not_exists] at h
  exact Option.eq_none_iff_forall_ne_some.mpr h

theorem get_live (hp : p.Full) (h : p.value i = some v) : (p.get i).1 = .ok v := by
  rw [get, demandLive_live (hp.live h), h]
  rfl

theorem value_of_get (hp : p.Full) (h : (p.get i).1 = .ok v) : p.value i = some v := by
  by_cases hi : i ∈ p.live
  · obtain ⟨w, hw⟩ := (hp i).mp hi
    rw [get_live hp hw] at h
    cases h
    exact hw
  · rw [get, demandLive, dif_neg hi] at h
    split_ifs at h

theorem setValue_full (hp : p.Full) (hi : i ∈ p.live) (v : V) : (p.setValue i (some v)).Full := by
  intro j
  by_cases hj : j = i
  · subst j
    simpa using hi
  · simpa [hj] using hp j

theorem assign_full {fits : Nat → Bool} (hp : p.Full) (h : p.reuse fits = (.ok i, q)) (v : V) :
    (q.setValue i (some v)).Full := by
  obtain ⟨-, -, hlive, hvalue⟩ := reuse_live h
  intro j
  rw [setValue_live, setValue_value, hlive, hvalue]
  by_cases hj : j = i
  · simp [hj]
  · simpa [hj] using hp j

theorem setValue_setValue (p : Pool V) (i : Nat) (a b : Option V) :
    (p.setValue i a).setValue i b = p.setValue i b :=
  ext rfl rfl fun j => by simp

theorem setValue_same (h : p.value i = some v) : p.setValue i (some v) = p :=
  ext rfl rfl fun j => by rw [setValue_value, ← h, Function.update_eq_self]

section Discard

def discard (p : Pool V) (i : Nat) : Pool V :=
  if h : i ∈ p.live then (p.setValue i .none).giveBack i h else p

theorem discard_of_live (h : i ∈ p.live) : p.discard i = (p.setValue i .none).giveBack i h :=
  dif_pos h

theorem discard_of_dead (h : i ∉ p.live) : p.discard i = p := dif_neg h

theorem setValue_discard (h : i ∈ p.live) (a : Option V) : (p.setValue i a).discard i = p.discard i := by
  rw [discard_of_live h, discard_of_live (p := p.setValue i a) h]
  refine ext rfl rfl fun j => ?_
  by_cases hj : j = i <;> simp [giveBack, hj]

theorem remove_live (h : i ∈ p.live) : p.remove i = (.ok ⟨⟩, p.discard i) := by
  rw [remove, demandLive_live h, discard_of_live h]

theorem mem_discard : j ∈ (p.discard i).live ↔ j ≠ i ∧ j ∈ p.live := by
  have hnodup : p.live.Nodup := (List.nodup_append.mp p.nodup).1
  rw [discard]
  split_ifs with h
  · exact hnodup.mem_erase_iff
  · rw [iff_and_self]
    rintro hj rfl
    exact h hj

theorem discard_value (hp : p.Full) : (p.discard i).value j = if j = i then .none else p.value j := by
  rw [discard]
  split_ifs with h hj hj
  · simp [giveBack, hj]
  · simp [giveBack, hj]
  · rw [hj, hp.value_none h]
  · rfl

theorem discard_full (hp : p.Full) (i : Nat) : (p.discard i).Full := by
  intro j
  rw [mem_discard, discard_value hp, hp]
  by_cases hj : j = i <;> simp [hj]

def discards (p : Pool V) (l : List Nat) : Pool V := l.foldl discard p

theorem discards_append (p : Pool V) (l : List Nat) (i : Nat) :
    p.discards (l ++ [i]) = (p.discards l).discard i := by
  rw [discards, List.foldl_append]
  rfl

theorem discards_full (hp : p.Full) (l : List Nat) : (p.discards l).Full := by
  induction l generalizing p with
  | nil => exact hp
  | cons i l ih => exact ih (discard_full hp i)

theorem discards_value (hp : p.Full) (l : List Nat) :
    (p.discards l).value j = if j ∈ l then .none else p.value j := by
  induction l generalizing p with
  | nil => simp [discards]
  | cons i l ih =>
      have hfirst := ih (discard_full hp i)
      rw [discard_value hp] at hfirst
      rw [discards, List.foldl_cons, ← discards, hfirst]
      by_cases hj : j = i <;> simp [hj]

end Discard

section MapValues

variable {f : Nat → V → W}

def mapValues (f : Nat → V → W) (p : Pool V) : Pool W where
  live := p.live
  free := p.free
  value i := (p.value i).map (f i)
  slots := p.slots

@[simp] theorem mapValues_live (f : Nat → V → W) (p : Pool V) : (p.mapValues f).live = p.live := rfl

@[simp] theorem mapValues_size (f : Nat → V → W) (p : Pool V) : (p.mapValues f).size = p.size := rfl

@[simp] theorem mapValues_value (f : Nat → V → W) (p : Pool V) (i : Nat) :
    (p.mapValues f).value i = (p.value i).map (f i) := rfl

theorem mapValues_full (hp : p.Full) : (p.mapValues f).Full := by
  intro i
  simpa using hp i

theorem mapValues_get (hp : p.Full) (i : Nat) : ((p.mapValues f).get i).1 = (p.get i).1.map (f i) := by
  by_cases hi : i ∈ p.live
  · obtain ⟨v, hv⟩ := (hp i).mp hi
    rw [get_live hp hv, get_live (v := f i v) (mapValues_full hp) (by simp [hv])]
    rfl
  · rw [get, get, demandLive, demandLive, mapValues_live, mapValues_size, dif_neg hi, dif_neg hi]
    split_ifs <;> rfl

theorem mapValues_reuse (fits : Nat → Bool) (f : Nat → V → W) (p : Pool V) :
    (p.mapValues f).reuse fits = ((p.reuse fits).1, (p.reuse fits).2.mapValues f) := by
  cases hfree : p.free with
  | cons i rest =>
      rw [reuse_take hfree, reuse_take (p := p.mapValues f) hfree]
      rfl
  | nil =>
      rw [reuse_extend hfree, reuse_extend (p := p.mapValues f) hfree, mapValues_size]
      split_ifs <;> rfl

theorem mapValues_discard (p : Pool V) (i : Nat) : (p.mapValues f).discard i =
    (p.discard i).mapValues f := by
  by_cases h : i ∈ p.live
  · rw [discard_of_live h, discard_of_live (p := p.mapValues f) h]
    refine ext rfl rfl fun j => ?_
    by_cases hj : j = i <;> simp [giveBack, hj]
  · rw [discard_of_dead h, discard_of_dead (p := p.mapValues f) h]

end MapValues

end Lzhlib.ObjectPool.Pool
