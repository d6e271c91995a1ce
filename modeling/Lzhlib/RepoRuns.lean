import Lzhlib.RepoRefinement

namespace Lzhlib.RepoRuns

open Programs Machine Rings IndexedList ListUpdates ListFamily ValueRepo ObjectPool RepoRings
open RepoRefinement Runs

variable {V Args : Type}

theorem exec_simulates (type : ValueType Args V) (c : Call Args) {r : Repo V} {p : Pool V}
    (hr : Refines r p) : Simulates (exec type c) r (Pool.exec (Pool.settle type) c p) := by
  cases c with
  | assignObject fits args => exact (assignObject_simulates type fits args hr).map Reply.id
  | reuseObject fits => exact (reuseObject_simulates fits hr).map Reply.id
  | removeObject i => exact (removeObject_simulates hr i).map fun _ => Reply.done
  | returnObject i => exact (returnObject_simulates hr i).map fun _ => Reply.done
  | isIdUsed i => exact Simulates.map ⟨r, isIdUsed_eq hr i, hr⟩ Reply.flag
  | getObject i => exact (getObject_simulates hr i).map Reply.value
  | firstId =>
      have hhead : r.usedHead = p.live.head?.getD nullIndex := hr.holds.rings.head .used
      exact Simulates.map ⟨r, hhead ▸ rfl, hr⟩ Reply.id
  | endId => exact Simulates.map ⟨r, rfl, hr⟩ Reply.id
  | nextId i => exact Simulates.map ⟨r, nextId_eq hr i, hr⟩ Reply.id
  | prevId i => exact Simulates.map ⟨r, prevId_eq hr i, hr⟩ Reply.id

theorem refines_empty : Refines (empty : Repo V) Pool.none := by
  refine ⟨⟨⟨?_, ?_, ?_, ?_, ?_, ?_, ?_⟩, ?_⟩, rfl, fun _ _ => rfl⟩
  · intro w; cases w <;> exact isRing_nil _
  · intro w; cases w <;> rfl
  · intro w; cases w <;> exact List.nodup_nil
  · intro g h i hg; cases g <;> simp [lists, Pool.none] at hg
  · intro w i hi; cases w <;> simp [lists, Pool.none] at hi
  · intro i _; simp [links, empty]
  · simp [empty, Storage.size]
  · intro i hi; simp [empty, Storage.size] at hi

theorem presized_allocated {fits : Nat → Bool} {n : Nat} (h : ¬(0 < n ∧ fits n = false)) (v : Option V) :
    presized fits n v = match formList 0 n (construct n ({ value := v } : DataT V)) with
      | .ok head l => .ok { list := l, unusedHead := head }
      | .error e _ => .error e := by
  rw [presized, allocate, if_neg h]
  rfl

theorem presized_ok {fits : Nat → Bool} {n : Nat} {v : Option V} {r : Repo V}
    (h : presized fits n v = .ok r) : n ≠ 0 ∧ fits n = true := by
  by_cases hfails : 0 < n ∧ fits n = false
  · rw [presized, allocate, if_pos hfails] at h
    cases h
  · have hne : n ≠ 0 := by
      rintro rfl
      rw [presized_allocated hfails, FormList.formList_rejects (Or.inl (Nat.le_refl 0))] at h
      cases h
    exact ⟨hne, Bool.eq_true_of_not_eq_false fun hfits => hfails ⟨Nat.pos_of_ne_zero hne, hfits⟩⟩

theorem refines_presized {fits : Nat → Bool} {n : Nat} (hn : 1 ≤ n) (hmax : n ≤ maxSize)
    (hfits : fits n = true) (v : Option V) :
    ∃ r, presized fits n v = .ok r ∧ Refines r (Pool.fresh n v) := by
  let s : Storage (DataT V) := construct n { value := v }
  have hs : s.size = n := by simp [s, construct, Storage.size]
  have hd : Denotes s (heads { list := s : Repo V }) (lists [] []) := by
    have hnone : ∀ w, lists [] [] w = [] := fun w => by cases w <;> rfl
    refine ⟨fun w => by rw [hnone]; exact isRing_nil _, fun w => by cases w <;> rfl,
      fun w => by rw [hnone]; exact List.nodup_nil, ?_, ?_, ?_, by rw [hs]; exact hmax⟩
    · intro g h i hg
      simp [hnone] at hg
    · intro w i hi
      simp [hnone] at hi
    · intro i _
      cases hi : s.data[i]? with
      | none => simp [links, hi]
      | some d =>
          have hmem := List.mem_of_getElem? hi
          rw [List.eq_of_mem_replicate hmem] at hi
          simp [links, hi]
  obtain ⟨t, ht, htv, htd⟩ := formList_denotes hd .unused (b := 0) (e := n) rfl (by omega)
    (by omega) (fun i _ _ w => by cases w <;> simp [lists])
  refine ⟨{ list := t, unusedHead := 0 }, ?_, ⟨?_, ?_⟩, ?_, ?_⟩
  · rw [presized_allocated (by simp [hfits]), show formList 0 n (construct n _) = .ok 0 t from ht]
  · rw [update_lists_unused, update_heads_unused _ t, Nat.sub_zero, ← List.range_eq_range'] at htd
    exact htd
  · intro i hi
    rw [size_eq htv, hs] at hi
    rw [htv]
    simp [s, construct, values, slots, Pool.fresh, hi]
  · simpa [Pool.size, Pool.fresh] using (size_eq htv).trans hs
  · intro i hi
    have : ¬i < n := by simpa [Pool.size, Pool.fresh] using hi
    simp [Pool.fresh, this]

theorem run_refines (type : ValueType Args V) (cs : List (Call Args)) {r : Repo V} {p : Pool V}
    (hr : Refines r p) :
    (run (fun c => outcome (exec type c)) cs r).1 =
        (run (Pool.exec (Pool.settle type)) cs p).1 ∧
      Refines (run (fun c => outcome (exec type c)) cs r).2
        (run (Pool.exec (Pool.settle type)) cs p).2 := by
  refine run_simulation (fun _ _ => True) Refines (fun c s a h _ => ?_) cs r p hr (along_true _ cs p)
  obtain ⟨t, ht, hrt⟩ := exec_simulates type c h
  rw [ht]
  exact ⟨rfl, hrt⟩

/-- The representation invariant, with the two rings spelt out as lists. -/
structure WellFormed (r : Repo V) (live free : List Nat) : Prop where
  usedRing : IsRing (links r.list) live
  unusedRing : IsRing (links r.list) free
  usedHead : r.usedHead = live.head?.getD nullIndex
  unusedHead : r.unusedHead = free.head?.getD nullIndex
  usedHead_null : r.usedHead = nullIndex ↔ live = []
  unusedHead_null : r.unusedHead = nullIndex ↔ free = []
  disjoint : ∀ i ∈ live, i ∉ free
  exactly_once : (live ++ free).Perm (List.range r.list.size)
  flag : ∀ i < r.list.size, ∃ d, (values r.list)[i]? = some d ∧ (d.used = true ↔ i ∈ live)

theorem wellFormed_of_refines {r : Repo V} {p : Pool V} (hr : Refines r p) :
    WellFormed r p.live p.free where
  usedRing := hr.holds.rings.ring .used
  unusedRing := hr.holds.rings.ring .unused
  usedHead := hr.holds.rings.head .used
  unusedHead := hr.holds.rings.head .unused
  usedHead_null := hr.holds.rings.head_eq_null (h := .used)
  unusedHead_null := hr.holds.rings.head_eq_null (h := .unused)
  disjoint i hl hf := (List.nodup_append.mp p.nodup).2.2 i hl i hf rfl
  exactly_once := hr.size ▸ p.slots
  flag i hi := ⟨_, hr.holds.slot i hi, by simp [slots]⟩

/-- Whatever is called with whatever ids, and wherever the storage grows, the
two rings stay well formed and share out the slots. -/
theorem runs_wellFormed (type : ValueType Args V) (cs : List (Call Args)) :
    (∃ live free, WellFormed (run (fun c => outcome (exec type c)) cs empty).2 live free) ∧
      ∀ fits (n : Nat) (v : Option V), 1 ≤ n → n ≤ maxSize → fits n = true →
        ∃ r, presized fits n v = .ok r ∧
          ∃ live free, WellFormed (run (fun c => outcome (exec type c)) cs r).2 live free := by
  refine ⟨⟨_, _, wellFormed_of_refines (run_refines type cs refines_empty).2⟩,
    fun fits n v hn hmax hfits => ?_⟩
  obtain ⟨r, hr, href⟩ := refines_presized hn hmax hfits v
  exact ⟨r, hr, _, _, wellFormed_of_refines (run_refines type cs href).2⟩

theorem runs_wellFormed_two : ∃ r, presized (fun _ => true) 2 (none : Option Nat) = .ok r ∧
    ∃ live free, WellFormed (run (fun c => outcome (exec
      (⟨fun a => .ok a, fun a => set a⟩ : ValueType Nat Nat) c))
      [.assignObject (fun _ => true) 7, .reuseObject (fun _ => true),
        .assignObject (fun _ => true) 9, .returnObject 1, .removeObject 5] r).2 live free :=
  (runs_wellFormed _ _).2 _ 2 none (by decide) (by decide) rfl

section Values

variable {type : ValueType Args V} {make : Args → V}

theorem settle_eq_store (hc : ∀ a, type.construct a = .ok (make a))
    (ha : ∀ a old, type.assign a old = .ok ⟨⟩ (make a)) :
    Pool.settle type = Pool.store make := by
  funext args i p
  unfold Pool.settle Pool.store
  cases p.value i with
  | none => simp only [hc]
  | some old => simp only [ha]

theorem exec_value_eq (c : Call Args) (p : Pool V) {i : Nat} (hi : i ∈ p.live)
    (hc : c ≠ .removeObject i) : (Pool.exec (Pool.store make) c p).2.value i = p.value i := by
  have heffect := Pool.exec_effect (Pool.store make) c p
  generalize (Pool.exec (Pool.store make) c p).1 = res at heffect
  generalize (Pool.exec (Pool.store make) c p).2 = q at heffect ⊢
  cases heffect with
  | refused | asked | returned => rfl
  | @assigned _ _ j _ h =>
      obtain ⟨-, hj, -, hv⟩ := reuse_live h
      have hij : i ≠ j := fun he => hj (he ▸ hi)
      rw [Pool.store, Pool.setValue_value, Function.update_of_ne hij, hv]
  | reused h => rw [(reuse_live h).2.2.2]
  | @removed j =>
      have hij : i ≠ j := fun he => hc (he ▸ rfl)
      exact Function.update_of_ne hij _ _

/-- The repository is the pool: equal replies over every run, and after it the
used ids, their order, the free stack and the values are the pool's. -/
theorem runs_refine_pool (hc : ∀ a, type.construct a = .ok (make a))
    (ha : ∀ a old, type.assign a old = .ok ⟨⟩ (make a)) (cs : List (Call Args)) :
    let r := (run (fun c => outcome (exec type c)) cs empty).2
    let p := (run (Pool.exec (Pool.store make)) cs Pool.none).2
    (run (fun c => outcome (exec type c)) cs empty).1 =
        (run (Pool.exec (Pool.store make)) cs Pool.none).1 ∧ Refines r p ∧
      (∀ i, outcome (isIdUsed i) r = (.ok (decide (i ∈ p.live)), r)) ∧
      (∀ i v, i ∈ p.live → p.value i = some v → outcome (getObject i) r = (.ok v, r)) ∧
      (∀ fits i q, p.reuse fits = (.ok i, q) →
        i ∉ p.live ∧ q.live = i :: p.live ∧ q.value = p.value) ∧
      ∀ c i, i ∈ p.live → c ≠ .removeObject i →
        (Pool.exec (Pool.store make) c p).2.value i = p.value i := by
  obtain ⟨hout, href⟩ := run_refines type cs refines_empty
  rw [settle_eq_store hc ha] at hout href
  refine ⟨hout, href, isIdUsed_eq href, fun i v hi hv => ?_, fun fits i q hq => ?_,
    fun c i hi hci => exec_value_eq c _ hi hci⟩
  · rw [getObject_eq href, Pool.get, Pool.demandLive_live hi, hv]
    rfl
  · obtain ⟨-, h⟩ := reuse_live hq
    exact h

theorem runs_refine_pool_four :
    (run (fun c => outcome (exec (⟨fun a => .ok a, fun a => set a⟩ : ValueType Nat Nat) c))
      [.assignObject (fun _ => true) 7, .assignObject (fun _ => true) 8, .returnObject 0,
        .assignObject (fun _ => true) 9, .getObject 0, .getObject 4] empty).1 =
      [.ok (.id 0), .ok (.id 1), .ok .done, .ok (.id 0), .ok (.value 9),
        .error (.indexOutOfRange 4)] :=
  (runs_refine_pool (fun a => (rfl : _ = Except.ok (id a))) (fun _ _ => rfl) _).1.trans (by decide)

end Values

end Lzhlib.RepoRuns
