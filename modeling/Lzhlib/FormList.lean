import Lzhlib.ListUpdates

namespace Lzhlib.FormList

open Programs Machine Rings IndexedList ListUpdates

variable {V : Type}

/-- The links after joining `b, b + 1, ..., e - 1` into a ring. -/
def formed (L : Links Nat) (b e : Nat) : Links Nat where
  next i := if b ≤ i ∧ i < e then (if i + 1 = e then b else i + 1) else L.next i
  prev i := if b ≤ i ∧ i < e then (if i = b then e - 1 else i - 1) else L.prev i

def threaded (L : Links Nat) (k count : Nat) : Links Nat where
  next i := if k ≤ i ∧ i < k + count then i + 1 else L.next i
  prev i := if k ≤ i ∧ i < k + count then i - 1 else L.prev i

theorem threaded_step (L : Links Nat) (k count : Nat) :
    threaded ((L.setPrev k (k - 1)).setNext k (k + 1)) (k + 1) count = threaded L k (count + 1) := by
  simp only [threaded, Links.setNext_next, Links.setNext_prev, Links.setPrev_next,
    Links.setPrev_prev, Links.mk.injEq]
  constructor <;> funext i <;> split_ifs <;> omega

theorem threaded_zero (L : Links Nat) (k : Nat) : threaded L k 0 = L := by
  have hfalse : ∀ i, ¬(k ≤ i ∧ i < k + 0) := fun i => by omega
  simp only [threaded, hfalse, if_false]

theorem relinks_loop {s : Storage V} (count k : Nat) (hk : 1 ≤ k) (hsize : k + count ≤ s.size)
    (hmax : s.size ≤ nullIndex) :
    Relinks (forEach (fun i => do
      setPrev i (sizeSub i 1)
      setNext i (sizeAdd i 1)) (List.range' k count)) s PUnit.unit (threaded (links s) k count) := by
  have hnull : nullIndex = 2 ^ 64 - 1 := rfl
  induction count generalizing k s with
  | zero => rw [threaded_zero]; exact relinks_pure s PUnit.unit
  | succ count ih =>
      have hbody : Relinks (do setPrev k (sizeSub k 1); setNext k (sizeAdd k 1)) s PUnit.unit
          (((links s).setPrev k (k - 1)).setNext k (k + 1)) := by
        rw [sizeSub_eq hk (by omega), sizeAdd_eq (by omega)]
        apply (relinks_setPrev (by omega) (k - 1)).bind
        intro t hl hs
        have h := relinks_setNext (s := t) (i := k) (by omega) (k + 1)
        rwa [hl] at h
      rw [List.range'_succ, forEach]
      apply hbody.bind
      intro t hl hs
      have h := ih (s := t) (k + 1) (by omega) (by omega) (by omega)
      rwa [hl, threaded_step] at h

theorem formList_rejects {s : Storage V} {b e : Nat}
    (h : e ≤ b ∨ b = nullIndex ∨ s.size < e) : formList b e s = .error .formListArgument s := by
  simp [formList, h]

theorem relinks_formList {s : Storage V} {b e : Nat} (hbe : b < e) (he : e ≤ s.size)
    (hmax : s.size ≤ nullIndex) : Relinks (formList b e) s b (formed (links s) b e) := by
  have hnull : nullIndex = 2 ^ 64 - 1 := rfl
  have hguard : ¬(e ≤ b ∨ b = nullIndex ∨ s.size < e) := by omega
  have hb : sizeAdd b 1 = b + 1 := sizeAdd_eq (by omega)
  have hl : sizeSub e 1 = e - 1 := sizeSub_eq (by omega) (by omega)
  have hrest : Relinks (do
      setNext b (sizeAdd b 1)
      setPrev (sizeSub e 1) (sizeSub e 2)
      forRange (sizeAdd b 1) (sizeSub e 1) fun i => do
        setPrev i (sizeSub i 1)
        setNext i (sizeAdd i 1)
      setPrev b (sizeSub e 1)
      setNext (sizeSub e 1) b
      return b) s b (formed (links s) b e) := by
    rw [hb, hl]
    apply (relinks_setNext (by omega) (b + 1)).bind
    intro t ht hts
    apply (relinks_setPrev (by omega) (sizeSub e 2)).bind
    intro u hu hus
    have hloop := relinks_loop (s := u) (e - 1 - (b + 1)) (b + 1) (by omega) (by omega) (by omega)
    apply hloop.bind
    intro v hv hvs
    apply (relinks_setPrev (by omega) (e - 1)).bind
    intro w hw hws
    apply (relinks_setNext (by omega) b).bind
    intro x hx _
    have h := relinks_pure x b
    have hlinks : links x = formed (links s) b e := by
      rw [hx, hw, hv, hu, ht]
      simp only [threaded, formed, Links.setNext, Links.setPrev, Links.mk.injEq]
      constructor
      · funext i
        simp only [Function.update_apply]
        split_ifs <;> omega
      · -- `end - 2` wraps below zero only for `end = 1`, where the last write of `prev` hides it
        funext i
        have htwo : b + 1 < e → sizeSub e 2 = e - 2 := fun h => sizeSub_eq (by omega) (by omega)
        simp only [Function.update_apply]
        split_ifs <;> omega
    rwa [hlinks] at h
  obtain ⟨t, ht, hrel⟩ := hrest
  refine ⟨t, ?_, hrel⟩
  rw [formList, get_bind_apply, if_neg hguard]
  exact ht

theorem isRing_formed (L : Links Nat) {b e : Nat} (hbe : b < e) :
    IsRing (formed L b e) (List.range' b (e - b)) := by
  rw [isRing_iff, List.isChain_iff_getElem]
  constructor
  · intro i hi
    rw [List.length_range'] at hi
    simp only [List.getElem_range', Follows, formed]
    constructor <;> split_ifs <;> omega
  · intro p hp c hc
    have hp' : p = e - 1 := by
      rw [Option.mem_def, List.getLast?_range'] at hp
      split at hp <;> simp_all
      omega
    have hc' : c = b := by
      rw [Option.mem_def, List.head?_range'] at hc
      split at hc <;> simp_all
    simp only [Follows, formed, hp', hc']
    constructor <;> split_ifs <;> omega

def follow : Nat → Nat → Prog (Storage V) Nat
  | 0, index => return index
  | k + 1, index => do follow k (← next index)

theorem follow_ring {s : Storage V} {l : List Nat} (hl : IsRing (links s) l)
    (hbound : ∀ i ∈ l, i < s.size) (hmax : s.size ≤ nullIndex) (k j : Nat) (hj : j < l.length) :
    follow k l[j] s = .ok (l.get ⟨(j + k) % l.length, Nat.mod_lt _ (by omega)⟩) s := by
  induction k generalizing j with
  | zero => simp only [Nat.add_zero, Nat.mod_eq_of_lt hj]; rfl
  | succ k ih =>
      have hnext := follows_getElem hl hj (Nat.mod_lt (j + 1) (by omega)) rfl
      rw [follow, bind_ok (next_ok (hbound _ (List.getElem_mem hj)) hmax), hnext.1,
        ih _ (Nat.mod_lt _ (by omega))]
      simp only [Nat.mod_add_mod, Nat.add_right_comm j 1 k]
      rfl

/-- On every storage and every range, `form_list` rejects the range and changes
nothing, or it makes a ring of the range and changes nothing else. -/
theorem formList_exact (s : Storage V) (hsize : s.size < 2 ^ 64) (b e : Nat) :
    (¬(b < e ∧ e ≤ s.size) → formList b e s = .error .formListArgument s) ∧
      (b < e → e ≤ s.size → ∃ t, formList b e s = .ok b t ∧
        (∀ k, follow k b t = .ok (b + k % (e - b)) t) ∧
        (∀ i ∈ List.range' b (e - b),
          ∃ j ∈ List.range' b (e - b), next i t = .ok j t ∧ previous j t = .ok i t) ∧
        (∀ i ∈ List.range' b (e - b),
          ∃ j ∈ List.range' b (e - b), previous i t = .ok j t ∧ next j t = .ok i t) ∧
        values t = values s ∧ ∀ i, ¬(b ≤ i ∧ i < e) → t.data[i]? = s.data[i]?) := by
  have hmax : s.size ≤ nullIndex := by
    unfold nullIndex maxSize
    omega
  constructor
  · intro h
    apply formList_rejects
    omega
  · intro hbe he
    obtain ⟨t, ht, hl, hv⟩ := relinks_formList hbe he hmax
    have hts : t.size ≤ nullIndex := size_eq hv ▸ hmax
    have hring : IsRing (links t) (List.range' b (e - b)) := hl ▸ isRing_formed _ hbe
    have hbound : ∀ i ∈ List.range' b (e - b), i < t.size := by
      intro i hi
      rw [List.mem_range'_1] at hi
      rw [size_eq hv]
      omega
    refine ⟨t, ht, fun k => ?_, fun i hi => ?_, fun i hi => ?_, hv, fun i hi => ?_⟩
    · have hwalk := follow_ring hring hbound hts k 0 (by rw [List.length_range']; omega)
      simpa using hwalk
    · have hnext := (neighbours_mem hring hi).1
      refine ⟨_, hnext, next_ok (hbound i hi) hts, ?_⟩
      rw [previous_ok (hbound _ hnext) hts, (follows_neighbours hring hi).1.2]
    · have hprev := (neighbours_mem hring hi).2
      refine ⟨_, hprev, previous_ok (hbound i hi) hts, ?_⟩
      rw [next_ok (hbound _ hprev) hts, (follows_neighbours hring hi).2.1]
    · apply getElem?_congr hv <;> rw [hl] <;> exact if_neg hi

theorem formList_exact_two : ∃ t, formList 0 2
      (⟨[{ value := 5 }, { value := 6, next := 9 }, { value := 7 }]⟩ : Storage Nat) = .ok 0 t ∧
    follow 5 0 t = .ok 1 t ∧ t.data[2]? = some { value := 7 } := by
  obtain ⟨t, ht, hfollow, -, -, -, hframe⟩ := (formList_exact
    (⟨[{ value := 5 }, { value := 6, next := 9 }, { value := 7 }]⟩ : Storage Nat) (by decide) 0 2).2
    (by decide) (by decide)
  exact ⟨t, ht, hfollow 5, hframe 2 (by decide)⟩

end Lzhlib.FormList
