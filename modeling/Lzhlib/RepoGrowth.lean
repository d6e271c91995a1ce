import Lzhlib.RepoTraversal

namespace Lzhlib.RepoGrowth

open Programs Machine Rings IndexedList ListUpdates FormList ValueRepo ObjectPool RepoRings
open RepoRefinement RepoRuns RepoTraversal Runs

variable {V Args : Type}

def grown (n : Nat) : Nat := n + n / 2 + 1

def usedSlots (r : Repo V) : Nat := (values r.list).countP DataT.used

theorem grow_makes_room {fits : Nat → Bool} {r : Repo V}
    (hsmall : ¬(maxSize - 1) / 3 * 2 < r.list.size) (hfits : fits (grown r.list.size) = true) :
    ∃ t, grow fits r = .ok ⟨⟩ t ∧ t.list.size = grown r.list.size := by
  obtain ⟨hnew, hmax⟩ : _ = grown r.list.size ∧ grown r.list.size ≤ maxSize := grown_eq hsmall
  have hlt : r.list.size < grown r.list.size := by
    unfold grown
    omega
  have hres : resize fits (grown r.list.size) r.list = _ :=
    resize_ok (Nat.le_of_lt hlt) fun _ => hfits
  have hsize : (⟨r.list.data ++ List.replicate (grown r.list.size - r.list.size)
      { value := default }⟩ : Storage (DataT V)).size = grown r.list.size := by
    simp only [Storage.size, List.length_append, List.length_replicate] at hlt ⊢
    omega
  obtain ⟨t, ht, -, htv⟩ := relinks_formList (V := DataT V) hlt (Nat.le_of_eq hsize.symm)
    (Nat.le_trans (Nat.le_of_eq hsize) hmax)
  refine ⟨{ r with list := t, unusedHead := r.list.size }, ?_, (size_eq htv).trans hsize⟩
  simp only [grow, get_bind_apply, if_neg hsmall, hnew]
  rw [bind_ok (zoom_ok storage hres), bind_ok (zoom_ok storage ht)]
  rfl

theorem grow_cases (fits : Nat → Bool) (r : Repo V) :
    grow fits r = .error (.sizeTooLarge r.list.size) r ∨
      (sizeAdd (sizeAdd r.list.size (r.list.size / 2)) 1 = grown r.list.size ∧
        r.list.size < grown r.list.size ∧ (∀ i, i < grown r.list.size → i ≠ nullIndex) ∧
        (fits (grown r.list.size) = false ∧ grow fits r = .error .badAlloc r ∨
          ∃ t, grow fits r = .ok ⟨⟩ t ∧ t.list.size = grown r.list.size)) := by
  by_cases hlarge : (maxSize - 1) / 3 * 2 < r.list.size
  · exact Or.inl (grow_rejects fits hlarge)
  · obtain ⟨hnew, hmax⟩ := grown_eq hlarge
    refine Or.inr ⟨hnew, by unfold grown; omega, fun i hi => ?_, ?_⟩
    · unfold grown at hi
      unfold nullIndex
      omega
    · cases hfits : fits (grown r.list.size) with
      | false => exact Or.inl ⟨rfl, grow_fails hlarge hfits⟩
      | true => exact Or.inr (grow_makes_room hlarge hfits)

section Minimal

variable {p : Pool V}

theorem reuse_size (fits : Nat → Bool) (p : Pool V) : (p.reuse fits).2.size = p.size ∨
    (p.free = [] ∧ (p.reuse fits).2.size = grown p.size ∧
      (p.reuse fits).2.live.length = p.size + 1) := by
  cases hfree : p.free with
  | cons i rest =>
      left
      rw [Pool.reuse_take hfree]
      exact take_size hfree
  | nil =>
      rw [Pool.reuse_extend hfree]
      split_ifs
      · exact Or.inl rfl
      · exact Or.inl rfl
      · right
        have hlen : p.size = p.live.length := by rw [Pool.size, hfree, List.length_nil, Nat.add_zero]
        exact ⟨rfl, extend_size hfree, congrArg (· + 1) hlen.symm⟩

theorem settle_frame (type : ValueType Args V) (args : Args) (i : Nat) (p : Pool V) :
    (Pool.settle type args i p).2.live = p.live ∧ (Pool.settle type args i p).2.size = p.size := by
  rw [Pool.settle]
  cases p.value i with
  | none => cases type.construct args <;> exact ⟨rfl, rfl⟩
  | some old =>
      cases h : type.assign args old <;> simp only [h] <;> exact ⟨rfl, rfl⟩

theorem exec_size (type : ValueType Args V) (c : Call Args) (p : Pool V) :
    (Pool.exec (Pool.settle type) c p).2.size = p.size ∨
      (p.free = [] ∧ (Pool.exec (Pool.settle type) c p).2.size = grown p.size ∧
        (Pool.exec (Pool.settle type) c p).2.live.length = p.size + 1) := by
  have heffect := Pool.exec_effect (Pool.settle type) c p
  generalize (Pool.exec (Pool.settle type) c p).1 = res at heffect
  generalize (Pool.exec (Pool.settle type) c p).2 = q at heffect ⊢
  cases heffect with
  | refused | asked => exact Or.inl rfl
  | @assigned fits args i q hp =>
      obtain ⟨hlive, hsize⟩ := settle_frame type args i q
      have h := reuse_size fits p
      rwa [hp, ← hlive, ← hsize] at h
  | @reused fits i q hp =>
      have h := reuse_size fits p
      rwa [hp] at h
  | @removed i h => exact Or.inl (giveBack_size (p := p.setValue i none) h)
  | returned h => exact Or.inl (giveBack_size h)

/-- The storage is no larger than one growth from a full storage at the peak `m`. -/
def Bounded (m : Nat) (r : Repo V) : Prop :=
  ∃ p, Refines r p ∧ p.live.length ≤ m ∧ p.size ≤ 3 * m / 2

theorem exec_bounded (type : ValueType Args V) (c : Call Args) (r : Repo V) (m : Nat)
    (h : Bounded m r) :
    Bounded (max m (usedSlots (outcome (exec type c) r).2)) (outcome (exec type c) r).2 := by
  obtain ⟨p, hr, hlive, hsize⟩ := h
  obtain ⟨t, ht, hrt⟩ := exec_simulates type c hr
  have hused : usedSlots t = (Pool.exec (Pool.settle type) c p).2.live.length :=
    (countP_used hrt).symm
  rw [ht]
  refine ⟨_, hrt, hused ▸ le_max_right _ _, ?_⟩
  have hpeak : 3 * m / 2 ≤ 3 * max m (usedSlots t) / 2 :=
    Nat.div_le_div_right (Nat.mul_le_mul_left 3 (le_max_left _ _))
  obtain hsame | ⟨-, hgrown, hfull⟩ := exec_size type c p
  · rw [hsame]
    exact le_trans hsize hpeak
  · have hmore : p.size + 1 ≤ max m (usedSlots t) := by
      rw [← hfull, ← hused]
      exact le_max_right _ _
    rw [hgrown, grown]
    simp only
    omega

end Minimal

/-- Growth is exact and cannot wrap, it happens only when every slot is in use,
so the storage is bounded by the peak use, and a failed growth changes nothing. -/
theorem growth_exact (type : ValueType Args V) :
    (∀ fits (r : Repo V), grow fits r = .error (.sizeTooLarge r.list.size) r ∨
      (sizeAdd (sizeAdd r.list.size (r.list.size / 2)) 1 = r.list.size + r.list.size / 2 + 1 ∧
        r.list.size < r.list.size + r.list.size / 2 + 1 ∧
        (∀ i, i < r.list.size + r.list.size / 2 + 1 → i ≠ nullIndex) ∧
        (fits (r.list.size + r.list.size / 2 + 1) = false ∧ grow fits r = .error .badAlloc r ∨
          ∃ t, grow fits r = .ok ⟨⟩ t ∧ t.list.size = r.list.size + r.list.size / 2 + 1))) ∧
    (∀ cs c r, r = (run (fun c => outcome (exec type c)) cs empty).2 →
      (outcome (exec type c) r).2.list.size ≠ r.list.size →
      (outcome (exec type c) r).2.list.size = r.list.size + r.list.size / 2 + 1 ∧
        ∀ i, i < r.list.size → outcome (isIdUsed i) r = (.ok true, r)) ∧
    (∀ cs, (run (fun c => outcome (exec type c)) cs empty).2.list.size ≤
      3 * peak (fun c => outcome (exec type c)) usedSlots cs empty / 2) ∧
    ∀ fits (r t : Repo V) e, grow fits r = .error e t → t = r := by
  refine ⟨grow_cases, fun cs c r hr hne => ?_, fun cs => ?_, fun fits r t e he => ?_⟩
  · have href := (run_refines type cs (refines_empty (V := V))).2
    rw [← hr] at href
    obtain ⟨t, ht, hrt⟩ := exec_simulates type c href
    rw [ht, href.size, hrt.size] at hne ⊢
    obtain hsame | ⟨hfree, hgrown, -⟩ := exec_size type c
      (run (Pool.exec (Pool.settle type)) cs Pool.none).2
    · exact absurd hsame hne
    · refine ⟨hgrown, fun i hi => ?_⟩
      have hlive := (Pool.mem_slots _).mpr hi
      rw [hfree, List.mem_nil_iff, or_false] at hlive
      rw [isIdUsed_eq href, decide_eq_true hlive]
  · have hstart : Bounded 0 (empty : Repo V) := ⟨Pool.none, refines_empty, le_rfl, le_rfl⟩
    obtain ⟨p, hrp, -, hsize⟩ := run_peak Bounded (exec_bounded type) cs hstart le_rfl
    rw [Nat.zero_max] at hsize
    exact hrp.size ▸ hsize
  · obtain h | ⟨-, -, -, ⟨-, h⟩ | ⟨u, h, -⟩⟩ := grow_cases fits r
    · cases h.symm.trans he
      rfl
    · cases h.symm.trans he
      rfl
    · cases h.symm.trans he

theorem growth_exact_two :
    ∃ r, r = (run (fun c => outcome (exec (⟨fun a => .ok a, fun a => set a⟩ : ValueType Nat Nat) c))
        [.assignObject (fun _ => true) 7] empty).2 ∧
      (outcome (exec (⟨fun a => .ok a, fun a => set a⟩ : ValueType Nat Nat)
        (.assignObject (fun _ => true) 8)) r).2.list.size = 2 ∧
      ∀ i, i < 1 → outcome (isIdUsed i) r = (.ok true, r) :=
  ⟨_, rfl, (growth_exact _).2.1 [.assignObject (fun _ => true) 7] (.assignObject (fun _ => true) 8)
    _ rfl (by decide)⟩

end Lzhlib.RepoGrowth
