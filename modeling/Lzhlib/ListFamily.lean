import Lzhlib.FormList

namespace Lzhlib.ListFamily

open Programs Machine Rings IndexedList ListUpdates FormList

variable {H V : Type} [DecidableEq H]

/-- The caller's heads denote disjoint lists in one storage, and a node outside
all of them has both links null. -/
structure Denotes (s : Storage V) (heads : H → Nat) (lists : H → List Nat) : Prop where
  ring : ∀ h, IsRing (links s) (lists h)
  head : ∀ h, heads h = (lists h).head?.getD nullIndex
  nodup : ∀ h, (lists h).Nodup
  disjoint : ∀ g h i, i ∈ lists g → i ∈ lists h → g = h
  bound : ∀ h, ∀ i ∈ lists h, i < s.size
  unlinked : ∀ i, (∀ h, i ∉ lists h) →
    (links s).next i = nullIndex ∧ (links s).prev i = nullIndex
  size : s.size ≤ nullIndex

section Update

variable {s t : Storage V} {heads : H → Nat} {lists : H → List Nat}

omit [DecidableEq H] in
theorem Denotes.ne_null (hd : Denotes s heads lists) {h : H} {i : Nat} (hi : i ∈ lists h) :
    i ≠ nullIndex := by
  have := hd.bound h i hi
  have := hd.size
  omega

omit [DecidableEq H] in
theorem Denotes.head_eq_null (hd : Denotes s heads lists) {h : H} :
    heads h = nullIndex ↔ lists h = [] := by
  rw [hd.head]
  cases hl : lists h with
  | nil => simp
  | cons a l => simpa using hd.ne_null (h := h) (i := a) (by simp [hl])

omit [DecidableEq H] in
theorem Denotes.neighbours_lt (hd : Denotes s heads lists) {h : H} {i : Nat} (hi : i ∈ lists h) :
    (links s).next i < s.size ∧ (links s).prev i < s.size :=
  ⟨hd.bound h _ (neighbours_mem (hd.ring h) hi).1, hd.bound h _ (neighbours_mem (hd.ring h) hi).2⟩

/-- Replacing the list of one head. All operations are instances: they give the
ring of the new list, keep the links of the nodes they do not touch and clear
those they drop. -/
theorem Denotes.replace (hd : Denotes s heads lists) (h : H) {l : List Nat}
    (hsize : t.size = s.size) (hring : IsRing (links t) l) (hnodup : l.Nodup)
    (hbound : ∀ i ∈ l, i < s.size) (hfresh : ∀ i ∈ l, i ∈ lists h ∨ ∀ g, i ∉ lists g)
    (hframe : ∀ i, i ∉ lists h → i ∉ l →
      (links t).next i = (links s).next i ∧ (links t).prev i = (links s).prev i)
    (hnull : ∀ i ∈ lists h, i ∉ l →
      (links t).next i = nullIndex ∧ (links t).prev i = nullIndex) :
    Denotes t (Function.update heads h (l.head?.getD nullIndex)) (Function.update lists h l) := by
  have hother : ∀ g, g ≠ h → ∀ i ∈ lists g, i ∉ lists h ∧ i ∉ l := by
    intro g hg i hi
    refine ⟨fun hi' => hg (hd.disjoint g h i hi hi'), fun hi' => ?_⟩
    rcases hfresh i hi' with hi'' | hi''
    · exact hg (hd.disjoint g h i hi hi'')
    · exact hi'' g hi
  refine ⟨?_, ?_, ?_, ?_, ?_, ?_, hsize ▸ hd.size⟩
  · refine (Function.forall_update_iff lists fun _ k => IsRing (links t) k).mpr ⟨hring, fun g hg => ?_⟩
    exact isRing_congr (fun i hi => hframe i (hother g hg i hi).1 (hother g hg i hi).2) (hd.ring g)
  · intro g
    by_cases hg : g = h
    · subst g; simp
    · simpa [Function.update_of_ne hg] using hd.head g
  · exact (Function.forall_update_iff lists fun _ k => k.Nodup).mpr ⟨hnodup, fun g _ => hd.nodup g⟩
  · intro g k i hg hk
    by_cases hgh : g = h <;> by_cases hkh : k = h
    · rw [hgh, hkh]
    · subst g
      rw [Function.update_self] at hg
      rw [Function.update_of_ne hkh] at hk
      exact absurd hg (hother k hkh i hk).2
    · subst k
      rw [Function.update_self] at hk
      rw [Function.update_of_ne hgh] at hg
      exact absurd hk (hother g hgh i hg).2
    · rw [Function.update_of_ne hgh] at hg
      rw [Function.update_of_ne hkh] at hk
      exact hd.disjoint g k i hg hk
  · rw [hsize]
    exact (Function.forall_update_iff lists fun _ k => ∀ i ∈ k, i < s.size).mpr
      ⟨hbound, fun g _ => hd.bound g⟩
  · intro i hi
    have hl : i ∉ l := by simpa using hi h
    by_cases hmem : i ∈ lists h
    · exact hnull i hmem hl
    · obtain ⟨hn, hp⟩ := hframe i hmem hl
      rw [hn, hp]
      apply hd.unlinked i
      intro g hg
      by_cases hgh : g = h
      · subst g; exact hmem hg
      · exact hi g (by simpa [Function.update_of_ne hgh] using hg)

end Update

/-- The list after a node `x` was put in immediately before `next`, or at the
tail when `next` is not in the list. -/
def placeBefore (next x : Nat) : List Nat → List Nat
  | [] => [x]
  | a :: l => if a = next then x :: a :: l else a :: placeBefore next x l

theorem placeBefore_of_not_mem {next x : Nat} {l : List Nat} (h : next ∉ l) :
    placeBefore next x l = l ++ [x] := by
  induction l with
  | nil => rfl
  | cons a l ih =>
      rw [List.mem_cons, not_or] at h
      rw [placeBefore, if_neg (Ne.symm h.1), ih h.2, List.cons_append]

theorem placeBefore_append {next x : Nat} {u : List Nat} (v : List Nat) (h : next ∉ u) :
    placeBefore next x (u ++ next :: v) = u ++ x :: next :: v := by
  induction u with
  | nil => simp [placeBefore]
  | cons a u ih =>
      rw [List.mem_cons, not_or] at h
      rw [List.cons_append, placeBefore, if_neg (Ne.symm h.1), ih h.2, List.cons_append]

section Operations

variable {α : Type} {s : Storage V} {heads : H → Nat} {lists : H → List Nat}

def ActsOn (h : H) (p : Prog (Handle V) α) (s : Storage V) (heads : H → Nat)
    (lists : H → List Nat) (a : α) (l : List Nat) : Prop :=
  ∃ t, p ⟨s, heads h⟩ = .ok a ⟨t, l.head?.getD nullIndex⟩ ∧ values t = values s ∧
    Denotes t (Function.update heads h (l.head?.getD nullIndex)) (Function.update lists h l)

theorem insertImpl_denotes (hd : Denotes s heads lists) (h : H) {c x : Nat} {u v l : List Nat}
    (hlist : lists h = u ++ c :: v) (hx : x < s.size) (hfree : ∀ g, x ∉ lists g)
    (hrotate : ∀ L : Links Nat, IsRing L (c :: (v ++ u) ++ [x]) → IsRing L l)
    (hperm : l.Perm (x :: lists h)) :
    ∃ t, insertImpl c x s = .ok x t ∧ values t = values s ∧
      Denotes t (Function.update heads h (l.head?.getD nullIndex)) (Function.update lists h l) := by
  have hc : c ∈ lists h := by simp [hlist]
  have hmem : ∀ i, i ∈ l ↔ i = x ∨ i ∈ lists h := fun i => by simp [hperm.mem_iff]
  obtain ⟨t, ht, hl, hv⟩ := relinks_insertImpl (hd.bound h c hc) hx (hd.neighbours_lt hc).2
  refine ⟨t, ht, hv, hd.replace h (size_eq hv) ?_ ?_ ?_ ?_ ?_ ?_⟩
  · have hring := hd.ring h
    have hnodup := hd.nodup h
    rw [hlist] at hring hnodup
    rw [isRing_append_comm] at hring
    rw [hl]
    refine hrotate _ (isRing_insertBefore hring (List.nodup_append_comm.mp hnodup) ?_)
    have hxh := hfree h
    rw [hlist] at hxh
    simp only [List.mem_cons, List.mem_append, not_or] at hxh ⊢
    tauto
  · exact hperm.nodup_iff.mpr (List.nodup_cons.mpr ⟨hfree h, hd.nodup h⟩)
  · intro i hi
    rcases (hmem i).mp hi with rfl | hi'
    · exact hx
    · exact hd.bound h i hi'
  · intro i hi
    rcases (hmem i).mp hi with rfl | hi'
    · exact Or.inr hfree
    · exact Or.inl hi'
  · intro i hi hil
    rw [hl]
    refine Links.insertBefore_frame _ ?_ ?_ ?_
    · exact fun he => hil ((hmem i).mpr (Or.inl he))
    · exact fun he => hi (he ▸ hc)
    · exact fun he => hi (he ▸ (neighbours_mem (hd.ring h) hc).2)
  · exact fun i hi hil => absurd ((hmem i).mpr (Or.inr hi)) hil

theorem push_denotes (hd : Denotes s heads lists) (h : H) {x : Nat} (hx : x < s.size)
    (hfree : ∀ g, x ∉ lists g) : ActsOn h (push x) s heads lists x (x :: lists h) := by
  by_cases hnull : heads h = nullIndex
  · have hempty := hd.head_eq_null.mp hnull
    obtain ⟨t, ht, hl, hv⟩ := relinks_setBoth hx x
    refine ⟨t, ?_, hv, hd.replace h (size_eq hv) ?_ ?_ ?_ ?_ ?_ ?_⟩
    · rw [push, pushImpl, get_bind_apply, if_pos hnull]
      exact bind_ok (zoom_ok listPart ht) _
    · rw [hempty, isRing_singleton, hl]
      simp [Links.setBoth]
    · simp [hempty]
    · simpa [hempty] using hx
    · simpa [hempty] using hfree
    · intro i _ hi
      rw [hl]
      exact Links.setBoth_frame _ _ (fun he => hi (by simp [he]))
    · simp [hempty]
  · obtain ⟨c, v, hlist⟩ := List.exists_cons_of_ne_nil (fun he => hnull (hd.head_eq_null.mpr he))
    have hhead : heads h = c := by rw [hd.head, hlist]; rfl
    obtain ⟨t, ht, hv, hd'⟩ := insertImpl_denotes hd h (u := []) hlist hx hfree
      (fun L hL => (isRing_append_comm [x] (lists h)).mpr (by simpa [hlist] using hL)) .rfl
    refine ⟨t, ?_, hv, hd'⟩
    rw [push, pushImpl, get_bind_apply, if_neg hnull]
    rw [← hhead] at ht
    exact bind_ok (zoom_ok listPart (s := ⟨s, heads h⟩) ht) _

theorem insert_denotes (hd : Denotes s heads lists) (h : H) {c x : Nat}
    (hc : c ∈ lists h ∨ c = nullIndex) (hx : x < s.size) (hfree : ∀ g, x ∉ lists g) :
    ActsOn h (IndexedList.insert c x) s heads lists x (placeBefore c x (lists h)) := by
  have hnull : nullIndex ∉ lists h := fun hm => hd.ne_null hm rfl
  by_cases hhead : c = heads h
  · have hl : placeBefore c x (lists h) = x :: lists h := by
      cases hlist : lists h with
      | nil => rfl
      | cons a l =>
          have ha : c = a := by rw [hhead, hd.head, hlist]; rfl
          rw [placeBefore, if_pos ha.symm]
    have hpush := push_denotes hd h hx hfree
    rw [hl]
    simpa only [ActsOn, IndexedList.insert, get_bind_apply, if_pos hhead, push] using hpush
  · obtain ⟨a, l, hlist⟩ : ∃ a l, lists h = a :: l := by
      apply List.exists_cons_of_ne_nil
      intro he
      have hn : c = nullIndex := by simpa [he] using hc
      exact hhead (hn.trans (hd.head_eq_null.mpr he).symm)
    have ha : heads h = a := by rw [hd.head, hlist]; rfl
    by_cases hcn : c = nullIndex
    · have hl : placeBefore c x (lists h) = lists h ++ [x] :=
        placeBefore_of_not_mem (hcn ▸ hnull)
      obtain ⟨t, ht, hv, hd'⟩ := insertImpl_denotes hd h (u := []) (l := lists h ++ [x]) hlist hx
        hfree (fun L hL => by simpa [hlist] using hL) (List.perm_append_singleton x _)
      refine ⟨t, ?_, hv, hl ▸ hd'⟩
      rw [hl, IndexedList.insert, get_bind_apply, if_neg hhead, if_pos hcn]
      rw [← ha] at ht
      have hz := zoom_ok listPart (s := ⟨s, heads h⟩) ht
      simpa [listPart, hlist, ha] using hz
    · obtain ⟨u, v, huv⟩ := List.append_of_mem (hc.resolve_right hcn)
      have hu : c ∉ u := by
        have hn := hd.nodup h
        rw [huv, List.nodup_append] at hn
        exact fun hm => hn.2.2 c hm c (by simp) rfl
      have hl : placeBefore c x (lists h) = u ++ x :: c :: v := by
        rw [huv, placeBefore_append v hu]
      obtain ⟨t, ht, hv, hd'⟩ := insertImpl_denotes hd h (l := u ++ x :: c :: v) huv hx hfree
        (fun L hL => by
          have hr := (isRing_append_comm (c :: v) (u ++ [x])).mp (by simpa using hL)
          simpa using hr)
        (by rw [huv]; exact List.perm_middle)
      refine ⟨t, ?_, hv, hl ▸ hd'⟩
      rw [hl, IndexedList.insert, get_bind_apply, if_neg hhead, if_neg hcn]
      have hz := zoom_ok listPart (s := ⟨s, heads h⟩) ht
      cases u with
      | nil => rw [huv] at hlist; exact absurd (by simp_all) hhead
      | cons b u =>
          have hab : a = b := by rw [huv] at hlist; exact (List.cons.inj hlist).1.symm
          simpa [listPart, ha, hab] using hz

theorem removeImpl_denotes (hd : Denotes s heads lists) (h : H) {x : Nat} {u v : List Nat}
    (hlist : lists h = u ++ x :: v) (hne : u ++ v ≠ []) :
    ∃ t, removeImpl x s = .ok ⟨⟩ t ∧ values t = values s ∧
      Denotes t (Function.update heads h ((u ++ v).head?.getD nullIndex))
        (Function.update lists h (u ++ v)) := by
  have hx : x ∈ lists h := by simp [hlist]
  have hring : IsRing (links s) (x :: (v ++ u)) := by
    have hr := hd.ring h
    rwa [hlist, isRing_append_comm] at hr
  have hnodup : (x :: (v ++ u)).Nodup := by
    have hn := hd.nodup h
    rw [hlist] at hn
    exact List.nodup_append_comm.mp hn
  have hmem : ∀ i, i ∈ lists h ↔ i = x ∨ i ∈ u ++ v := fun i => by simp [hlist]; tauto
  have hxuv : x ∉ u ++ v := by
    have hn := (List.nodup_cons.mp hnodup).1
    simp only [List.mem_append, not_or] at hn ⊢
    exact hn.symm
  obtain ⟨t, ht, hl, hv⟩ := relinks_removeImpl (hd.bound h x hx) (hd.neighbours_lt hx).2
    (hd.neighbours_lt hx).1
  refine ⟨t, ht, hv, hd.replace h (size_eq hv) ?_ ?_ ?_ ?_ ?_ ?_⟩
  · have hr := isRing_unlink hring hnodup (by simpa [and_comm] using hne)
    rw [hl, isRing_append_comm]
    refine isRing_congr (fun a ha => Links.setBoth_frame _ _ ?_) hr
    exact fun he => (List.nodup_cons.mp hnodup).1 (he ▸ ha)
  · exact List.nodup_append_comm.mp (List.nodup_cons.mp hnodup).2
  · exact fun i hi => hd.bound h i ((hmem i).mpr (Or.inr hi))
  · exact fun i hi => Or.inl ((hmem i).mpr (Or.inr hi))
  · intro i hi _
    have hix : i ≠ x := fun he => hi (he ▸ hx)
    have hp : i ≠ (links s).prev x := fun he => hi (he ▸ (neighbours_mem (hd.ring h) hx).2)
    have hn : i ≠ (links s).next x := fun he => hi (he ▸ (neighbours_mem (hd.ring h) hx).1)
    have h1 := Links.setBoth_frame ((links s).unlink x) nullIndex hix
    have h2 := Links.unlink_frame (links s) hp hn
    rw [hl]
    exact ⟨h1.1.trans h2.1, h1.2.trans h2.2⟩
  · intro i hi hi'
    have hix : i = x := ((hmem i).mp hi).resolve_right hi'
    rw [hl, hix]
    simp [Links.setBoth]

omit [DecidableEq H] in
theorem prev_head_eq_iff (hd : Denotes s heads lists) {h : H} {c : Nat} {v : List Nat}
    (hlist : lists h = c :: v) : (links s).prev c = c ↔ v = [] := by
  have hr := hd.ring h
  have hn := hd.nodup h
  rw [hlist] at hr hn
  constructor
  · intro hp
    have hlast := (follows_getElem hr (i := v.length) (j := 0) (by simp) (by simp) (by simp)).2
    have h0 : (c :: v)[0] = (c :: v)[v.length] := by rw [← hlast]; exact hp.symm
    have hidx := (List.Nodup.getElem_inj_iff hn).mp h0
    exact List.length_eq_zero_iff.mp hidx.symm
  · rintro rfl
    exact (isRing_singleton.mp hr).2

theorem pop_denotes (hd : Denotes s heads lists) (h : H) {c : Nat} {v : List Nat}
    (hlist : lists h = c :: v) : ActsOn h pop s heads lists c v := by
  have hc : c ∈ lists h := by simp [hlist]
  have hhead : heads h = c := by rw [hd.head, hlist]; rfl
  obtain ⟨n, hn, -, hnext, hprev⟩ := node_ok (hd.bound h c hc)
  have hz := zoom_ok listPart (s := ⟨s, c⟩) hn
  by_cases hv : v = []
  · have hp : n.prev = c := hprev.trans ((prev_head_eq_iff hd hlist).mpr hv)
    obtain ⟨t, ht, hl, hvals⟩ := relinks_setBoth (hd.bound h c hc) nullIndex
    refine ⟨t, ?_, hvals, hd.replace h (size_eq hvals) ?_ ?_ ?_ ?_ ?_ ?_⟩
    · rw [pop, get_bind_apply, hhead, bind_ok hz, if_pos hp, modify_bind_apply, hv]
      exact bind_ok (zoom_ok listPart ht) _
    · simp [hv]
    · simp [hv]
    · simp [hv]
    · simp [hv]
    · intro i hi _
      rw [hl]
      exact Links.setBoth_frame _ _ (fun he => hi (he ▸ hc))
    · intro i hi _
      have hic : i = c := by simpa [hlist, hv] using hi
      rw [hl, hic]
      simp [Links.setBoth]
  · have hp : ¬n.prev = c := fun he => hv ((prev_head_eq_iff hd hlist).mp (hprev.symm.trans he))
    obtain ⟨t, ht, hvals, hd'⟩ := removeImpl_denotes hd h (u := []) hlist hv
    refine ⟨t, ?_, hvals, hd'⟩
    rw [pop, get_bind_apply, hhead, bind_ok hz, if_neg hp]
    obtain ⟨b, w, rfl⟩ := List.exists_cons_of_ne_nil hv
    have hnb : n.next = b := by
      have hr := hd.ring h
      rw [hlist] at hr
      exact hnext.trans (follows_getElem hr (i := 0) (j := 1) (by simp) (by simp)
        (Nat.mod_eq_of_lt (by simp))).1
    rw [bind_ok (zoom_ok listPart hn), modify_bind_apply]
    rw [bind_ok (zoom_ok listPart ht), hnb]
    rfl

theorem remove_denotes (hd : Denotes s heads lists) (h : H) {x : Nat} (hx : x ∈ lists h) :
    ActsOn h (remove x) s heads lists ⟨⟩ ((lists h).erase x) := by
  obtain ⟨c, w, hlist⟩ := List.exists_cons_of_ne_nil (List.ne_nil_of_mem hx)
  have hhead : heads h = c := by rw [hd.head, hlist]; rfl
  by_cases hcx : heads h = x
  · have he : (lists h).erase x = w := by rw [hlist, ← hcx, hhead, List.erase_cons_head]
    obtain ⟨t, ht, hrest⟩ := pop_denotes hd h hlist
    refine ⟨t, ?_, he ▸ hrest⟩
    rw [remove, get_bind_apply, if_pos hcx, bind_ok ht, he]
    rfl
  · have hcx' : x ≠ c := fun he => hcx (hhead.trans he.symm)
    have hxw : x ∈ w := by simpa [hlist, hcx'] using hx
    obtain ⟨u, v, huv⟩ := List.append_of_mem hxw
    have hxu : x ∉ c :: u := by
      have hn := hd.nodup h
      rw [hlist, huv, ← List.cons_append, List.nodup_append] at hn
      exact fun hm => hn.2.2 x hm x (by simp) rfl
    have he : (lists h).erase x = c :: u ++ v := by
      rw [hlist, huv, ← List.cons_append, List.erase_append_right _ hxu, List.erase_cons_head]
    obtain ⟨t, ht, hrest⟩ := removeImpl_denotes hd h (u := c :: u) (v := v)
      (by rw [hlist, huv, List.cons_append]) (by simp)
    refine ⟨t, ?_, he ▸ hrest⟩
    rw [remove, get_bind_apply, if_neg hcx, he]
    have hz := zoom_ok listPart (s := ⟨s, heads h⟩) ht
    simpa [listPart, hhead] using hz

theorem formList_denotes (hd : Denotes s heads lists) (h : H) {b e : Nat} (hempty : lists h = [])
    (hbe : b < e) (he : e ≤ s.size) (hfree : ∀ i, b ≤ i → i < e → ∀ g, i ∉ lists g) :
    ∃ t, formList b e s = .ok b t ∧ values t = values s ∧
      Denotes t (Function.update heads h b)
        (Function.update lists h (List.range' b (e - b))) := by
  have hmem : ∀ i, i ∈ List.range' b (e - b) ↔ b ≤ i ∧ i < e := fun i => by
    rw [List.mem_range'_1]
    omega
  obtain ⟨t, ht, hl, hv⟩ := relinks_formList hbe he hd.size
  have hhead : (List.range' b (e - b)).head?.getD nullIndex = b := by
    rw [List.head?_range', if_neg (by omega)]
    rfl
  have hreplace := hd.replace (t := t) h (l := List.range' b (e - b)) (size_eq hv)
    (hl ▸ isRing_formed _ hbe) List.nodup_range'
    (fun i hi => lt_of_lt_of_le ((hmem i).mp hi).2 he)
    (fun i hi => Or.inr (hfree i ((hmem i).mp hi).1 ((hmem i).mp hi).2)) ?_ (by simp [hempty])
  · exact ⟨t, ht, hv, by rwa [hhead] at hreplace⟩
  · intro i _ hi
    have hout : ¬(b ≤ i ∧ i < e) := fun hin => hi ((hmem i).mpr hin)
    rw [hl]
    exact ⟨if_neg hout, if_neg hout⟩

theorem elim_append_default [Inhabited V] (f : Node V → Nat) (hf : f { value := default } = nullIndex)
    (l : List (Node V)) (k i : Nat) :
    ((l ++ List.replicate k { value := default })[i]?).elim nullIndex f = (l[i]?).elim nullIndex f := by
  by_cases hi : i < l.length
  · rw [List.getElem?_append_left hi]
  · rw [List.getElem?_append_right (by omega), List.getElem?_replicate,
      List.getElem?_eq_none (l := l) (by omega)]
    split
    · exact hf
    · rfl

omit [DecidableEq H] in
theorem resize_denotes [Inhabited V] (fits : Nat → Bool) (hd : Denotes s heads lists) {n : Nat}
    (hn : s.size ≤ n) (hmax : n ≤ nullIndex) (hfits : s.size < n → fits n = true) :
    ∃ t, resize fits n s = .ok ⟨⟩ t ∧
      values t = values s ++ List.replicate (n - s.size) default ∧ t.size = n ∧
      Denotes t heads lists := by
  refine ⟨_, resize_ok hn hfits, ?_, ?_, ?_⟩
  · simp [values]
  · simp only [Storage.size, List.length_append, List.length_replicate] at hn ⊢
    omega
  · have hl : links (⟨s.data ++ List.replicate (n - s.size) { value := default }⟩ : Storage V) =
        links s := by
      simp only [links, Links.mk.injEq]
      constructor <;> funext i
      · exact elim_append_default Node.next rfl s.data _ i
      · exact elim_append_default Node.prev rfl s.data _ i
    refine ⟨hl ▸ hd.ring, hd.head, hd.nodup, hd.disjoint, ?_, hl ▸ hd.unlinked, ?_⟩
    · intro h i hi
      have := hd.bound h i hi
      simp only [Storage.size, List.length_append, List.length_replicate] at this ⊢
      omega
    · simp only [Storage.size, List.length_append, List.length_replicate] at hn ⊢
      omega

end Operations

omit [DecidableEq H] in
theorem walk_denotes {s : Storage V} {heads : H → Nat} {lists : H → List Nat}
    (hd : Denotes s heads lists) (h : H) {i j : Nat} (hi : i < (lists h).length)
    (hj : j < (lists h).length) (hij : (i + 1) % (lists h).length = j) :
    next (lists h)[i] s = .ok (lists h)[j] s ∧ previous (lists h)[j] s = .ok (lists h)[i] s := by
  have hf := follows_getElem (hd.ring h) hi hj hij
  constructor
  · rw [next_ok (hd.bound h _ (List.getElem_mem hi)) hd.size, hf.1]
  · rw [previous_ok (hd.bound h _ (List.getElem_mem hj)) hd.size, hf.2]

end Lzhlib.ListFamily
