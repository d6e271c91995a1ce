import Lzhlib.ListFamily
import Lzhlib.ValueRepo

namespace Lzhlib.RepoRings

open Programs Machine Rings IndexedList ListUpdates ListFamily ValueRepo

variable {V α : Type}

inductive Which
  | used
  | unused
  deriving DecidableEq

def heads (r : Repo V) : Which → Nat
  | .used => r.usedHead
  | .unused => r.unusedHead

def lists (live free : List Nat) : Which → List Nat
  | .used => live
  | .unused => free

/-- The two rings hold these slots, and the slots hold these data. -/
structure Holds (r : Repo V) (live free : List Nat) (data : Nat → DataT V) : Prop where
  rings : Denotes r.list (heads r) (lists live free)
  slot : ∀ i, i < r.list.size → (values r.list)[i]? = some (data i)

theorem update_heads_used (r : Repo V) (l : Storage (DataT V)) (x : Nat) :
    Function.update (heads r) .used x = heads { r with list := l, usedHead := x } := by
  funext w
  cases w <;> simp [heads]

theorem update_heads_unused (r : Repo V) (l : Storage (DataT V)) (x : Nat) :
    Function.update (heads r) .unused x = heads { r with list := l, unusedHead := x } := by
  funext w
  cases w <;> simp [heads]

theorem update_lists_used (live free l : List Nat) :
    Function.update (lists live free) .used l = lists l free := by
  funext w
  cases w <;> simp [lists]

theorem update_lists_unused (live free l : List Nat) :
    Function.update (lists live free) .unused l = lists live l := by
  funext w
  cases w <;> simp [lists]

section Steps

variable {r : Repo V} {live free : List Nat} {data : Nat → DataT V}

theorem subscript_holds (h : Holds r live free data) {i : Nat} (hi : i < r.list.size) :
    zoom storage (subscript i) r = .ok (data i) r := by
  obtain ⟨n, hn, hget, -⟩ := node_ok hi
  have hv : n.value = data i := by
    have hs := h.slot i hi
    simpa [values, hget] using hs
  have hrun : subscript i r.list = .ok (data i) r.list := by rw [subscript, bind_ok hn, ← hv]; rfl
  exact zoom_ok storage hrun

theorem setValue_holds (h : Holds r live free data) {i : Nat} (hi : i < r.list.size) (d : DataT V) :
    ∃ t, zoom storage (setValue i d) r = .ok ⟨⟩ t ∧ t.list.size = r.list.size ∧
      Holds t live free (Function.update data i d) := by
  have hset := modifyNode_ok hi ({ · with value := d })
  have hsize : (⟨r.list.data.modify i ({ · with value := d })⟩ : Storage (DataT V)).size =
      r.list.size := by simp [Storage.size]
  refine ⟨_, zoom_ok storage hset, hsize, ?_, ?_⟩
  · have hl : links (⟨r.list.data.modify i ({ · with value := d })⟩ : Storage (DataT V)) =
        links r.list := by
      have hget : r.list.data[i]? = some r.list.data[i] := List.getElem?_eq_getElem hi
      have hn : r.list.data[i].next = (links r.list).next i := by simp [links, hget]
      have hp : r.list.data[i].prev = (links r.list).prev i := by simp [links, hget]
      rw [links_modify r.list i _ hi, hn, hp, Function.update_eq_self, Function.update_eq_self]
    exact ⟨fun w => hl ▸ h.rings.ring w, h.rings.head, h.rings.nodup, h.rings.disjoint,
      fun w j hj => hsize ▸ h.rings.bound w j hj, fun j hj => hl ▸ h.rings.unlinked j hj,
      hsize ▸ h.rings.size⟩
  · intro j hj
    have hs := h.slot j (hsize ▸ hj)
    by_cases hij : i = j
    · subst j
      have hget : r.list.data[i]? = some r.list.data[i] := List.getElem?_eq_getElem hi
      simp [storage, values, hget]
    · simpa [storage, values, hij, Function.update_of_ne (Ne.symm hij)] using hs

theorem setUsed_holds (h : Holds r live free data) {i : Nat} (hi : i < r.list.size) (b : Bool) :
    ∃ t, setUsed i b r = .ok ⟨⟩ t ∧ t.list.size = r.list.size ∧
      Holds t live free (Function.update data i { data i with used := b }) := by
  obtain ⟨t, ht, hrest⟩ := setValue_holds h hi { data i with used := b }
  exact ⟨t, by rw [setUsed, bind_ok (subscript_holds h hi)]; exact ht, hrest⟩

theorem setObject_holds (h : Holds r live free data) {i : Nat} (hi : i < r.list.size)
    (v : Option V) : ∃ t, setObject i v r = .ok ⟨⟩ t ∧ t.list.size = r.list.size ∧
      Holds t live free (Function.update data i { data i with value := v }) := by
  obtain ⟨t, ht, hrest⟩ := setValue_holds h hi { data i with value := v }
  exact ⟨t, by rw [setObject, bind_ok (subscript_holds h hi)]; exact ht, hrest⟩

theorem usedList_holds (h : Holds r live free data) {p : Prog (Handle (DataT V)) α} {a : α}
    {l : List Nat} (hp : ActsOn Which.used p r.list (heads r) (lists live free) a l) :
    ∃ t, zoom usedList p r = .ok a t ∧ t.list.size = r.list.size ∧ Holds t l free data := by
  obtain ⟨s, hs, hv, hd⟩ := hp
  rw [update_heads_used r s, update_lists_used] at hd
  exact ⟨_, zoom_ok usedList hs, size_eq hv, hd,
    fun i hi => by simpa [usedList, hv] using h.slot i (size_eq hv ▸ hi)⟩

theorem unusedList_holds (h : Holds r live free data) {p : Prog (Handle (DataT V)) α} {a : α}
    {l : List Nat} (hp : ActsOn Which.unused p r.list (heads r) (lists live free) a l) :
    ∃ t, zoom unusedList p r = .ok a t ∧ t.list.size = r.list.size ∧ Holds t live l data := by
  obtain ⟨s, hs, hv, hd⟩ := hp
  rw [update_heads_unused r s, update_lists_unused] at hd
  exact ⟨_, zoom_ok unusedList hs, size_eq hv, hd,
    fun i hi => by simpa [unusedList, hv] using h.slot i (size_eq hv ▸ hi)⟩

theorem not_mem_lists {i : Nat} (hl : i ∉ live) (hf : i ∉ free) (w : Which) :
    i ∉ lists live free w := by
  cases w
  · exact hl
  · exact hf

theorem grow_rejects (fits : Nat → Bool) (hlarge : (maxSize - 1) / 3 * 2 < r.list.size) :
    grow fits r = .error (.sizeTooLarge r.list.size) r := by
  rw [grow, get_bind_apply, if_pos hlarge]
  rfl

theorem grown_eq {n : Nat} (h : ¬(maxSize - 1) / 3 * 2 < n) :
    sizeAdd (sizeAdd n (n / 2)) 1 = n + n / 2 + 1 ∧ n + n / 2 + 1 ≤ maxSize := by
  unfold maxSize at h ⊢
  rw [sizeAdd_eq (a := n) (by omega), sizeAdd_eq (by omega)]
  omega

theorem grow_fails {fits : Nat → Bool} (hsmall : ¬(maxSize - 1) / 3 * 2 < r.list.size)
    (hfits : fits (r.list.size + r.list.size / 2 + 1) = false) :
    grow fits r = .error .badAlloc r := by
  have hres : resize fits (r.list.size + r.list.size / 2 + 1) r.list = .error .badAlloc r.list := by
    rw [resize, get_bind_apply, if_pos ⟨by omega, hfits⟩]
    rfl
  simp only [grow, get_bind_apply, if_neg hsmall, (grown_eq hsmall).1]
  exact bind_error (zoom_error storage hres) _

theorem grow_holds (fits : Nat → Bool) (h : Holds r live [] data)
    (hsmall : ¬(maxSize - 1) / 3 * 2 < r.list.size)
    (hfits : fits (r.list.size + r.list.size / 2 + 1) ≠ false) :
    ∃ t, grow fits r = .ok ⟨⟩ t ∧ t.list.size = r.list.size + r.list.size / 2 + 1 ∧
      Holds t live (List.range' r.list.size (r.list.size / 2 + 1))
        (fun i => if i < r.list.size then data i else default) := by
  obtain ⟨hnew, hmax⟩ := grown_eq hsmall
  obtain ⟨s, hs, hsv, hsn, hsd⟩ := resize_denotes fits h.rings
    (n := r.list.size + r.list.size / 2 + 1) (by omega) hmax (fun _ => by simpa using hfits)
  have hfresh : ∀ i, r.list.size ≤ i → ∀ w, i ∉ lists live [] w := fun i hi w hw => by
    have := h.rings.bound w i hw
    omega
  obtain ⟨t, ht, htv, htd⟩ := formList_denotes hsd .unused (b := r.list.size)
    (e := r.list.size + r.list.size / 2 + 1) rfl (by omega) (by omega)
    (fun i hi _ => hfresh i hi)
  refine ⟨{ r with list := t, unusedHead := r.list.size }, ?_, (size_eq htv).trans hsn, ?_, ?_⟩
  · simp only [grow, get_bind_apply, if_neg hsmall, hnew]
    rw [bind_ok (zoom_ok storage hs), bind_ok (zoom_ok storage ht)]
    rfl
  · have hcount : r.list.size + r.list.size / 2 + 1 - r.list.size = r.list.size / 2 + 1 := by omega
    rw [hcount, update_lists_unused] at htd
    have hheads := update_heads_unused r t r.list.size
    rw [hheads] at htd
    exact htd
  · intro i hi
    have hlen : (values r.list).length = r.list.size := by simp [values, Storage.size]
    rw [size_eq htv, hsn] at hi
    rw [htv, hsv]
    by_cases hold : i < r.list.size
    · rw [List.getElem?_append_left (by omega), h.slot i hold, if_pos hold]
    · rw [List.getElem?_append_right (by omega), List.getElem?_replicate, if_pos (by omega),
        if_neg hold]

end Steps

end Lzhlib.RepoRings
