import Lzhlib.IndexedList

namespace Lzhlib.ListUpdates

open Programs Machine Rings IndexedList

variable {V α β : Type}

def links (s : Storage V) : Links Nat :=
  ⟨fun i => (s.data[i]?).elim nullIndex Node.next, fun i => (s.data[i]?).elim nullIndex Node.prev⟩

def values (s : Storage V) : List V := s.data.map Node.value

/-- The call returns `a` and leaves the storage with these links and its old values. -/
def Relinks (p : Prog (Storage V) α) (s : Storage V) (a : α) (L : Links Nat) : Prop :=
  ∃ t, p s = .ok a t ∧ links t = L ∧ values t = values s

theorem size_eq {s t : Storage V} (h : values t = values s) : t.size = s.size := by
  simpa [values, Storage.size] using congrArg List.length h

theorem Relinks.bind {p : Prog (Storage V) α} {f : α → Prog (Storage V) β} {s : Storage V}
    {a : α} {b : β} {L M : Links Nat} (h : Relinks p s a L)
    (hf : ∀ t, links t = L → t.size = s.size → Relinks (f a) t b M) :
    Relinks (p >>= f) s b M := by
  obtain ⟨t, ht, hl, hv⟩ := h
  obtain ⟨u, hu, hl', hv'⟩ := hf t hl (size_eq hv)
  exact ⟨u, by rw [bind_ok ht]; exact hu, hl', hv'.trans hv⟩

theorem relinks_pure (s : Storage V) (a : α) : Relinks (pure a) s a (links s) := ⟨s, rfl, rfl, rfl⟩

theorem node_ok {s : Storage V} {i : Nat} (hi : i < s.size) :
    ∃ n, node i s = .ok n s ∧ s.data[i]? = some n ∧
      n.next = (links s).next i ∧ n.prev = (links s).prev i := by
  have hget : s.data[i]? = some s.data[i] := List.getElem?_eq_getElem hi
  exact ⟨s.data[i], by simp only [node, hget], hget, by simp [links, hget], by simp [links, hget]⟩

theorem next_ok {s : Storage V} {i : Nat} (hi : i < s.size) (hmax : s.size ≤ nullIndex) :
    next i s = .ok ((links s).next i) s := by
  obtain ⟨n, hn, -, hnext, -⟩ := node_ok hi
  rw [next, if_neg (by omega), bind_ok hn, hnext]
  rfl

theorem previous_ok {s : Storage V} {i : Nat} (hi : i < s.size) (hmax : s.size ≤ nullIndex) :
    previous i s = .ok ((links s).prev i) s := by
  obtain ⟨n, hn, -, -, hprev⟩ := node_ok hi
  rw [previous, if_neg (by omega), bind_ok hn, hprev]
  rfl

theorem modifyNode_ok {s : Storage V} {i : Nat} (hi : i < s.size) (f : Node V → Node V) :
    modifyNode i f s = .ok ⟨⟩ ⟨s.data.modify i f⟩ := by
  obtain ⟨n, hn, -⟩ := node_ok hi
  rw [modifyNode, bind_ok hn]
  rfl

theorem resize_ok [Inhabited V] {fits : Nat → Bool} {s : Storage V} {n : Nat} (hn : s.size ≤ n)
    (hfits : s.size < n → fits n = true) :
    resize fits n s = .ok ⟨⟩ ⟨s.data ++ List.replicate (n - s.size) { value := default }⟩ := by
  have hguard : ¬(s.size < n ∧ fits n = false) := by
    rintro ⟨hlt, hf⟩
    simp [hfits hlt] at hf
  rw [resize, get_bind_apply, if_neg hguard, List.take_of_length_le hn]
  rfl

theorem links_modify (s : Storage V) (i : Nat) (f : Node V → Node V) (hi : i < s.size) :
    links ⟨s.data.modify i f⟩ = ⟨Function.update (links s).next i (f s.data[i]).next,
      Function.update (links s).prev i (f s.data[i]).prev⟩ := by
  have hget : s.data[i]? = some s.data[i] := List.getElem?_eq_getElem hi
  simp only [links, Links.mk.injEq]
  constructor <;> funext j <;> by_cases hj : i = j
  · simp [← hj, hget]
  · simp [hj, Function.update_of_ne (Ne.symm hj)]
  · simp [← hj, hget]
  · simp [hj, Function.update_of_ne (Ne.symm hj)]

theorem values_modify {s : Storage V} {i : Nat} {f : Node V → Node V}
    (hf : ∀ n, (f n).value = n.value) : values ⟨s.data.modify i f⟩ = values s := by
  apply List.ext_getElem?
  intro j
  by_cases hj : i = j <;> simp [values, hj, Function.comp_def, hf]

theorem getElem?_congr {s t : Storage V} (hv : values t = values s) {i : Nat}
    (hn : (links t).next i = (links s).next i) (hp : (links t).prev i = (links s).prev i) :
    t.data[i]? = s.data[i]? := by
  have hvi : (values t)[i]? = (values s)[i]? := congrArg (·[i]?) hv
  simp only [values, List.getElem?_map] at hvi
  simp only [links] at hn hp
  cases ht : t.data[i]? with
  | none =>
      rw [ht] at hvi
      exact (Option.map_eq_none_iff.mp hvi.symm).symm
  | some a =>
      cases hs : s.data[i]? with
      | none => simp [ht, hs] at hvi
      | some b =>
          simp only [ht, hs, Option.map_some, Option.some.injEq, Option.elim_some] at hvi hn hp
          cases a
          cases b
          cases hvi
          cases hn
          cases hp
          rfl

theorem relinks_setNext {s : Storage V} {i : Nat} (hi : i < s.size) (x : Nat) :
    Relinks (setNext i x) s ⟨⟩ ((links s).setNext i x) := by
  refine ⟨_, modifyNode_ok hi _, ?_, values_modify (fun _ => rfl)⟩
  have hp : s.data[i].prev = (links s).prev i := by simp [links, List.getElem?_eq_getElem hi]
  rw [links_modify s i _ hi, hp, Function.update_eq_self]
  rfl

theorem relinks_setPrev {s : Storage V} {i : Nat} (hi : i < s.size) (x : Nat) :
    Relinks (setPrev i x) s ⟨⟩ ((links s).setPrev i x) := by
  refine ⟨_, modifyNode_ok hi _, ?_, values_modify (fun _ => rfl)⟩
  have hn : s.data[i].next = (links s).next i := by simp [links, List.getElem?_eq_getElem hi]
  rw [links_modify s i _ hi, hn, Function.update_eq_self]
  rfl

theorem relinks_setBoth {s : Storage V} {i : Nat} (hi : i < s.size) (x : Nat) :
    Relinks (setBoth i x) s ⟨⟩ ((links s).setBoth i x) := by
  apply (relinks_setPrev hi x).bind
  intro t hl hs
  have h := relinks_setNext (s := t) (i := i) (hs ▸ hi) x
  rwa [hl] at h

theorem relinks_insertImpl {s : Storage V} {c x : Nat} (hc : c < s.size) (hx : x < s.size)
    (hp : (links s).prev c < s.size) :
    Relinks (insertImpl c x) s x ((links s).insertBefore c x) := by
  obtain ⟨n, hn, -, -, hprev⟩ := node_ok hc
  have hrest : Relinks (do
      setNext x c
      setPrev x n.prev
      setPrev c x
      setNext n.prev x
      return x) s x ((links s).insertBefore c x) := by
    apply (relinks_setNext hx c).bind
    intro t hl hs
    apply (relinks_setPrev (hs ▸ hx) n.prev).bind
    intro u hl' hs'
    apply (relinks_setPrev (by omega) x).bind
    intro v hl'' hs''
    apply (relinks_setNext (by omega) x).bind
    intro w hw _
    have h := relinks_pure w x
    rwa [hw, hl'', hl', hl, hprev] at h
  obtain ⟨t, ht, hl⟩ := hrest
  exact ⟨t, by rw [insertImpl, bind_ok hn]; exact ht, hl⟩

theorem relinks_removeImpl {s : Storage V} {x : Nat} (hx : x < s.size)
    (hp : (links s).prev x < s.size) (hn : (links s).next x < s.size) :
    Relinks (removeImpl x) s ⟨⟩ (((links s).unlink x).setBoth x nullIndex) := by
  obtain ⟨n, hnode, -, hnext, hprev⟩ := node_ok hx
  have hrest : Relinks (do
      setNext n.prev n.next
      setPrev n.next n.prev
      setBoth x nullIndex) s ⟨⟩ (((links s).unlink x).setBoth x nullIndex) := by
    apply (relinks_setNext (by omega) n.next).bind
    intro t hl hs
    apply (relinks_setPrev (by omega) n.prev).bind
    intro u hl' hs'
    have h := relinks_setBoth (s := u) (i := x) (by omega) nullIndex
    rwa [hl', hl, hnext, hprev] at h
  obtain ⟨t, ht, hl⟩ := hrest
  exact ⟨t, by rw [removeImpl, bind_ok hnode, bind_ok hnode]; exact ht, hl⟩

end Lzhlib.ListUpdates
