import Mathlib.Data.List.Chain
import Mathlib.Data.List.Rotate

namespace Lzhlib.Rings

variable {ι : Type} [DecidableEq ι]

structure Links (ι : Type) where
  next : ι → ι
  prev : ι → ι

namespace Links

def setNext (L : Links ι) (i x : ι) : Links ι := ⟨Function.update L.next i x, L.prev⟩

def setPrev (L : Links ι) (i x : ι) : Links ι := ⟨L.next, Function.update L.prev i x⟩

/-- Splice `x` in between `c` and its predecessor. -/
def insertBefore (L : Links ι) (c x : ι) : Links ι :=
  (((L.setNext x c).setPrev x (L.prev c)).setPrev c x).setNext (L.prev c) x

def unlink (L : Links ι) (x : ι) : Links ι :=
  (L.setNext (L.prev x) (L.next x)).setPrev (L.next x) (L.prev x)

def setBoth (L : Links ι) (x z : ι) : Links ι := (L.setPrev x z).setNext x z

@[simp] theorem setNext_next (L : Links ι) (i x a : ι) :
    (L.setNext i x).next a = if a = i then x else L.next a := Function.update_apply ..

@[simp] theorem setNext_prev (L : Links ι) (i x : ι) : (L.setNext i x).prev = L.prev := rfl

@[simp] theorem setPrev_prev (L : Links ι) (i x a : ι) :
    (L.setPrev i x).prev a = if a = i then x else L.prev a := Function.update_apply ..

@[simp] theorem setPrev_next (L : Links ι) (i x : ι) : (L.setPrev i x).next = L.next := rfl

theorem setBoth_frame (L : Links ι) {x a : ι} (z : ι) (h : a ≠ x) :
    (L.setBoth x z).next a = L.next a ∧ (L.setBoth x z).prev a = L.prev a := by
  simp [setBoth, h]

theorem insertBefore_frame (L : Links ι) {c x a : ι} (hx : a ≠ x) (hc : a ≠ c)
    (hp : a ≠ L.prev c) : (L.insertBefore c x).next a = L.next a ∧
      (L.insertBefore c x).prev a = L.prev a := by
  simp [insertBefore, hx, hc, hp]

theorem unlink_frame (L : Links ι) {x a : ι} (hp : a ≠ L.prev x) (hn : a ≠ L.next x) :
    (L.unlink x).next a = L.next a ∧ (L.unlink x).prev a = L.prev a := by
  simp [unlink, hp, hn]

end Links

def Follows (L : Links ι) (a b : ι) : Prop := L.next a = b ∧ L.prev b = a

/-- The nodes of `l`, in this order and back from the last to the first, are
joined by both link fields. -/
def IsRing (L : Links ι) (l : List ι) : Prop := (l ++ l.head?.toList).IsChain (Follows L)

omit [DecidableEq ι] in
@[simp] theorem isRing_nil (L : Links ι) : IsRing L [] := List.isChain_nil

omit [DecidableEq ι] in
theorem isRing_cons {L : Links ι} {a : ι} {l : List ι} :
    IsRing L (a :: l) ↔ (a :: l ++ [a]).IsChain (Follows L) := Iff.rfl

omit [DecidableEq ι] in
theorem isRing_singleton {L : Links ι} {a : ι} : IsRing L [a] ↔ L.next a = a ∧ L.prev a = a := by
  simp [isRing_cons, Follows]

omit [DecidableEq ι] in
theorem chain_congr {L M : Links ι} {l : List ι} (hn : ∀ a ∈ l.dropLast, M.next a = L.next a)
    (hp : ∀ a ∈ l.tail, M.prev a = L.prev a) (h : l.IsChain (Follows L)) :
    l.IsChain (Follows M) := by
  induction l with
  | nil => exact List.isChain_nil
  | cons a l ih =>
      cases l with
      | nil => exact List.isChain_singleton a
      | cons b l =>
          rw [List.isChain_cons_cons] at h ⊢
          refine ⟨⟨?_, ?_⟩, ih ?_ ?_ h.2⟩
          · rw [hn a (by simp)]; exact h.1.1
          · rw [hp b (by simp)]; exact h.1.2
          · intro x hx
            exact hn x (by simp [hx])
          · intro x hx
            exact hp x (by simp only [List.tail_cons] at hx ⊢; exact List.mem_cons_of_mem b hx)

omit [DecidableEq ι] in
theorem isRing_congr {L M : Links ι} {l : List ι}
    (h : ∀ a ∈ l, M.next a = L.next a ∧ M.prev a = L.prev a) (hl : IsRing L l) : IsRing M l := by
  have hmem : ∀ a ∈ l ++ l.head?.toList, a ∈ l := by
    intro a ha
    rcases List.mem_append.mp ha with ha | ha
    · exact ha
    · exact List.mem_of_mem_head? (by simpa using ha)
  exact chain_congr (fun a ha => (h a (hmem a (List.mem_of_mem_dropLast ha))).1)
    (fun a ha => (h a (hmem a (List.mem_of_mem_tail ha))).2) hl

omit [DecidableEq ι] in
theorem isRing_iff {L : Links ι} {l : List ι} : IsRing L l ↔
    l.IsChain (Follows L) ∧ ∀ p ∈ l.getLast?, ∀ c ∈ l.head?, Follows L p c := by
  cases l with
  | nil => simp
  | cons c t => rw [isRing_cons, List.isChain_append]; simp

omit [DecidableEq ι] in
theorem isRing_append_comm {L : Links ι} (l m : List ι) : IsRing L (l ++ m) ↔ IsRing L (m ++ l) := by
  cases l with
  | nil => simp
  | cons a l =>
      cases m with
      | nil => simp
      | cons b m =>
          simp only [isRing_iff, List.isChain_append, List.getLast?_append, List.head?_append,
            List.head?_cons, Option.some_or, List.getLast?_cons]
          constructor
          · rintro ⟨⟨hl, hm, h⟩, h'⟩
            exact ⟨⟨hm, hl, by simpa using h'⟩, by simpa using h⟩
          · rintro ⟨⟨hm, hl, h⟩, h'⟩
            exact ⟨⟨hl, hm, by simpa using h'⟩, by simpa using h⟩

omit [DecidableEq ι] in
theorem ne_last_of_mem_dropLast {l : List ι} {a p : ι} (hd : l.Nodup) (hp : p ∈ l.getLast?)
    (ha : a ∈ l.dropLast) : a ≠ p := by
  rw [← List.dropLast_append_getLast? p hp, List.nodup_append] at hd
  exact hd.2.2 a ha p (by simp)

theorem isRing_insertBefore {L : Links ι} {c x : ι} {t : List ι} (h : IsRing L (c :: t))
    (hd : (c :: t).Nodup) (hx : x ∉ c :: t) : IsRing (L.insertBefore c x) (c :: t ++ [x]) := by
  rw [isRing_iff] at h
  obtain ⟨p, hp⟩ : ∃ p, p ∈ (c :: t).getLast? := ⟨_, List.getLast?_cons⟩
  have hprev : L.prev c = p := (h.2 p hp c rfl).2
  have hpx : p ≠ x := fun he => hx (he ▸ List.mem_of_mem_getLast? hp)
  have hcx : c ≠ x := fun he => hx (he ▸ List.mem_cons_self)
  have hchain : (c :: t).IsChain (Follows (L.insertBefore c x)) := by
    refine chain_congr ?_ ?_ h.1
    · intro a ha
      have hap := ne_last_of_mem_dropLast hd hp ha
      have hax : a ≠ x := fun he => hx (he ▸ List.mem_of_mem_dropLast ha)
      simp [Links.insertBefore, hprev, hap, hax]
    · intro a ha
      have hac : a ≠ c := fun he => (List.nodup_cons.mp hd).1 (he ▸ ha)
      have hax : a ≠ x := fun he => hx (he ▸ List.mem_cons_of_mem c ha)
      simp [Links.insertBefore, hac, hax]
  have hpx' : Follows (L.insertBefore c x) p x := by
    simp [Follows, Links.insertBefore, hprev, hcx.symm]
  have hxc : Follows (L.insertBefore c x) x c := by
    simp [Follows, Links.insertBefore, hprev, hpx.symm]
  rw [isRing_iff, List.isChain_append]
  refine ⟨⟨hchain, List.isChain_singleton x, ?_⟩, ?_⟩
  · intro q hq y hy
    cases Option.mem_unique hq hp
    simpa using (by simpa using hy : x = y) ▸ hpx'
  · rw [List.getLast?_append]
    simpa using hxc

theorem isRing_unlink {L : Links ι} {x : ι} {t : List ι} (h : IsRing L (x :: t))
    (hd : (x :: t).Nodup) (ht : t ≠ []) : IsRing (L.unlink x) t := by
  obtain ⟨n, u, rfl⟩ := List.exists_cons_of_ne_nil ht
  obtain ⟨p, hp⟩ : ∃ p, p ∈ (n :: u).getLast? := ⟨_, List.getLast?_cons⟩
  rw [isRing_iff, List.isChain_cons_cons] at h
  have hnext : L.next x = n := h.1.1.1
  have hprev : L.prev x = p := (h.2 p (by simpa using hp) x rfl).2
  have hd' := (List.nodup_cons.mp hd).2
  rw [isRing_iff]
  refine ⟨chain_congr ?_ ?_ h.1.2, ?_⟩
  · intro a ha
    simp [Links.unlink, hprev, ne_last_of_mem_dropLast hd' hp ha]
  · intro a ha
    have han : a ≠ n := fun he => (List.nodup_cons.mp hd').1 (he ▸ ha)
    simp [Links.unlink, hnext, han]
  · intro q hq c hc
    cases Option.mem_unique hq hp
    cases Option.mem_unique hc (show n ∈ (n :: u).head? from rfl)
    simp [Follows, Links.unlink, hprev, hnext]

omit [DecidableEq ι] in
theorem follows_getElem {L : Links ι} {l : List ι} (h : IsRing L l) {i j : Nat}
    (hi : i < l.length) (hj : j < l.length) (he : (i + 1) % l.length = j) :
    Follows L l[i] l[j] := by
  rw [isRing_iff, List.isChain_iff_getElem] at h
  rcases Nat.lt_or_ge (i + 1) l.length with hlt | hge
  · rw [Nat.mod_eq_of_lt hlt] at he
    subst he
    exact h.1 i hlt
  · have hn : i + 1 = l.length := by omega
    rw [hn, Nat.mod_self] at he
    subst he
    apply h.2
    · rw [Option.mem_def, List.getLast?_eq_getElem?, ← hn, Nat.add_sub_cancel]
      exact List.getElem?_eq_getElem hi
    · rw [Option.mem_def, List.head?_eq_getElem?]
      exact List.getElem?_eq_getElem hj

omit [DecidableEq ι] in
theorem neighbours_mem {L : Links ι} {l : List ι} (h : IsRing L l) {a : ι} (ha : a ∈ l) :
    L.next a ∈ l ∧ L.prev a ∈ l := by
  obtain ⟨s, t, rfl⟩ := List.append_of_mem ha
  rw [isRing_append_comm] at h
  have hlen : 0 < (a :: t ++ s).length := by simp
  have hn := follows_getElem h hlen (Nat.mod_lt 1 hlen) (by simp)
  have hp := follows_getElem h (Nat.sub_lt hlen Nat.one_pos) hlen (by simp)
  have hmem : ∀ b, b ∈ a :: t ++ s → b ∈ s ++ a :: t := fun b hb =>
    List.mem_append.mpr (List.mem_append.mp hb).symm
  constructor
  · exact hmem _ (hn.1 ▸ List.getElem_mem _)
  · exact hmem _ (hp.2 ▸ List.getElem_mem _)

omit [DecidableEq ι] in
theorem follows_neighbours {L : Links ι} {l : List ι} (h : IsRing L l) {a : ι} (ha : a ∈ l) :
    Follows L a (L.next a) ∧ Follows L (L.prev a) a := by
  obtain ⟨s, t, rfl⟩ := List.append_of_mem ha
  rw [isRing_append_comm] at h
  have hlen : 0 < (a :: t ++ s).length := by simp
  have hn := follows_getElem h hlen (Nat.mod_lt 1 hlen) (by simp)
  have hp := follows_getElem h (Nat.sub_lt hlen Nat.one_pos) hlen (by simp)
  constructor
  · exact ⟨rfl, hn.1 ▸ hn.2⟩
  · exact ⟨hp.2 ▸ hp.1, rfl⟩

end Lzhlib.Rings
