import Mathlib.Data.List.Chain

namespace Lzhlib.SearchTrees

variable {α : Type}

inductive Tree (α : Type)
  | leaf
  | node (left : Tree α) (a : α) (right : Tree α)

namespace Tree

def toList : Tree α → List α
  | leaf => []
  | node left a right => left.toList ++ a :: right.toList

/-- The descent to the first element that is not less than the key, as far as
the comparisons on the way can tell. `best` is the last one met. -/
def lowerBound (less : α → Bool) (best : Option α) : Tree α → Option α
  | leaf => best
  | node left a right =>
      if less a then right.lowerBound less best else left.lowerBound less (some a)

def find? (less greater : α → Bool) (t : Tree α) : Option α :=
  (t.lowerBound less none).filter fun a => !greater a

def ofList : List α → Tree α
  | [] => leaf
  | a :: l => node leaf a (ofList l)

theorem toList_ofList (l : List α) : (ofList l).toList = l := by
  induction l with
  | nil => rfl
  | cons a l ih => rw [ofList, toList, ih, toList, List.nil_append]

variable {less greater : α → Bool}

def Cut (less : α → Bool) (u v : List α) : Prop :=
  (∀ a ∈ u.getLast?, less a = true) ∧ ∀ a ∈ v.head?, less a = false

theorem lowerBound_cut (less : α → Bool) (t : Tree α) (best : Option α) :
    ∃ u v, t.toList = u ++ v ∧ Cut less u v ∧ t.lowerBound less best = v.head?.or best := by
  induction t generalizing best with
  | leaf => exact ⟨[], [], rfl, ⟨by simp, by simp⟩, rfl⟩
  | node left a right ihl ihr =>
      rw [lowerBound, toList]
      cases ha : less a with
      | true =>
          obtain ⟨u, v, hsplit, ⟨hu, hv⟩, hbound⟩ := ihr best
          refine ⟨left.toList ++ a :: u, v, by simp [hsplit], ⟨?_, hv⟩, hbound⟩
          intro b hb
          rw [List.getLast?_append, List.getLast?_cons, Option.some_or] at hb
          cases hl : u.getLast? with
          | none => simp_all
          | some c => simp_all
      | false =>
          obtain ⟨u, v, hsplit, ⟨hu, hv⟩, hbound⟩ := ihl (some a)
          refine ⟨u, v ++ a :: right.toList, by simp [hsplit], ⟨hu, ?_⟩, ?_⟩
          · intro b hb
            rw [List.head?_append] at hb
            cases hh : v.head? with
            | none => simp_all
            | some c => simp_all
          · rw [List.head?_append, if_neg Bool.false_ne_true, hbound]
            cases v.head? <;> rfl

theorem exists_lowerBound {u v : List α} (h : Cut less u v) :
    ∃ t : Tree α, t.toList = u ++ v ∧ t.lowerBound less none = v.head? := by
  obtain ⟨t, ht, hbound⟩ : ∃ t : Tree α, t.toList = v ∧ t.lowerBound less none = v.head? := by
    cases v with
    | nil => exact ⟨leaf, rfl, rfl⟩
    | cons c v =>
        refine ⟨ofList (c :: v), toList_ofList _, ?_⟩
        rw [ofList, lowerBound, h.2 c rfl, if_neg Bool.false_ne_true]
        rfl
  obtain rfl | ⟨u, b, rfl⟩ := u.eq_nil_or_concat
  · exact ⟨t, ht, hbound⟩
  · refine ⟨node (ofList u) b t, ?_, ?_⟩
    · rw [toList, toList_ofList, ht, List.concat_append]
    · rw [lowerBound, h.1 b (by simp), if_pos rfl, hbound]

theorem find?_sound {t : Tree α} {a : α} (h : t.find? less greater = some a) :
    a ∈ t.toList ∧ less a = false ∧ greater a = false := by
  obtain ⟨hbound, hg⟩ := Option.filter_eq_some_iff.mp h
  obtain ⟨u, v, hsplit, ⟨-, hv⟩, hcut⟩ := lowerBound_cut less t none
  rw [hcut, Option.or_none] at hbound
  refine ⟨?_, hv a hbound, by simpa using hg⟩
  rw [hsplit]
  exact List.mem_append_right u (List.mem_of_mem_head? hbound)

/-- Where elements stand so that no descent passes by those that match. -/
structure Findable (less greater : α → Bool) (l : List α) : Prop where
  nonempty : l ≠ []
  first : ∀ a ∈ l.head?, greater a = false
  last : ∀ a ∈ l.getLast?, less a = false
  between : l.IsChain fun a b => less a = true → greater b = false

variable {l : List α}

theorem find?_of_cut {t : Tree α} {v : List α} {a : α}
    (hbound : t.lowerBound less none = v.head?) (ha : v.head? = some a) :
    (t.find? less greater).isSome = true ↔ greater a = false := by
  rw [find?, hbound, ha]
  cases hg : greater a <;> simp [Option.filter, hg]

theorem Findable.found (h : Findable less greater l) {t : Tree α} (ht : t.toList = l) :
    (t.find? less greater).isSome = true := by
  obtain ⟨u, v, hsplit, ⟨hu, -⟩, hbound⟩ := lowerBound_cut less t none
  rw [Option.or_none] at hbound
  obtain rfl : l = u ++ v := ht.symm.trans hsplit
  cases v with
  | nil =>
      -- the whole list would be less than the key, its last element included
      rw [List.append_nil] at h
      have hlast := List.getLast?_eq_some_getLast h.nonempty
      exact absurd ((hu _ hlast).symm.trans (h.last _ hlast)) (by simp)
  | cons c v =>
      apply (find?_of_cut hbound rfl).mpr
      obtain rfl | ⟨u, b, rfl⟩ := u.eq_nil_or_concat
      · exact h.first c rfl
      · have hchain := h.between
        rw [List.concat_append, List.isChain_append_cons_cons] at hchain
        exact hchain.2.1 (hu b (by simp))

/-- What every shape of tree finds, and what some shape does not find. -/
theorem forall_found_iff (hasymm : ∀ a, less a = true → greater a = false) :
    (∀ t : Tree α, t.toList = l → (t.find? less greater).isSome = true) ↔
      Findable less greater l := by
  constructor
  · intro h
    have hcut {u v : List α} (hsplit : l = u ++ v) (hc : Cut less u v) :
        ∃ a, v.head? = some a ∧ greater a = false := by
      obtain ⟨t, ht, hbound⟩ := exists_lowerBound hc
      have hfound := h t (ht.trans hsplit.symm)
      cases hv : v.head? with
      | none =>
          rw [find?, hbound, hv] at hfound
          cases hfound
      | some a => exact ⟨a, rfl, (find?_of_cut hbound hv).mp hfound⟩
    refine ⟨?_, ?_, ?_, ?_⟩
    · rintro rfl
      exact absurd (h leaf rfl) (by simp [find?, lowerBound])
    · intro a ha
      cases hless : less a with
      | true => exact hasymm a hless
      | false =>
          obtain ⟨b, hb, hg⟩ := hcut (u := []) rfl ⟨by simp, by simp_all⟩
          cases hb.symm.trans ha
          exact hg
    · intro a ha
      cases hless : less a with
      | true =>
          obtain ⟨b, hb, -⟩ := hcut l.append_nil.symm ⟨by simp_all, by simp⟩
          cases hb
      | false => rfl
    · apply List.isChain_iff_forall_rel_of_append_cons_cons.mpr
      intro b c u v hsplit hless
      cases hlessc : less c with
      | true => exact hasymm c hlessc
      | false =>
          obtain ⟨d, hd, hg⟩ := hcut (u := u ++ [b]) (v := c :: v) (by simp [hsplit])
            ⟨by simp [hless], by simp [hlessc]⟩
          cases hd
          exact hg
  · exact fun h t ht => h.found ht

end Tree

end Lzhlib.SearchTrees
