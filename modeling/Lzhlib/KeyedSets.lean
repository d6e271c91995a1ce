import Mathlib.Order.Defs.LinearOrder
import Mathlib.Data.List.Sort

namespace Lzhlib.KeyedSets

variable {α κ : Type} [LinearOrder κ] {key : α → κ}

/-- Elements in the order of their keys, of which there are no two equal ones. -/
structure KeyedSet (key : α → κ) where
  toList : List α
  sorted : toList.Pairwise (fun a b => key a < key b)

namespace KeyedSet

instance : Membership α (KeyedSet key) := ⟨fun s a => a ∈ s.toList⟩

theorem mem_toList {s : KeyedSet key} {a : α} : a ∈ s.toList ↔ a ∈ s := Iff.rfl

theorem nodup (s : KeyedSet key) : s.toList.Nodup :=
  s.sorted.imp fun h he => absurd (he ▸ h) (lt_irrefl _)

theorem nodup_keys (s : KeyedSet key) : (s.toList.map key).Nodup :=
  List.pairwise_map.mpr (s.sorted.imp ne_of_lt)

theorem eq_of_key {s : KeyedSet key} {a b : α} (ha : a ∈ s) (hb : b ∈ s) (h : key a = key b) :
    a = b :=
  List.inj_on_of_nodup_map s.nodup_keys ha hb h

theorem ext_mem {s t : KeyedSet key} (h : ∀ a, a ∈ s ↔ a ∈ t) : s = t := by
  obtain ⟨l, hl⟩ := s
  obtain ⟨m, hm⟩ := t
  have hperm : l.Perm m :=
    (List.perm_ext_iff_of_nodup (nodup ⟨l, hl⟩) (nodup ⟨m, hm⟩)).mpr h
  have heq : l = m := hperm.eq_of_pairwise (fun a b _ _ hab hba => absurd hab (lt_asymm hba)) hl hm
  subst heq
  rfl

def empty : KeyedSet key := ⟨[], .nil⟩

@[simp] theorem not_mem_empty (a : α) : a ∉ (empty : KeyedSet key) := List.not_mem_nil

def insertList (key : α → κ) (a : α) : List α → List α
  | [] => [a]
  | b :: l =>
      if key a < key b then a :: b :: l
      else if key b < key a then b :: insertList key a l
      else b :: l

theorem mem_insertList_imp {a b : α} {l : List α} (h : b ∈ insertList key a l) :
    b = a ∨ b ∈ l := by
  induction l with
  | nil => exact Or.inl (List.mem_singleton.mp h)
  | cons c l ih =>
      rw [insertList] at h
      split_ifs at h
      · exact List.mem_cons.mp h
      · obtain rfl | h := List.mem_cons.mp h
        · exact Or.inr List.mem_cons_self
        · exact (ih h).imp_right (List.mem_cons_of_mem c)
      · exact Or.inr h

theorem insertList_sorted {a : α} {l : List α} (h : l.Pairwise (fun a b => key a < key b)) :
    (insertList key a l).Pairwise (fun a b => key a < key b) := by
  induction l with
  | nil => exact List.pairwise_singleton _ _
  | cons c l ih =>
      obtain ⟨hc, hl⟩ := List.pairwise_cons.mp h
      rw [insertList]
      split_ifs with hac hca
      · refine List.pairwise_cons.mpr ⟨?_, h⟩
        intro b hb
        obtain rfl | hb := List.mem_cons.mp hb
        · exact hac
        · exact hac.trans (hc b hb)
      · refine List.pairwise_cons.mpr ⟨?_, ih hl⟩
        intro b hb
        obtain rfl | hb := mem_insertList_imp hb
        · exact hca
        · exact hc b hb
      · exact h

theorem mem_insertList {a b : α} {l : List α} (hnew : ∀ c ∈ l, key c ≠ key a) :
    b ∈ insertList key a l ↔ b = a ∨ b ∈ l := by
  induction l with
  | nil => simp [insertList]
  | cons c l ih =>
      have hc := hnew c List.mem_cons_self
      rw [insertList]
      split_ifs with hac hca
      · exact List.mem_cons
      · rw [List.mem_cons, ih fun d hd => hnew d (List.mem_cons_of_mem c hd), List.mem_cons]
        tauto
      · exact absurd (le_antisymm (not_lt.mp hac) (not_lt.mp hca)) hc

def insert (a : α) (s : KeyedSet key) : KeyedSet key :=
  ⟨insertList key a s.toList, insertList_sorted s.sorted⟩

theorem mem_insert {s : KeyedSet key} {a b : α} (hnew : ∀ c ∈ s, key c ≠ key a) :
    b ∈ s.insert a ↔ b = a ∨ b ∈ s :=
  mem_insertList hnew

theorem insertList_of_mem {a c : α} {l : List α} (hl : l.Pairwise (fun a b => key a < key b))
    (hc : c ∈ l) (h : key c = key a) : insertList key a l = l := by
  induction l with
  | nil => cases hc
  | cons b l ih =>
      obtain ⟨hb, hl⟩ := List.pairwise_cons.mp hl
      rw [insertList]
      obtain rfl | hc := List.mem_cons.mp hc
      · rw [if_neg (h ▸ lt_irrefl _), if_neg (h ▸ lt_irrefl _)]
      · have hba : key b < key a := h ▸ hb c hc
        rw [if_neg (lt_asymm hba), if_pos hba, ih hl hc]

theorem insert_of_mem {s : KeyedSet key} {a c : α} (hc : c ∈ s) (h : key c = key a) :
    s.insert a = s := by
  have hlist : (s.insert a).toList = s.toList := insertList_of_mem s.sorted hc h
  exact ext_mem fun b => by rw [← mem_toList, ← mem_toList, hlist]

def filter (p : α → Bool) (s : KeyedSet key) : KeyedSet key :=
  ⟨s.toList.filter p, s.sorted.filter p⟩

theorem mem_filter {s : KeyedSet key} {p : α → Bool} {a : α} :
    a ∈ s.filter p ↔ a ∈ s ∧ p a = true :=
  List.mem_filter

def erase (k : κ) (s : KeyedSet key) : KeyedSet key := s.filter fun a => key a ≠ k

@[simp] theorem mem_erase {s : KeyedSet key} {k : κ} {a : α} :
    a ∈ s.erase k ↔ a ∈ s ∧ key a ≠ k := by
  rw [erase, mem_filter, decide_eq_true_eq]

def find? (k : κ) (s : KeyedSet key) : Option α := s.toList.find? fun a => key a = k

theorem find?_eq_some {s : KeyedSet key} {a : α} (h : a ∈ s) : s.find? (key a) = some a := by
  rw [find?]
  cases hf : s.toList.find? fun b => decide (key b = key a) with
  | none => exact absurd (List.find?_eq_none.mp hf a h) (by simp)
  | some b =>
      have hb := List.find?_some hf
      rw [eq_of_key (List.mem_of_find?_eq_some hf) h (of_decide_eq_true hb)]

theorem find?_toList_le {s : KeyedSet key} {p : α → Bool} {a b : α}
    (h : s.toList.find? p = some a) (hb : b ∈ s) (hp : p b = true) : key a ≤ key b := by
  obtain ⟨-, l, m, hsplit, hnone⟩ := List.find?_eq_some_iff_append.mp h
  have hsorted := s.sorted
  rw [hsplit, List.pairwise_append] at hsorted
  have hmem : b ∈ l ++ a :: m := hsplit ▸ hb
  obtain hl | hm := List.mem_append.mp hmem
  · have hnot := hnone b hl
    rw [hp] at hnot
    cases hnot
  · obtain rfl | hm := List.mem_cons.mp hm
    · exact le_refl _
    · exact le_of_lt ((List.pairwise_cons.mp hsorted.2.1).1 b hm)

theorem find?_erase_self (s : KeyedSet key) (k : κ) : (s.erase k).find? k = none :=
  List.find?_eq_none.mpr fun _ ha he => (mem_erase.mp ha).2 (of_decide_eq_true he)

theorem find?_isSome {s : KeyedSet key} {k : κ} :
    (s.find? k).isSome = true ↔ ∃ a, a ∈ s ∧ key a = k := by
  rw [find?, List.find?_isSome]
  simp only [decide_eq_true_eq, mem_toList]

end KeyedSet

end Lzhlib.KeyedSets
