import Lzhlib.RepoRuns

namespace Lzhlib.RepoTraversal

open Programs Machine IndexedList ListUpdates FormList ValueRepo ObjectPool RepoRings
open RepoRefinement RepoRuns Runs

variable {V Args : Type}

section Neighbours

variable {p : Pool V} {l₁ l₂ : List Nat} {i j : Nat}

theorem lt_size (h : p.live = l₁ ++ i :: l₂) : i < p.size :=
  p.mem_slots.mp (Or.inl (h ▸ List.mem_append_right _ List.mem_cons_self))

theorem live_split (h : p.live = l₁ ++ i :: l₂) : i ∉ l₁ ∧ i ∉ l₂ := by
  have hnodup := (List.nodup_append.mp p.nodup).1
  rw [h, List.nodup_append] at hnodup
  exact ⟨fun hi => hnodup.2.2 i hi i List.mem_cons_self rfl, (List.nodup_cons.mp hnodup.2.1).1⟩

theorem ringOf_split (h : p.live = l₁ ++ i :: l₂) : p.ringOf i = l₁ ++ i :: l₂ := by
  rw [Pool.ringOf, h, if_pos (List.mem_append_right _ List.mem_cons_self)]

theorem idxOf_split (h : i ∉ l₁) : (l₁ ++ i :: l₂).idxOf i = l₁.length := by
  rw [List.idxOf_append_of_notMem h, List.idxOf_cons_self, Nat.add_zero]

theorem next_split (h : p.live = l₁ ++ i :: l₂) : p.next i = .ok (l₂.head?.getD nullIndex) := by
  obtain ⟨hnot₁, hnot₂⟩ := live_split h
  rw [Pool.next, if_neg (Nat.not_le_of_lt (lt_size h)), ringOf_split h, h]
  cases l₂ with
  | nil => rw [if_pos List.getLast?_concat]; rfl
  | cons j l =>
      have hlast : (l₁ ++ i :: j :: l).getLast? ≠ some i := by
        rw [List.getLast?_append, List.getLast?_cons_cons]
        intro he
        have hmem : i ∈ (j :: l).getLast? := by simpa [List.getLast?_cons] using he
        exact hnot₂ (List.mem_of_mem_getLast? hmem)
      have hlt : l₁.length + 1 < (l₁ ++ i :: j :: l).length := by simp
      rw [if_neg hlast, Pool.after, idxOf_split hnot₁, Nat.mod_eq_of_lt hlt]
      simp

theorem prev_split (h : p.live = l₁ ++ j :: i :: l₂) (hi : i ≠ nullIndex) : p.prev i = .ok j := by
  have hsplit : p.live = (l₁ ++ [j]) ++ i :: l₂ := by rw [h, List.append_assoc]; rfl
  obtain ⟨hnot, -⟩ := live_split hsplit
  have hhead : p.live.head? ≠ some i := by
    rw [hsplit, List.head?_append]
    intro he
    have hmem : i ∈ (l₁ ++ [j]).head? := by
      cases l₁ <;> simpa using he
    exact hnot (List.mem_of_mem_head? hmem)
  have hmod : (l₁.length + 1 + ((l₁ ++ [j] ++ i :: l₂).length - 1)) %
      (l₁ ++ [j] ++ i :: l₂).length = l₁.length := by
    have hlen : (l₁ ++ [j] ++ i :: l₂).length = l₁.length + l₂.length + 2 := by simp; omega
    rw [hlen, show l₁.length + 1 + (l₁.length + l₂.length + 2 - 1) =
      l₁.length + (l₁.length + l₂.length + 2) by omega, Nat.add_mod_right, Nat.mod_eq_of_lt (by omega)]
  rw [Pool.prev, if_neg hi, if_neg (Nat.not_le_of_lt (lt_size hsplit)), if_neg hhead,
    ringOf_split hsplit, Pool.before, idxOf_split hnot, List.length_append, List.length_singleton, hmod]
  simp

theorem prev_first (h : p.live = i :: l₂) (hi : i ≠ nullIndex) :
    p.prev i = .error (.indexOutOfRange i) := by
  have hsplit : p.live = [] ++ i :: l₂ := h
  rw [Pool.prev, if_neg hi, if_neg (Nat.not_le_of_lt (lt_size hsplit)), if_pos (by rw [h]; rfl)]

end Neighbours

section Traversal

/-- Walking the ids with `next_id` and `prev_id` meets exactly those of `l`, in this order. -/
structure Traversed (r : Repo V) (l : List Nat) : Prop where
  used : ∀ i, outcome (isIdUsed i) r = (.ok (decide (i ∈ l)), r)
  nodup : l.Nodup
  count : l.length = (values r.list).countP DataT.used
  notEnd : nullIndex ∉ l
  first : outcome firstId r = (.ok (l.head?.getD nullIndex), r)
  forward : (l ++ [nullIndex]).IsChain fun i j => outcome (nextId i) r = (.ok j, r)
  last : outcome (prevId nullIndex) r = (.ok (l.getLast?.getD nullIndex), r)
  backward : l.reverse.IsChain fun i j => outcome (prevId i) r = (.ok j, r)
  stop : ∀ i ∈ l.head?, outcome (prevId i) r = (.error (.indexOutOfRange i), r)
  inverse : ∀ i ∈ l, outcome (nextId i >>= prevId) r = (.ok i, r)

variable {r : Repo V} {p : Pool V}

theorem forward_chain (hr : Refines r p) (l₁ l₂ : List Nat) (h : p.live = l₁ ++ l₂) :
    (l₂ ++ [nullIndex]).IsChain fun i j => outcome (nextId i) r = (.ok j, r) := by
  induction l₂ generalizing l₁ with
  | nil => exact List.isChain_singleton _
  | cons i l ih =>
      have hnext : outcome (nextId i) r = (.ok (l.head?.getD nullIndex), r) := by
        rw [nextId_eq hr, next_split h]
      have hrest := ih (l₁ ++ [i]) (by rw [h, List.append_assoc]; rfl)
      cases l with
      | nil => exact List.isChain_pair.mpr hnext
      | cons j l => exact List.isChain_cons_cons.mpr ⟨hnext, hrest⟩

theorem backward_chain (hr : Refines r p) (l₁ l₂ : List Nat) (h : p.live = l₁ ++ l₂) :
    l₁.reverse.IsChain fun i j => outcome (prevId i) r = (.ok j, r) := by
  induction l₁ using List.reverseRecOn generalizing l₂ with
  | nil => exact List.isChain_nil
  | append_singleton l i ih =>
      rw [List.append_assoc] at h
      have hrest := ih (i :: l₂) h
      rw [List.reverse_append]
      obtain rfl | ⟨m, j, rfl⟩ := List.eq_nil_or_concat' l
      · exact List.isChain_singleton _
      · have hi : i ≠ nullIndex := hr.ne_null (lt_size h)
        rw [List.reverse_append] at hrest ⊢
        refine List.isChain_cons_cons.mpr ⟨?_, hrest⟩
        rw [prevId_eq hr, prev_split (by rw [h, List.append_assoc]; rfl) hi]

theorem countP_used (hr : Refines r p) : p.live.length = (values r.list).countP DataT.used := by
  have hvalues : values r.list = (List.range r.list.size).map (slots p) := by
    apply List.ext_getElem?
    intro i
    by_cases hi : i < r.list.size
    · rw [hr.holds.slot i hi, List.getElem?_map, List.getElem?_range hi]
      rfl
    · have hlen : (values r.list).length = r.list.size := by simp [values, Storage.size]
      rw [List.getElem?_eq_none (by omega), List.getElem?_eq_none (by simpa using hi)]
  have hmem : p.live.Perm ((List.range r.list.size).filter (· ∈ p.live)) := by
    apply (List.perm_ext_iff_of_nodup (List.nodup_append.mp p.nodup).1 (List.nodup_range.filter _)).mpr
    intro i
    rw [List.mem_filter, List.mem_range, hr.size, decide_eq_true_eq]
    exact ⟨fun h => ⟨p.mem_slots.mp (Or.inl h), h⟩, And.right⟩
  rw [hvalues, List.countP_map, hmem.length_eq, ← List.countP_eq_length_filter]
  rfl

theorem traversed_of_refines (hr : Refines r p) : Traversed r p.live := by
  have hnull (i : Nat) (hi : i ∈ p.live) : i ≠ nullIndex := hr.ne_null (p.mem_slots.mp (Or.inl hi))
  refine ⟨isIdUsed_eq hr, (List.nodup_append.mp p.nodup).1, countP_used hr,
    fun h => hnull _ h rfl, ?_, forward_chain hr [] p.live rfl, ?_,
    backward_chain hr p.live [] (List.append_nil _).symm, fun i hi => ?_, fun i hi => ?_⟩
  · have hhead : r.usedHead = p.live.head?.getD nullIndex := hr.holds.rings.head .used
    rw [← hhead]
    rfl
  · rw [prevId_eq hr, Pool.prev, if_pos rfl]
  · obtain ⟨l, hl⟩ := List.head?_eq_some_iff.mp hi
    rw [prevId_eq hr, prev_first hl (hnull i (List.mem_of_mem_head? hi))]
  · obtain ⟨l₁, l₂, h⟩ := List.append_of_mem hi
    have hnext : outcome (nextId i) r = (.ok (l₂.head?.getD nullIndex), r) := by
      rw [nextId_eq hr, next_split h]
    rw [outcome_bind_ok hnext, prevId_eq hr]
    cases l₂ with
    | nil =>
        rw [List.head?_nil, Option.getD_none, Pool.prev, if_pos rfl, h, List.getLast?_concat]
        rfl
    | cons j l =>
        have hj : j ∈ p.live := by rw [h]; simp
        rw [List.head?_cons, Option.getD_some, prev_split h (hnull j hj)]

end Traversal

section History

/-- What a call and its reply do to the ids in use, the newest first. -/
def uses : Call Args × Except Exc (Reply V) → List Nat → List Nat
  | (.assignObject _ _, .ok (.id i)), l => i :: l
  | (.reuseObject _, .ok (.id i)), l => i :: l
  | (.removeObject i, .ok _), l => l.erase i
  | (.returnObject i, .ok _), l => l.erase i
  | _, l => l

def inUse (history : List (Call Args × Except Exc (Reply V))) : List Nat :=
  history.foldl (fun l x => uses x l) []

structure NoThrow (type : ValueType Args V) : Prop where
  construct : ∀ a, ∃ v, type.construct a = .ok v
  assign : ∀ a old, ∃ new, type.assign a old = .ok ⟨⟩ new

def Started (r : Repo V) : Prop :=
  r = empty ∨ ∃ fits n v, n ≤ maxSize ∧ presized fits n v = .ok r

theorem started_refines {r : Repo V} (h : Started r) : ∃ p, Refines r p ∧ p.live = [] := by
  obtain rfl | ⟨fits, n, v, hmax, hr⟩ := h
  · exact ⟨Pool.none, refines_empty, rfl⟩
  · obtain ⟨hne, hfits⟩ := presized_ok hr
    obtain ⟨r', hr', href⟩ := refines_presized (Nat.pos_of_ne_zero hne) hmax hfits v
    cases hr.symm.trans hr'
    exact ⟨_, href, rfl⟩

theorem settle_ok {type : ValueType Args V} (ht : NoThrow type) (args : Args) (i : Nat) (p : Pool V) :
    ∃ v, Pool.settle type args i p = (.ok ⟨⟩, p.setValue i (some v)) := by
  rw [Pool.settle]
  cases p.value i with
  | none =>
      obtain ⟨v, hv⟩ := ht.construct args
      exact ⟨v, by simp only [hv]⟩
  | some old =>
      obtain ⟨v, hv⟩ := ht.assign args old
      exact ⟨v, by simp only [hv]⟩

theorem exec_live {type : ValueType Args V} (ht : NoThrow type) (c : Call Args) (p : Pool V) :
    (Pool.exec (Pool.settle type) c p).2.live =
      uses (c, (Pool.exec (Pool.settle type) c p).1) p.live := by
  have heffect := Pool.exec_effect (Pool.settle type) c p
  generalize (Pool.exec (Pool.settle type) c p).1 = res at heffect ⊢
  generalize (Pool.exec (Pool.settle type) c p).2 = q at heffect ⊢
  cases heffect with
  | refused e => cases c <;> rfl
  | asked res h => cases c <;> first | rfl | cases h
  | @assigned _ args i q h =>
      obtain ⟨v, hv⟩ := settle_ok ht args i q
      rw [hv]
      exact (reuse_live h).2.2.1
  | reused h => exact (reuse_live h).2.2.1
  | removed | returned => rfl

theorem run_live {type : ValueType Args V} (ht : NoThrow type) (cs : List (Call Args)) (p : Pool V) :
    (run (Pool.exec (Pool.settle type)) cs p).2.live =
      (cs.zip (run (Pool.exec (Pool.settle type)) cs p).1).foldl (fun l x => uses x l) p.live := by
  induction cs generalizing p with
  | nil => rfl
  | cons c cs ih =>
      rw [run, List.zip_cons_cons, List.foldl_cons, ← exec_live ht]
      exact ih _

/-- After every run the ids in use are met once each and in order, the newest first. -/
theorem runs_traversed {type : ValueType Args V} (ht : NoThrow type) {r₀ : Repo V} (h₀ : Started r₀)
    (cs : List (Call Args)) : Traversed (run (fun c => outcome (exec type c)) cs r₀).2
      (inUse (cs.zip (run (fun c => outcome (exec type c)) cs r₀).1)) := by
  obtain ⟨p, hp, hlive⟩ := started_refines h₀
  obtain ⟨hreplies, hr⟩ := run_refines type cs hp
  have huse : inUse (cs.zip (run (fun c => outcome (exec type c)) cs r₀).1) =
      (run (Pool.exec (Pool.settle type)) cs p).2.live := by
    rw [run_live ht, hlive, hreplies, inUse]
  rw [huse]
  exact traversed_of_refines hr

theorem runs_traversed_four : Traversed
    (run (fun c => outcome (exec (⟨fun a => .ok a, fun a => set a⟩ : ValueType Nat Nat) c))
      [.assignObject (fun _ => true) 7, .assignObject (fun _ => true) 8, .reuseObject (fun _ => true),
        .returnObject 1, .assignObject (fun _ => true) 9, .removeObject 0] empty).2 [1, 2] := by
  have hnothrow : NoThrow (⟨fun a => .ok a, fun a => set a⟩ : ValueType Nat Nat) :=
    ⟨fun a => ⟨a, rfl⟩, fun a _ => ⟨a, rfl⟩⟩
  have h := runs_traversed hnothrow (Or.inl rfl)
    [.assignObject (fun _ => true) 7, .assignObject (fun _ => true) 8, .reuseObject (fun _ => true),
      .returnObject 1, .assignObject (fun _ => true) 9, .removeObject 0]
  exact h

end History

end Lzhlib.RepoTraversal
