import Lzhlib.Ownership
import Lzhlib.QueueProgress

namespace Lzhlib.QueueMemory

open Interleaving Ownership ThreadQueue QueueLocks QueueChain QueueProgress

variable {T : Type} {c : QueueConfig T} {t u : Nat} {s s' : Shared T} {p p' : Pc T} {a : Nat}

def nodeOwner : Option (Node T) → Owner Nat
  | none => .free
  | some ⟨_, _, none⟩ => .common
  | some ⟨_, _, some t⟩ => .thread t

theorem nodeOwner_some (n : Node T) : nodeOwner (some n) = n.owner.elim .common .thread := by
  obtain ⟨x, y, _ | t⟩ := n <;> rfl

/-- The queue owns the nodes that no thread has to itself. -/
def owners (s : Shared T) : Nat → Owner Nat := nodeOwner ∘ s.heap

def held : Pc T → Option Nat
  | .pushLock _ _ a | .pushRecheck _ _ a | .pushFill _ _ a | .pushLink _ _ a | .pushAdvance _ _ a
  | .pushUnwind _ a | .pushFree _ a | .popUnlock _ a | .popTake _ a => some a
  | _ => none

def nodes (s : Shared T) : Nat := s.queued.length + 1 - s.popped.length

theorem owners_update {x : Option (Node T)} (h : s'.heap = Function.update s.heap a x) :
    owners s' = Function.update (owners s) a (nodeOwner x) := by
  rw [owners, h, Function.comp_update, owners]

theorem transfer_keep (hheap : s'.heap = s.heap) (hqueued : s'.queued = s.queued)
    (hpopped : s'.popped = s.popped) (hheld : held p' = held p) :
    Transfer t (owners s) (held p) (nodes s) (owners s') (held p') (nodes s') := by
  have howners : owners s' = owners s := by rw [owners, owners, hheap]
  have hnodes : nodes s' = nodes s := by rw [nodes, nodes, hqueued, hpopped]
  rw [howners, hnodes, hheld]
  exact .keep

theorem transfer_update {x : Option (Node T)} {n : Nat}
    (hheap : s'.heap = Function.update s.heap a x) (hnodes : nodes s' = n)
    (h : Transfer t (owners s) (held p) (nodes s) (Function.update (owners s) a (nodeOwner x))
      (held p') n) :
    Transfer t (owners s) (held p) (nodes s) (owners s') (held p') (nodes s') := by
  rwa [owners_update hheap, hnodes]

theorem transfer_tail (hc : Reachable c) {f : Node T → Node T} (hf : ∀ n, (f n).owner = n.owner)
    (hheld : held p' = held p) :
    Transfer t (owners c.shared) (held p) (nodes c.shared)
      (owners (c.shared.modifyNode c.shared.tail f)) (held p')
      (nodes (c.shared.modifyNode c.shared.tail f)) := by
  obtain ⟨chain, hg, hl⟩ := reachable_chained hc
  obtain ⟨n, hn, ho⟩ := tail_node (reachable_locked hc) hg hl
  have hsame : nodeOwner (some (f n)) = owners c.shared c.shared.tail := by
    rw [owners, Function.comp_apply, hn, nodeOwner_some, nodeOwner_some, hf]
  apply transfer_update (modifyNode_heap hn) (n := nodes c.shared) rfl
  rw [hsame, Function.update_eq_self, hheld]
  exact .keep

theorem client_transfer (hc : Reachable c) (hm : ClientMove t c.shared (c.pc t) s p) :
    Transfer t (owners c.shared) (held (c.pc t)) (nodes c.shared) (owners s) (held p) (nodes s) := by
  obtain ⟨chain, hg, hl⟩ := reachable_chained hc
  have hload := reachable_load hc
  have hknows := hl t
  generalize c.pc t = q at hm hknows
  cases hm with
  | push | pop | close => exact transfer_keep rfl rfl rfl rfl
  | finish h =>
      have hq : held q = none := by
        cases q <;> first | rfl | exact absurd h id
      rw [hq]
      exact .keep
  | move hm =>
      cases hm with
      | @alloc i v a h => exact transfer_update rfl rfl (.alloc a (congrArg nodeOwner h))
      | fill | link => exact transfer_tail hc (fun _ => rfl) rfl
      | @advance i v a =>
          refine transfer_update (modifyNode_heap hknows.1) ?_ (.attach a)
          simp only [nodes, Shared.modifyNode, List.length_append, List.length_singleton]
          omega
      | @popHead k a h =>
          obtain ⟨⟨b, v⟩, rest, rfl⟩ := List.exists_cons_of_ne_nil hknows
          obtain ⟨hb, m, hn, -⟩ := hg.segment
          cases h.symm.trans hb
          have hnode := cell_eq hn
          have howner : owners c.shared a = .common := congrArg nodeOwner hnode
          have hlength := congrArg List.length hg.balance
          simp only [List.length_append, List.length_map, List.length_cons] at hlength
          have hcount : nodes c.shared =
              c.shared.queued.length + 1 - (c.shared.popped.length + 1) + 1 := by
            rw [nodes]
            omega
          refine transfer_update (modifyNode_heap hnode)
            (n := c.shared.queued.length + 1 - (c.shared.popped.length + 1)) ?_ ?_
          · simp only [nodes, Shared.modifyNode, List.length_append, List.length_singleton]
          · rw [hcount]
            exact .detach a howner
      | free => exact transfer_update rfl rfl (.free _)
      | take => exact transfer_update rfl rfl (.free _)
      | _ => exact transfer_keep rfl rfl rfl rfl

theorem reachable_settled (h : Reachable c) :
    Settled (owners c.shared) (fun t => held (c.pc t)) (nodes c.shared) := by
  have hinv : Reachable c ∧ Settled (owners c.shared) (fun t => held (c.pc t)) (nodes c.shared) := by
    refine h.invariant (I := fun c => Reachable c ∧
      Settled (owners c.shared) (fun t => held (c.pc t)) (nodes c.shared)) ?_ ⟨.refl, ?_, ?_⟩
    · rintro c t s p ⟨hc, hs⟩ hm
      refine ⟨hc.next t hm, ?_⟩
      have hheld : (fun u => held ((c.after t s p).pc u)) =
          Function.update (fun u => held (c.pc u)) t (held p) := by
        funext u
        by_cases hu : u = t
        · subst u
          rw [after_pc_self, Function.update_self]
        · rw [after_pc_of_ne _ hu, Function.update_of_ne hu]
      rw [hheld]
      exact (client_transfer hc hm).settled hs
    · intro t a
      refine iff_of_false (fun h => ?_) nofun
      by_cases ha : a = 0 <;>
        simp [owners, initial, Shared.fresh, ha, nodeOwner] at h
    · refine ⟨{0}, fun a => ?_, rfl⟩
      by_cases ha : a = 0 <;>
        simp [owners, initial, Shared.fresh, ha, nodeOwner]
  exact hinv.2

theorem chained_length {chain : List (Nat × T)} (hg : Chained s chain) :
    (addresses s chain).length = nodes s := by
  have hlength := congrArg List.length hg.balance
  simp only [List.length_append, List.length_map] at hlength
  simp only [addresses, nodes, List.length_append, List.length_map, List.length_singleton]
  omega

/-- The nodes without an owner are those of the chain, for they are as many. -/
theorem chain_common (h : Reachable c) {chain : List (Nat × T)} (hg : Chained c.shared chain)
    (hl : ∀ u, Knows u c.shared chain (c.pc u)) (a : Nat) :
    a ∈ addresses c.shared chain ↔ owners c.shared a = .common := by
  obtain ⟨-, F, hF, hcard⟩ := reachable_settled h
  have hcommon (a : Nat) (ha : a ∈ addresses c.shared chain) : owners c.shared a = .common := by
    obtain ha | ha := List.mem_append.mp ha
    · obtain ⟨v, n, hn⟩ := hg.chain_node ha
      exact congrArg nodeOwner hn
    · obtain ⟨n, hn, ho⟩ := tail_node (reachable_locked h) hg hl
      cases List.mem_singleton.mp ha
      rw [owners, Function.comp_apply, hn, nodeOwner_some, ho]
      rfl
  have hall : (addresses c.shared chain).toFinset = F := by
    apply Finset.eq_of_subset_of_card_le
    · intro a ha
      exact (hF a).mpr (hcommon a (List.mem_toFinset.mp ha))
    · rw [hcard, List.toFinset_card_of_nodup hg.nodup, chained_length hg]
  rw [← hF, ← hall, List.mem_toFinset]

/-- Nothing leaks and nothing is freed twice: in every state the nodes in memory
are those from head to tail, each once, and those in the hands of a thread, each
in the hands of one. -/
theorem reachable_nodes (h : Reachable c) :
    ∃ chain, Segments.Segment (cell c.shared.heap) c.shared.head chain c.shared.tail ∧
      (addresses c.shared chain).Nodup ∧
      (addresses c.shared chain).length + c.shared.popped.length = c.shared.queued.length + 1 ∧
      (∀ a, c.shared.heap a ≠ none ↔
        a ∈ addresses c.shared chain ∨ ∃ t, held (c.pc t) = some a) ∧
      ∀ t a, held (c.pc t) = some a →
        a ∉ addresses c.shared chain ∧ ∀ u, held (c.pc u) = some a → u = t := by
  obtain ⟨chain, hg, hl⟩ := reachable_chained h
  obtain ⟨howns, -⟩ := reachable_settled h
  have hlength := congrArg List.length hg.balance
  simp only [List.length_append, List.length_map] at hlength
  have hiff := chain_common h hg hl
  refine ⟨chain, hg.segment, hg.nodup, ?_, fun a => ?_, fun t a ht => ⟨?_, fun u hu => ?_⟩⟩
  · rw [chained_length hg, nodes]
    omega
  · simp only [hiff, ← howns]
    rw [owners, Function.comp_apply]
    cases c.shared.heap a with
    | none => simp [nodeOwner]
    | some n =>
        rw [nodeOwner_some]
        cases n.owner <;> simp
  · rw [hiff, (howns t a).mpr ht]
    simp
  · have hsame := ((howns u a).mpr hu).symm.trans ((howns t a).mpr ht)
    cases hsame
    rfl

theorem reachable_nodes_pushing : ∃ c : QueueConfig Nat, held (c.pc 1) = some 1 ∧
    ∃ chain, Segments.Segment (cell c.shared.heap) c.shared.head chain c.shared.tail ∧
      (addresses c.shared chain).Nodup ∧
      (addresses c.shared chain).length + c.shared.popped.length = c.shared.queued.length + 1 ∧
      (∀ a, c.shared.heap a ≠ none ↔
        a ∈ addresses c.shared chain ∨ ∃ t, held (c.pc t) = some a) ∧
      ∀ t a, held (c.pc t) = some a →
        a ∉ addresses c.shared chain ∧ ∀ u, held (c.pc u) = some a → u = t := by
  have h₀ : Reachable (initial : QueueConfig Nat) := .refl
  have h₁ := h₀.alone ((((h₀.start 1).next (.push 7)).next (.move (.checkOpen rfl))).next
    (.move (.alloc 1 rfl)))
  exact ⟨_, rfl, reachable_nodes h₁⟩

section Destruction

/-- The destructor of a `unique_ptr`: the node must be there, and its successor
goes before it does. -/
inductive Deletes : (Nat → Option (Node T)) → Option Nat → (Nat → Option (Node T)) → Prop
  | null {heap} : Deletes heap none heap
  | node {heap a n heap'} (h : heap a = some n) (hnext : Deletes heap n.next heap')
      (hstill : heap' a = some n) : Deletes heap (some a) (Function.update heap' a none)

theorem deletes_unique {heap h₁ h₂ : Nat → Option (Node T)} {start : Option Nat}
    (h : Deletes heap start h₁) (h' : Deletes heap start h₂) : h₁ = h₂ := by
  induction h generalizing h₂ with
  | null =>
      cases h'
      rfl
  | node hn _ _ ih =>
      cases h' with
      | node hn' hnext' _ =>
          cases hn.symm.trans hn'
          rw [ih hnext']

theorem deletes_chain {heap : Nat → Option (Node T)} {start : Option Nat} {chain : List (Nat × T)}
    {stop : Nat} (hs : Segments.Segment (cell heap) start chain stop) (hstop : heap stop = some {})
    (hnodup : (chain.map Prod.fst ++ [stop]).Nodup) : ∃ heap', Deletes heap start heap' ∧
      ∀ a, heap' a = if a ∈ chain.map Prod.fst ++ [stop] then none else heap a := by
  induction chain generalizing start with
  | nil =>
      obtain rfl : start = some stop := hs
      refine ⟨_, .node hstop .null hstop, fun a => ?_⟩
      by_cases ha : a = stop <;> simp [ha]
  | cons x chain ih =>
      obtain ⟨rfl, n, hcell, hrest⟩ := hs
      have hx := cell_eq hcell
      rw [List.map_cons, List.cons_append, List.nodup_cons] at hnodup
      obtain ⟨hnot, hnodup⟩ := hnodup
      obtain ⟨heap', hdeletes, hheap'⟩ := ih hrest hnodup
      refine ⟨_, .node hx hdeletes ?_, fun a => ?_⟩
      · rw [hheap', if_neg hnot, hx]
      · by_cases ha : a = x.1
        · simp [ha]
        · rw [Function.update_of_ne ha, hheap']
          simp only [List.map_cons, List.cons_append, List.mem_cons, ha, false_or]

/-- When no call is under way, the destructor deletes every node there is, each once. -/
theorem destructor_frees (h : Reachable c) (hidle : ∀ t, c.pc t = .idle) :
    (∃ heap, Deletes c.shared.heap c.shared.head heap) ∧
      ∀ heap, Deletes c.shared.heap c.shared.head heap → ∀ a, heap a = none := by
  obtain ⟨chain, hg, hl⟩ := reachable_chained h
  obtain ⟨howns, -⟩ := reachable_settled h
  have hfree : c.shared.tailMutex = none := by
    cases ht : c.shared.tailMutex with
    | none => rfl
    | some t =>
        have hheld := (reachable_locked h t).2.mp ht
        rw [hidle t] at hheld
        exact absurd hheld id
  obtain ⟨heap', hdeletes, hheap'⟩ := deletes_chain hg.segment (hg.dummy hfree) hg.nodup
  refine ⟨⟨heap', hdeletes⟩, fun heap hheap a => ?_⟩
  rw [deletes_unique hheap hdeletes, hheap']
  by_cases ha : a ∈ addresses c.shared chain
  · exact if_pos ha
  · refine (if_neg ha).trans ?_
    have hcommon := mt (chain_common h hg hl a).mpr ha
    have hthread (t : Nat) : owners c.shared a ≠ .thread t := by
      rw [Ne, howns t a, hidle t]
      nofun
    rw [owners, Function.comp_apply] at hcommon hthread
    cases hn : c.shared.heap a with
    | none => rfl
    | some n =>
        rw [hn, nodeOwner_some] at hcommon hthread
        cases ho : n.owner with
        | none => simp [ho] at hcommon
        | some t => exact absurd (by simp [ho]) (hthread t)

theorem destructor_frees_pushed : ∃ (c : QueueConfig Nat) (heap : Nat → Option (Node Nat)),
    c.shared.heap 0 ≠ none ∧ c.shared.heap 1 ≠ none ∧ Deletes c.shared.heap c.shared.head heap ∧
    ∀ a, heap a = none := by
  have h₀ : Reachable (initial : QueueConfig Nat) := .refl
  have hfirst := ((((h₀.start 1).next (.push 7)).next (.move (.checkOpen rfl))).next
    (.move (.alloc 1 rfl))).next (.move (.lockTail rfl))
  have hlinked := (((hfirst.next (.move (.recheckOpen rfl))).next (.move .fill)).next
    (.move .link)).next (.move .advance)
  have h₁ := h₀.call (((hlinked.next (.move .unlockTail)).next
    (.move (.notifyNone fun _ => rfl))).next (.finish trivial))
  obtain ⟨⟨heap, hheap⟩, hnone⟩ := destructor_frees h₁ fun _ => rfl
  exact ⟨_, heap, Option.some_ne_none _, Option.some_ne_none _, hheap, hnone heap hheap⟩

end Destruction

end Lzhlib.QueueMemory
