import Lzhlib.QueueLocks
import Lzhlib.Segments

namespace Lzhlib.QueueChain

open Interleaving ThreadQueue QueueLocks Segments

variable {T : Type} {c : QueueConfig T} {t u : Nat} {s s' : Shared T} {p p' q : Pc T}
  {chain chain' : List (Nat × T)} {a : Nat}

def cell (heap : Nat → Option (Node T)) (a : Nat) : Option (T × Option Nat) :=
  match heap a with
  | some ⟨some v, n, none⟩ => some (v, n)
  | _ => none

theorem cell_eq {heap : Nat → Option (Node T)} {v : T} {n : Option Nat}
    (h : cell heap a = some (v, n)) : heap a = some ⟨some v, n, none⟩ := by
  rw [cell] at h
  split at h
  · rename_i hn
    cases h
    exact hn
  · cases h

def addresses (s : Shared T) (chain : List (Nat × T)) : List Nat := chain.map Prod.fst ++ [s.tail]

theorem tail_mem (s : Shared T) (chain : List (Nat × T)) : s.tail ∈ addresses s chain :=
  List.mem_append_right _ (List.mem_singleton_self _)

theorem addresses_of_tail (h : s'.tail = s.tail) (chain : List (Nat × T)) :
    addresses s' chain = addresses s chain := by
  rw [addresses, h, addresses]

/-- The chain from head to tail holds what was appended and not popped yet. -/
structure Chained (s : Shared T) (chain : List (Nat × T)) : Prop where
  segment : Segment (cell s.heap) s.head chain s.tail
  nodup : (addresses s chain).Nodup
  balance : s.popped ++ chain.map (fun x => some x.2) = s.queued.map (fun x => some x.2)
  dummy : s.tailMutex = none → s.heap s.tail = some {}

def Owns (t : Nat) (s : Shared T) (a : Nat) (data : Option T) : Prop :=
  s.heap a = some ⟨data, none, some t⟩

theorem owns_unique {data data' : Option T} (h : Owns t s a data) (h' : Owns u s a data') : t = u := by
  cases h.symm.trans h'
  rfl

theorem owns_update {x : Option (Node T)} {b : Nat} {data : Option T}
    (h : s'.heap = Function.update s.heap a x) (hb : Owns u s b data) (hne : b ≠ a) :
    Owns u s' b data := by
  rw [Owns, h, Function.update_of_ne hne]
  exact hb

/-- What a thread knows about the memory at each of its steps. -/
def Knows (t : Nat) (s : Shared T) (chain : List (Nat × T)) : Pc T → Prop
  | .pushLock _ _ a | .pushFree _ a => Owns t s a none
  | .pushRecheck _ _ a | .pushFill _ _ a | .pushUnwind _ a =>
      Owns t s a none ∧ s.heap s.tail = some {}
  | .pushLink _ v a => Owns t s a none ∧ s.heap s.tail = some { data := some v }
  | .pushAdvance _ v a => Owns t s a none ∧ s.heap s.tail = some { data := some v, next := some a }
  | .pushUnlock _ => s.heap s.tail = some {}
  | .waitCompare _ _ a => a ∈ addresses s chain
  | .lastTail _ r => r = .sawElement → chain ≠ []
  | .lastCompare _ r a => a ∈ addresses s chain ∧ (r = .sawElement → s.head ≠ some a)
  | .popHead _ => chain ≠ []
  | .popUnlock _ a | .popTake _ a => ∃ v, Owns t s a (some v)
  | _ => True

structure Frame (u : Nat) (s : Shared T) (chain : List (Nat × T)) (s' : Shared T)
    (chain' : List (Nat × T)) (q : Pc T) : Prop where
  owned : ∀ a data, Owns u s a data → Owns u s' a data
  tail : HoldsTail q → s'.tail = s.tail ∧ s'.heap s.tail = s.heap s.tail
  head : HoldsHead q → s'.head = s.head
  addresses : HoldsHead q → ∀ a ∈ addresses s chain, a ∈ addresses s' chain'
  nonempty : HoldsHead q → chain ≠ [] → chain' ≠ []

theorem Frame.knows (h : Frame u s chain s' chain' q) (hq : Knows u s chain q) :
    Knows u s' chain' q := by
  have htail (hh : HoldsTail q) {n : Option (Node T)} (hn : s.heap s.tail = n) :
      s'.heap s'.tail = n := by
    rw [(h.tail hh).1, (h.tail hh).2, hn]
  cases q <;> try trivial
  case pushLock => exact h.owned _ _ hq
  case pushFree => exact h.owned _ _ hq
  case pushRecheck => exact ⟨h.owned _ _ hq.1, htail trivial hq.2⟩
  case pushFill => exact ⟨h.owned _ _ hq.1, htail trivial hq.2⟩
  case pushUnwind => exact ⟨h.owned _ _ hq.1, htail trivial hq.2⟩
  case pushLink => exact ⟨h.owned _ _ hq.1, htail trivial hq.2⟩
  case pushAdvance => exact ⟨h.owned _ _ hq.1, htail trivial hq.2⟩
  case pushUnlock => exact htail trivial hq
  case waitCompare => exact h.addresses trivial _ hq
  case lastTail => exact fun hr => h.nonempty trivial (hq hr)
  case lastCompare =>
      refine ⟨h.addresses trivial _ hq.1, fun hr => ?_⟩
      rw [h.head trivial]
      exact hq.2 hr
  case popHead => exact h.nonempty trivial hq
  case popUnlock => exact hq.imp fun v hv => h.owned _ _ hv
  case popTake => exact hq.imp fun v hv => h.owned _ _ hv

section Facts

theorem Chained.nil_iff (h : Chained s chain) : chain = [] ↔ s.head = some s.tail :=
  segment_eq_nil_iff h.segment fun hm => (List.nodup_append.mp h.nodup).2.2 _ hm _
    (List.mem_singleton_self _) rfl

theorem Chained.head_mem (h : Chained s chain) (ha : s.head = some a) : a ∈ addresses s chain := by
  cases chain with
  | nil =>
      cases ha.symm.trans (h.nil_iff.mp rfl)
      exact tail_mem s []
  | cons x rest =>
      cases ha.symm.trans h.segment.1
      exact List.mem_append_left _ List.mem_cons_self

theorem Chained.nonempty (h : Chained s chain) (ha : a ∈ addresses s chain)
    (hhead : s.head ≠ some a) : chain ≠ [] := by
  rintro rfl
  have hat : a = s.tail := by simpa [addresses] using ha
  exact hhead (hat ▸ h.nil_iff.mp rfl)

theorem Chained.chain_node (h : Chained s chain) (ha : a ∈ chain.map Prod.fst) :
    ∃ v n, s.heap a = some ⟨some v, n, none⟩ := by
  obtain ⟨v, n, hn⟩ := segment_cell h.segment a ha
  exact ⟨v, n, cell_eq hn⟩

theorem tail_node (hc : Locked c) (hg : Chained c.shared chain)
    (hl : ∀ u, Knows u c.shared chain (c.pc u)) :
    ∃ n, c.shared.heap c.shared.tail = some n ∧ n.owner = none := by
  cases hm : c.shared.tailMutex with
  | none => exact ⟨_, hg.dummy hm, rfl⟩
  | some u =>
      have hh := (hc u).2.mp hm
      have hk := hl u
      cases hp : c.pc u <;> rw [hp] at hh hk <;> try exact absurd hh id
      case pushUnlock => exact ⟨_, hk, rfl⟩
      all_goals exact ⟨_, hk.2, rfl⟩

theorem owned_not_address (hc : Locked c) (hg : Chained c.shared chain)
    (hl : ∀ u, Knows u c.shared chain (c.pc u)) {data : Option T} (ha : Owns t c.shared a data) :
    a ∉ addresses c.shared chain := by
  intro hm
  rw [Owns] at ha
  obtain hm | hm := List.mem_append.mp hm
  · obtain ⟨v, n, hn⟩ := hg.chain_node hm
    rw [hn] at ha
    cases ha
  · obtain ⟨n, hn, ho⟩ := tail_node hc hg hl
    rw [List.mem_singleton.mp hm, hn] at ha
    cases ha
    cases ho

end Facts

section Effects

def Keeps (t : Nat) (c : QueueConfig T) (chain : List (Nat × T)) (s' : Shared T)
    (chain' : List (Nat × T)) : Prop :=
  Chained s' chain' ∧ ∀ u, u ≠ t → Frame u c.shared chain s' chain' (c.pc u)

theorem keeps_linked (hg : Chained c.shared chain)
    (hcells : ∀ b ∈ chain.map Prod.fst, s'.heap b = c.shared.heap b)
    (hhead : s'.head = c.shared.head) (htail : s'.tail = c.shared.tail)
    (hqueued : s'.queued = c.shared.queued) (hpopped : s'.popped = c.shared.popped)
    (hdummy : s'.tailMutex = none → s'.heap s'.tail = some {})
    (howned : ∀ u, u ≠ t → ∀ b data, Owns u c.shared b data → Owns u s' b data)
    (hheld : ∀ u, u ≠ t → HoldsTail (c.pc u) → s'.heap c.shared.tail = c.shared.heap c.shared.tail) :
    Keeps t c chain s' chain := by
  have haddr := addresses_of_tail htail chain
  refine ⟨⟨?_, ?_, ?_, hdummy⟩, fun u hu => ⟨howned u hu, ?_, fun _ => hhead, ?_, fun _ h => h⟩⟩
  · rw [hhead, htail]
    refine segment_congr ?_ hg.segment
    intro b hb
    rw [cell, hcells b hb, cell]
  · rw [haddr]
    exact hg.nodup
  · rw [hpopped, hqueued]
    exact hg.balance
  · exact fun hh => ⟨htail, hheld u hu hh⟩
  · intro _ b hb
    rwa [haddr]

theorem keeps_same (hg : Chained c.shared chain) (hheap : s'.heap = c.shared.heap)
    (hhead : s'.head = c.shared.head) (htail : s'.tail = c.shared.tail)
    (hqueued : s'.queued = c.shared.queued) (hpopped : s'.popped = c.shared.popped)
    (hdummy : s'.tailMutex = none → s'.heap s'.tail = some {}) : Keeps t c chain s' chain := by
  apply keeps_linked hg (fun b _ => by rw [hheap]) hhead htail hqueued hpopped hdummy
  · intro u _ b data hb
    rwa [Owns, hheap]
  · intro _ _ _
    rw [hheap]

theorem keeps_write (hg : Chained c.shared chain) (ha : a ∉ addresses c.shared chain)
    (hown : ∀ u, u ≠ t → ∀ data, ¬Owns u c.shared a data) {x : Option (Node T)}
    (hheap : s'.heap = Function.update c.shared.heap a x) (hhead : s'.head = c.shared.head)
    (htail : s'.tail = c.shared.tail) (hqueued : s'.queued = c.shared.queued)
    (hpopped : s'.popped = c.shared.popped) (hmutex : s'.tailMutex = c.shared.tailMutex) :
    Keeps t c chain s' chain := by
  have hkeep (b : Nat) (hb : b ∈ addresses c.shared chain) : s'.heap b = c.shared.heap b := by
    rw [hheap, Function.update_of_ne]
    rintro rfl
    exact ha hb
  have htailmem := tail_mem c.shared chain
  apply keeps_linked hg (fun b hb => hkeep b (List.mem_append_left _ hb)) hhead htail hqueued hpopped
  · intro hm
    rw [htail, hkeep _ htailmem]
    exact hg.dummy (hmutex ▸ hm)
  · intro u hu b data hb
    apply owns_update hheap hb
    rintro rfl
    exact hown u hu data hb
  · exact fun _ _ _ => hkeep _ htailmem

theorem keeps_dummy (hc : Locked c) (hg : Chained c.shared chain)
    (ht : c.shared.tailMutex = some t) (hnode : ∃ n, c.shared.heap c.shared.tail = some n ∧ n.owner = none)
    {x : Option (Node T)} (hheap : s'.heap = Function.update c.shared.heap c.shared.tail x)
    (hhead : s'.head = c.shared.head) (htail : s'.tail = c.shared.tail)
    (hqueued : s'.queued = c.shared.queued) (hpopped : s'.popped = c.shared.popped)
    (hmutex : s'.tailMutex = c.shared.tailMutex) : Keeps t c chain s' chain := by
  have hcells (b : Nat) (hb : b ∈ chain.map Prod.fst) : s'.heap b = c.shared.heap b := by
    have hne : b ≠ c.shared.tail :=
      (List.nodup_append.mp hg.nodup).2.2 b hb _ (List.mem_singleton_self _)
    rw [hheap, Function.update_of_ne hne]
  apply keeps_linked hg hcells hhead htail hqueued hpopped
  · intro hm
    rw [hmutex, ht] at hm
    cases hm
  · intro u _ b data hb
    apply owns_update hheap hb
    rintro rfl
    obtain ⟨n, hn, ho⟩ := hnode
    cases hn.symm.trans hb
    cases ho
  · exact fun u hu hh => absurd hh (hc.tail_exclusive ht hu)

theorem keeps_advance (hc : Locked c) (hg : Chained c.shared chain)
    (ht : c.shared.tailMutex = some t) {v : T} {i : PushId} (ha : a ∉ addresses c.shared chain)
    (hown : Owns t c.shared a none)
    (hnode : c.shared.heap c.shared.tail = some { data := some v, next := some a })
    (hheap : s'.heap = Function.update c.shared.heap a (some {}))
    (hhead : s'.head = c.shared.head) (htail : s'.tail = a)
    (hqueued : s'.queued = c.shared.queued ++ [(i, v)]) (hpopped : s'.popped = c.shared.popped)
    (hmutex : s'.tailMutex = c.shared.tailMutex) :
    Keeps t c chain s' (chain ++ [(c.shared.tail, v)]) := by
  have haddr : addresses s' (chain ++ [(c.shared.tail, v)]) = addresses c.shared chain ++ [a] := by
    rw [addresses, htail, List.map_append, addresses]
    rfl
  have hkeep (b : Nat) (hb : b ∈ addresses c.shared chain) : s'.heap b = c.shared.heap b := by
    rw [hheap, Function.update_of_ne]
    rintro rfl
    exact ha hb
  have htailmem := tail_mem c.shared chain
  refine ⟨⟨?_, ?_, ?_, ?_⟩, fun u hu => ⟨?_, ?_, ?_, ?_, ?_⟩⟩
  · rw [hhead, htail]
    refine segment_append (segment_congr ?_ hg.segment) ?_
    · intro b hb
      rw [cell, hkeep b (List.mem_append_left _ hb), cell]
    · rw [cell, hkeep _ htailmem, hnode]
  · rw [haddr, ← List.concat_eq_append]
    exact List.Nodup.concat ha hg.nodup
  · rw [hpopped, hqueued, List.map_append, List.map_append, ← List.append_assoc, hg.balance]
    rfl
  · intro hm
    rw [hmutex, ht] at hm
    cases hm
  · intro b data hb
    apply owns_update hheap hb
    rintro rfl
    exact hu (owns_unique hown hb).symm
  · exact fun hh => absurd hh (hc.tail_exclusive ht hu)
  · exact fun _ => hhead
  · intro _ b hb
    rw [haddr]
    exact List.mem_append_left _ hb
  · exact fun _ _ => by simp

theorem keeps_pop (hc : Locked c) {n : Option Nat} {v : T}
    (hg : Chained c.shared ((a, v) :: chain)) (ht : c.shared.headMutex = some t)
    (hnode : c.shared.heap a = some ⟨some v, n, none⟩) {x : Option (Node T)}
    (hheap : s'.heap = Function.update c.shared.heap a x)
    (hhead : s'.head = n) (htail : s'.tail = c.shared.tail)
    (hqueued : s'.queued = c.shared.queued) (hpopped : s'.popped = c.shared.popped ++ [some v])
    (hmutex : s'.tailMutex = c.shared.tailMutex) : Keeps t c ((a, v) :: chain) s' chain := by
  have haddr : addresses c.shared ((a, v) :: chain) = a :: addresses s' chain := by
    rw [addresses, addresses, htail]
    rfl
  have hnodup := hg.nodup
  rw [haddr, List.nodup_cons] at hnodup
  obtain ⟨hnot, hnodup⟩ := hnodup
  have hkeep (b : Nat) (hb : b ∈ addresses s' chain) : s'.heap b = c.shared.heap b := by
    rw [hheap, Function.update_of_ne]
    rintro rfl
    exact hnot hb
  have htailmem : c.shared.tail ∈ addresses s' chain :=
    List.mem_append_right _ (htail ▸ List.mem_singleton_self _)
  refine ⟨⟨?_, hnodup, ?_, ?_⟩, fun u hu => ⟨?_, ?_, ?_, ?_, ?_⟩⟩
  · obtain ⟨-, m, hm, hrest⟩ := hg.segment
    cases hnode.symm.trans (cell_eq hm)
    rw [hhead, htail]
    refine segment_congr ?_ hrest
    intro b hb
    rw [cell, hkeep b (List.mem_append_left _ hb), cell]
  · rw [hpopped, hqueued, ← hg.balance, List.append_assoc]
    rfl
  · intro hm
    rw [htail, hkeep _ htailmem]
    exact hg.dummy (hmutex ▸ hm)
  · intro b data hb
    apply owns_update hheap hb
    rintro rfl
    cases hnode.symm.trans hb
  · exact fun _ => ⟨htail, hkeep _ htailmem⟩
  · exact fun hh => absurd hh (hc.head_exclusive ht hu)
  · exact fun hh => absurd hh (hc.head_exclusive ht hu)
  · exact fun hh => absurd hh (hc.head_exclusive ht hu)

end Effects

theorem modifyNode_heap {f : Node T → Node T} {n : Node T} (h : s.heap a = some n) :
    (s.modifyNode a f).heap = Function.update s.heap a (some (f n)) := by
  rw [Shared.modifyNode, h]
  rfl

theorem keeps_modifyTail (hc : Locked c) (hg : Chained c.shared chain)
    (hl : ∀ u, Knows u c.shared chain (c.pc u)) (ht : c.shared.tailMutex = some t) {b : Nat}
    {d : Option T} {n : Node T} (hb : Owns t c.shared b d)
    (hn : c.shared.heap c.shared.tail = some n) (f : Node T → Node T) :
    Keeps t c chain (c.shared.modifyNode c.shared.tail f) chain ∧
      Owns t (c.shared.modifyNode c.shared.tail f) b d ∧
      (c.shared.modifyNode c.shared.tail f).heap c.shared.tail = some (f n) := by
  have hheap := modifyNode_heap (f := f) hn
  refine ⟨keeps_dummy hc hg ht (tail_node hc hg hl) hheap rfl rfl rfl rfl rfl, ?_, ?_⟩
  · apply owns_update hheap hb
    rintro rfl
    exact owned_not_address hc hg hl hb (tail_mem _ _)
  · rw [hheap, Function.update_self]

/-- Every step of a member function keeps the chain, whatever the other
threads are doing, and the thread knows what it needs for its next step. -/
theorem move_keeps (hc : Locked c) (hg : Chained c.shared chain)
    (hl : ∀ u, Knows u c.shared chain (c.pc u)) (hm : Move t c.shared (c.pc t) s' p') :
    ∃ chain', Keeps t c chain s' chain' ∧ Knows t s' chain' p' := by
  have hk := hl t
  have hlock := hc t
  have hnode := tail_node hc hg hl
  have hsame := keeps_same (t := t) hg rfl rfl rfl rfl rfl hg.dummy
  have hout {b : Nat} {d : Option T} (hb : Owns t c.shared b d) := owned_not_address hc hg hl hb
  have hothers {b : Nat} {d : Option T} (hb : Owns t c.shared b d) (u : Nat) (hu : u ≠ t)
      (d' : Option T) : ¬Owns u c.shared b d' := fun hb' => hu (owns_unique hb hb').symm
  generalize c.pc t = p at hm hk hlock
  cases hm with
  | alloc b h =>
      have hfresh (u : Nat) (d : Option T) : ¬Owns u c.shared b d := by
        intro hb
        cases h.symm.trans hb
      have hb : b ∉ addresses c.shared chain := by
        intro hb
        obtain hb | hb := List.mem_append.mp hb
        · obtain ⟨v, n, hn⟩ := hg.chain_node hb
          cases h.symm.trans hn
        · obtain ⟨n, hn, -⟩ := hnode
          rw [← List.mem_singleton.mp hb] at hn
          cases h.symm.trans hn
      exact ⟨chain, keeps_write hg hb (fun u _ d => hfresh u d) rfl rfl rfl rfl rfl rfl,
        Function.update_self _ _ _⟩
  | lockTail h =>
      exact ⟨chain, keeps_same hg rfl rfl rfl rfl rfl nofun, hk, hg.dummy h⟩
  | recheckClosed h => exact ⟨chain, hsame, hk⟩
  | recheckOpen h => exact ⟨chain, hsame, hk⟩
  | fill | link =>
      exact ⟨chain, keeps_modifyTail hc hg hl (hlock.2.mpr trivial) hk.1 hk.2 _⟩
  | @advance i v b =>
      have hheap := modifyNode_heap (f := ({ · with owner := none })) hk.1
      refine ⟨_, keeps_advance hc hg (hlock.2.mpr trivial) (hout hk.1) hk.1 hk.2 hheap rfl rfl rfl
        rfl rfl, ?_⟩
      exact (congrFun hheap _).trans (Function.update_self _ _ _)
  | unlockTail => exact ⟨chain, keeps_same hg rfl rfl rfl rfl rfl fun _ => hk, trivial⟩
  | unwind => exact ⟨chain, keeps_same hg rfl rfl rfl rfl rfl fun _ => hk.2, hk.1⟩
  | free =>
      exact ⟨chain, keeps_write hg (hout hk) (hothers hk) rfl rfl rfl rfl rfl rfl, trivial⟩
  | lockTry h => exact ⟨chain, keeps_same hg rfl rfl rfl rfl rfl hg.dummy, nofun⟩
  | testClosed h => exact ⟨chain, hsame, nofun⟩
  | waitTail h => exact ⟨chain, hsame, tail_mem _ _⟩
  | waitElement h => exact ⟨chain, hsame, fun _ => hg.nonempty hk h⟩
  | lastTail h =>
      exact ⟨chain, hsame, tail_mem _ _,
        fun hr he => hk hr (hg.nil_iff.mpr he)⟩
  | lastElement h => exact ⟨chain, hsame, hg.nonempty hk.1 h⟩
  | @popHead k b h =>
      obtain ⟨⟨b', v⟩, rest, rfl⟩ := List.exists_cons_of_ne_nil hk
      obtain ⟨hb, n, hn, -⟩ := hg.segment
      cases h.symm.trans hb
      have hbn := cell_eq hn
      have hheap := modifyNode_heap (f := ({ · with next := none, owner := some t })) hbn
      refine ⟨rest, keeps_pop hc hg (hlock.1.mpr trivial) hbn hheap ?_ rfl rfl ?_ rfl, v, ?_⟩
      · simp [hbn]
      · simp [hbn]
      · exact (congrFun hheap _).trans (Function.update_self _ _ _)
  | unlockPopped => exact ⟨chain, keeps_same hg rfl rfl rfl rfl rfl hg.dummy, hk⟩
  | take h hv =>
      obtain ⟨w, hw⟩ := hk
      exact ⟨chain, keeps_write hg (hout hw) (hothers hw) rfl rfl rfl rfl rfl rfl, trivial⟩
  | checkOpen | allocFails | testOpen | waitEmpty | waitLate | wake | lastEmpty =>
      exact ⟨chain, hsame, trivial⟩
  | checkClosed | notifyNone | notifyOne | lockWait | sleep | spurious | timeout | relock
  | lastDrained | unlockMissed | storeClosed | notifyAll =>
      exact ⟨chain, keeps_same hg rfl rfl rfl rfl rfl hg.dummy, trivial⟩

theorem client_keeps (hc : Locked c) (hg : Chained c.shared chain)
    (hl : ∀ u, Knows u c.shared chain (c.pc u)) (hm : ClientMove t c.shared (c.pc t) s' p') :
    ∃ chain', Keeps t c chain s' chain' ∧ Knows t s' chain' p' := by
  have hsame := keeps_same (t := t) hg rfl rfl rfl rfl rfl hg.dummy
  generalize hp : c.pc t = p at hm
  cases hm with
  | move h => exact move_keeps hc hg hl (hp ▸ h)
  | push v => exact ⟨chain, keeps_same hg rfl rfl rfl rfl rfl hg.dummy, trivial⟩
  | pop k => exact ⟨chain, hsame, trivial⟩
  | close => exact ⟨chain, hsame, trivial⟩
  | finish h => exact ⟨chain, hsame, trivial⟩

theorem chained_initial : Chained (initial : QueueConfig T).shared [] :=
  ⟨rfl, List.nodup_singleton _, rfl, fun _ => rfl⟩

theorem reachable_chained (h : Reachable c) :
    ∃ chain, Chained c.shared chain ∧ ∀ t, Knows t c.shared chain (c.pc t) := by
  refine h.outline Chained Knows ⟨[], chained_initial, fun _ => trivial⟩ ?_
  intro d chain t s p hd hg hl hm
  obtain ⟨chain', ⟨hg', hframe⟩, hk⟩ := client_keeps (reachable_locked hd) hg hl hm
  exact ⟨chain', hg', hk, fun u hu => (hframe u hu).knows (hl u)⟩

/-- In every state the values popped, followed by those in the chain, are the
values pushed. A consumer at `pop_head` finds a node with data that is not the dummy. -/
theorem reachable_fifo (h : Reachable c) :
    ∃ chain, Segment (cell c.shared.heap) c.shared.head chain c.shared.tail ∧
      c.shared.popped ++ chain.map (fun x => some x.2) =
        c.shared.queued.map (fun x => some x.2) ∧
      ∀ t k, c.pc t = .popHead k → ∃ a v n, c.shared.head = some a ∧ a ≠ c.shared.tail ∧
        c.shared.heap a = some ⟨some v, some n, none⟩ := by
  obtain ⟨chain, hg, hl⟩ := reachable_chained h
  refine ⟨chain, hg.segment, hg.balance, fun t k ht => ?_⟩
  have hk := hl t
  rw [ht] at hk
  obtain ⟨⟨a, v⟩, rest, rfl⟩ := List.exists_cons_of_ne_nil hk
  obtain ⟨hhead, n, hn, hrest⟩ := hg.segment
  obtain ⟨b, rfl⟩ := segment_start hrest
  refine ⟨a, v, b, hhead, ?_, cell_eq hn⟩
  exact (List.nodup_append.mp hg.nodup).2.2 a List.mem_cons_self _ (List.mem_singleton_self _)

theorem reachable_fifo_stale : ∃ c : QueueConfig Nat,
    c.shared.queued = [((1, 0), 7), ((1, 1), 8)] ∧ c.pc 2 = .popHead .tryPop ∧
    ∃ chain, Segment (cell c.shared.heap) c.shared.head chain c.shared.tail ∧
      c.shared.popped ++ chain.map (fun x => some x.2) =
        c.shared.queued.map (fun x => some x.2) ∧
      ∀ t k, c.pc t = .popHead k → ∃ a v n, c.shared.head = some a ∧ a ≠ c.shared.tail ∧
        c.shared.heap a = some ⟨some v, some n, none⟩ := by
  have h₀ : Reachable (initial : QueueConfig Nat) := .refl
  have hfirst := ((((h₀.start 1).next (.push 7)).next (.move (.checkOpen rfl))).next
    (.move (.alloc 1 rfl))).next (.move (.lockTail rfl))
  have hlinked := (((hfirst.next (.move (.recheckOpen rfl))).next (.move .fill)).next
    (.move .link)).next (.move .advance)
  have h₁ := h₀.call (((hlinked.next (.move .unlockTail)).next
    (.move (.notifyNone fun _ => rfl))).next (.finish trivial))
  have h₂ := h₁.alone ((((h₁.start 2).next (.pop .tryPop)).next (.move (.lockTry rfl))).next
    (.move (.lastTail rfl)))
  have hsecond := ((((h₂.start 1).next (.push 8)).next (.move (.checkOpen rfl))).next
    (.move (.alloc 2 rfl))).next (.move (.lockTail rfl))
  have hlinked := (((hsecond.next (.move (.recheckOpen rfl))).next (.move .fill)).next
    (.move .link)).next (.move .advance)
  have h₃ := h₂.call (((hlinked.next (.move .unlockTail)).next
    (.move (.notifyNone fun _ => rfl))).next (.finish trivial))
  have h₄ := h₃.next 2 (.move (.lastElement nofun))
  exact ⟨_, rfl, rfl, reachable_fifo h₄⟩

end Lzhlib.QueueChain
