import Lzhlib.QueueChain

namespace Lzhlib.DataRaces

open Interleaving ThreadQueue QueueLocks QueueChain

variable {T : Type} {c : QueueConfig T} {t u : Nat} {s s' : Shared T} {p p' : Pc T}
  {chain : List (Nat × T)} {a : Nat}

inductive Cell
  | head
  | tail
  | data (a : Nat)
  | next (a : Nat)
  deriving DecidableEq

def reads (s : Shared T) : Pc T → List Cell
  | .pushFill _ _ _ | .pushLink _ _ _ | .waitTail _ _ | .lastTail _ _ => [.tail]
  | .waitCompare _ _ _ | .lastCompare _ _ _ => [.head]
  | .popHead _ => .head :: s.head.toList.map .next
  | .popTake _ a => [.data a]
  | _ => []

/-- What the next step of a thread writes. A node that it makes is not shared yet. -/
def writes (s : Shared T) : Pc T → List Cell
  | .pushFill _ _ _ => [.data s.tail]
  | .pushLink _ _ _ => [.next s.tail]
  | .pushAdvance _ _ _ => [.tail]
  | .popHead _ => .head :: s.head.toList.map .next
  -- A node goes away with all its members.
  | .pushFree _ a | .popTake _ a => [.data a, .next a]
  | _ => []

section Footprints

/-- The contents of a shared variable; a node that is gone has none. -/
def contents (s : Shared T) : Cell → Option (Option Nat ⊕ Option T)
  | .head => some (.inl s.head)
  | .tail => some (.inl (some s.tail))
  | .data a => (s.heap a).map fun n => .inr n.data
  | .next a => (s.heap a).map fun n => .inl n.next

theorem contents_modifyNode {f : Node T → Node T} {x : Cell} (hdata : x = .data a → ∀ n, (f n).data = n.data)
    (hnext : x = .next a → ∀ n, (f n).next = n.next) :
    contents (s.modifyNode a f) x = contents s x := by
  cases x with
  | head | tail => rfl
  | data b =>
      by_cases hb : b = a
      · subst hb
        simp [contents, Shared.modifyNode, Function.comp_def, hdata rfl]
      · simp [contents, Shared.modifyNode, hb]
  | next b =>
      by_cases hb : b = a
      · subst hb
        simp [contents, Shared.modifyNode, Function.comp_def, hnext rfl]
      · simp [contents, Shared.modifyNode, hb]

theorem contents_update {n : Option (Node T)} {x : Cell} (hdata : x ≠ .data a) (hnext : x ≠ .next a) :
    contents { s with heap := Function.update s.heap a n } x = contents s x := by
  cases x with
  | head | tail => rfl
  | data b =>
      have hb : b ≠ a := fun hb => hdata (congrArg _ hb)
      simp [contents, hb]
  | next b =>
      have hb : b ≠ a := fun hb => hnext (congrArg _ hb)
      simp [contents, hb]

theorem move_contents (hm : Move t s p s' p') {x : Cell} (hx : x ∉ writes s p)
    (hold : contents s x ≠ none) : contents s' x = contents s x := by
  cases hm with
  | @alloc i v a h =>
      apply contents_update
      · rintro rfl
        exact hold (by simp [contents, h])
      · rintro rfl
        exact hold (by simp [contents, h])
  | fill =>
      refine contents_modifyNode ?_ fun _ _ => rfl
      rintro rfl
      exact absurd (List.mem_singleton_self _) hx
  | link =>
      refine contents_modifyNode (fun _ _ => rfl) ?_
      rintro rfl
      exact absurd (List.mem_singleton_self _) hx
  | @advance i v a =>
      have hnode : contents (s.modifyNode a ({ · with owner := none })) x = contents s x :=
        contents_modifyNode (fun _ _ => rfl) fun _ _ => rfl
      rw [← hnode]
      cases x <;> first | rfl | exact absurd (List.mem_singleton_self _) hx
  | @popHead k a h =>
      have hnode : contents (s.modifyNode a ({ · with next := none, owner := some t })) x = contents s x := by
        refine contents_modifyNode (fun _ _ => rfl) ?_
        rintro rfl
        exact absurd (by simp [writes, h]) hx
      rw [← hnode]
      cases x <;> first | rfl | exact absurd List.mem_cons_self hx
  | @free i a =>
      refine .trans ?_ (contents_update (n := none) (a := a) ?_ ?_)
      · cases x <;> rfl
      · exact fun h => hx (h ▸ List.mem_cons_self)
      · exact fun h => hx (h ▸ List.mem_cons_of_mem _ List.mem_cons_self)
  | @take k a n v h hv =>
      apply contents_update
      · exact fun h => hx (h ▸ List.mem_cons_self)
      · exact fun h => hx (h ▸ List.mem_cons_of_mem _ List.mem_cons_self)
  | checkClosed | checkOpen | allocFails | lockTail | recheckClosed | recheckOpen | unlockTail
  | notifyNone | notifyOne | unwind | lockTry | lockWait | testClosed | testOpen | waitTail
  | waitElement | waitEmpty | waitLate | sleep | wake | spurious | timeout | relock | lastTail
  | lastElement | lastEmpty | lastDrained | unlockPopped | unlockMissed | storeClosed
  | notifyAll => cases x <;> rfl

/-- Two states that a step cannot tell apart by these variables, nor by the flag,
the mutexes, the sleepers and which nodes there are. -/
structure Agrees (l : Cell → Prop) (s q : Shared T) : Prop where
  cells : ∀ x, l x → contents q x = contents s x
  nodes : ∀ a, q.heap a = none ↔ s.heap a = none
  closed : q.closed = s.closed
  headMutex : q.headMutex = s.headMutex
  tailMutex : q.tailMutex = s.tailMutex
  sleeping : q.sleeping = s.sleeping

variable {l : Cell → Prop} {q : Shared T}

theorem absent_congr (h : ∀ a, q.heap a = none ↔ s.heap a = none) {x : Cell} (hx : contents s x = none) :
    contents q x = none := by
  cases x with
  | head | tail => cases hx
  | data a | next a =>
      rw [contents, Option.map_eq_none_iff] at hx ⊢
      exact (h a).mpr hx

theorem Agrees.head (h : Agrees l s q) (hx : l .head) : q.head = s.head :=
  Sum.inl.inj (Option.some.inj (h.cells .head hx))

theorem Agrees.tail (h : Agrees l s q) (hx : l .tail) : q.tail = s.tail :=
  Option.some.inj (Sum.inl.inj (Option.some.inj (h.cells .tail hx)))

theorem Agrees.next (h : Agrees l s q) (hx : l (.next a)) :
    (q.heap a).bind Node.next = (s.heap a).bind Node.next := by
  have hcell := h.cells (.next a) hx
  cases hs : s.heap a <;> cases hq : q.heap a <;> simp_all [contents]

theorem Agrees.data (h : Agrees l s q) (hx : l (.data a)) {n : Node T} (hn : s.heap a = some n) :
    ∃ m, q.heap a = some m ∧ m.data = n.data := by
  have hcell := h.cells (.data a) hx
  cases hq : q.heap a <;> simp_all [contents]

theorem modifyNode_nodes (s : Shared T) (a : Nat) (f : Node T → Node T) (b : Nat) :
    (s.modifyNode a f).heap b = none ↔ s.heap b = none := by
  by_cases hb : b = a
  · subst hb
    simp [Shared.modifyNode]
  · simp [Shared.modifyNode, hb]

theorem modifyNode_congr (h : ∀ b, q.heap b = none ↔ s.heap b = none) (f : Node T → Node T) (b : Nat) :
    (q.modifyNode a f).heap b = none ↔ (s.modifyNode a f).heap b = none := by
  rw [modifyNode_nodes, modifyNode_nodes, h]

theorem update_congr (h : ∀ b, q.heap b = none ↔ s.heap b = none) (n : Option (Node T)) (b : Nat) :
    Function.update q.heap a n b = none ↔ Function.update s.heap a n b = none := by
  by_cases hb : b = a
  · subst hb
    rw [Function.update_self, Function.update_self]
  · rw [Function.update_of_ne hb, Function.update_of_ne hb]
    exact h b

theorem contents_update_congr {n : Option (Node T)} {x : Cell}
    (h : x ≠ .data a → x ≠ .next a → contents q x = contents s x) :
    contents { q with heap := Function.update q.heap a n } x =
      contents { s with heap := Function.update s.heap a n } x := by
  by_cases hdata : x = .data a
  · subst hdata
    simp [contents]
  · by_cases hnext : x = .next a
    · subst hnext
      simp [contents]
    · rw [contents_update hdata hnext, contents_update hdata hnext]
      exact h hdata hnext

theorem modifyNode_absent (h : ∀ b, q.heap b = none ↔ s.heap b = none) (f : Node T → Node T) {x : Cell}
    (hx : contents s x = none) : contents (q.modifyNode a f) x = contents (s.modifyNode a f) x := by
  rw [absent_congr (fun b => (modifyNode_nodes q a f b).trans (h b)) hx,
    absent_congr (modifyNode_nodes s a f) hx]

theorem written_data (h : ∀ b, q.heap b = none ↔ s.heap b = none) {f : Node T → Node T} {y : Option T}
    (hf : ∀ n, (f n).data = y) :
    contents (q.modifyNode a f) (.data a) = contents (s.modifyNode a f) (.data a) := by
  have ha := h a
  cases hs : s.heap a <;> cases hq : q.heap a <;> simp_all [contents, Shared.modifyNode]

theorem written_next (h : ∀ b, q.heap b = none ↔ s.heap b = none) {f : Node T → Node T} {y : Option Nat}
    (hf : ∀ n, (f n).next = y) :
    contents (q.modifyNode a f) (.next a) = contents (s.modifyNode a f) (.next a) := by
  have ha := h a
  cases hs : s.heap a <;> cases hq : q.heap a <;> simp_all [contents, Shared.modifyNode]

theorem Agrees.modifyNode (h : Agrees l s q) (f : Node T → Node T) {w : List Cell}
    (hw : ∀ x ∈ w, contents (q.modifyNode a f) x = contents (s.modifyNode a f) x) :
    Agrees (fun x => x ∈ w ∨ contents s x = none) (s.modifyNode a f) (q.modifyNode a f) := by
  refine ⟨?_, modifyNode_congr h.nodes f, h.closed, h.headMutex, h.tailMutex, h.sleeping⟩
  rintro x (hx | hx)
  · exact hw x hx
  · exact modifyNode_absent h.nodes f hx

/-- What a step does is decided by what it reads: where the same is read, the
same step can be taken, and it writes and makes the same. -/
theorem move_reads (hm : Move t s p s' p') (h : Agrees (· ∈ reads s p) s q) :
    ∃ q', Move t q p q' p' ∧ Agrees (fun x => x ∈ writes s p ∨ contents s x = none) s' q' := by
  have hsame (x : Cell) (hx : x ∈ ([] : List Cell) ∨ contents s x = none) :
      contents q x = contents s x := by
    have hnone := hx.resolve_left List.not_mem_nil
    rw [hnone, absent_congr h.nodes hnone]
  have hread := h
  obtain ⟨hcells, hnodes, hclosed, hhead, htail, hsleeping⟩ := h
  have hstill : Agrees (fun x => x ∈ ([] : List Cell) ∨ contents s x = none) s q :=
    ⟨hsame, hnodes, hclosed, hhead, htail, hsleeping⟩
  cases hm with
  | checkClosed hc => exact ⟨_, .checkClosed (hclosed.trans hc), hsame, hnodes, hclosed, hhead, htail, hsleeping⟩
  | checkOpen hc => exact ⟨_, .checkOpen (hclosed.trans hc), hstill⟩
  | allocFails => exact ⟨_, .allocFails, hstill⟩
  | lockTail hfree => exact ⟨_, .lockTail (htail.trans hfree), hsame, hnodes, hclosed, hhead, rfl, hsleeping⟩
  | recheckClosed hc => exact ⟨_, .recheckClosed (hclosed.trans hc), hstill⟩
  | recheckOpen hc => exact ⟨_, .recheckOpen (hclosed.trans hc), hstill⟩
  | unlockTail => exact ⟨_, .unlockTail, hsame, hnodes, hclosed, hhead, rfl, hsleeping⟩
  | notifyNone hnone =>
      exact ⟨_, .notifyNone fun u => (congrFun hsleeping u).trans (hnone u), hsame, hnodes, hclosed, hhead,
        htail, hsleeping⟩
  | notifyOne u hu =>
      exact ⟨_, .notifyOne u ((congrFun hsleeping u).trans hu), hsame, hnodes, hclosed, hhead, htail,
        congrArg (Function.update · u false) hsleeping⟩
  | unwind => exact ⟨_, .unwind, hsame, hnodes, hclosed, hhead, rfl, hsleeping⟩
  | lockTry hfree => exact ⟨_, .lockTry (hhead.trans hfree), hsame, hnodes, hclosed, rfl, htail, hsleeping⟩
  | lockWait hk hfree =>
      exact ⟨_, .lockWait hk (hhead.trans hfree), hsame, hnodes, hclosed, rfl, htail, hsleeping⟩
  | testClosed hc => exact ⟨_, .testClosed (hclosed.trans hc), hstill⟩
  | testOpen hc => exact ⟨_, .testOpen (hclosed.trans hc), hstill⟩
  | sleep =>
      exact ⟨_, .sleep, hsame, hnodes, hclosed, rfl, htail, congrArg (Function.update · t true) hsleeping⟩
  | wake hawake => exact ⟨_, .wake ((congrFun hsleeping t).trans hawake), hstill⟩
  | spurious =>
      exact ⟨_, .spurious, hsame, hnodes, hclosed, hhead, htail,
        congrArg (Function.update · t false) hsleeping⟩
  | timeout =>
      exact ⟨_, .timeout, hsame, hnodes, hclosed, hhead, htail,
        congrArg (Function.update · t false) hsleeping⟩
  | relock hfree => exact ⟨_, .relock (hhead.trans hfree), hsame, hnodes, hclosed, rfl, htail, hsleeping⟩
  | unlockPopped => exact ⟨_, .unlockPopped, hsame, hnodes, hclosed, rfl, htail, hsleeping⟩
  | unlockMissed => exact ⟨_, .unlockMissed, hsame, hnodes, hclosed, rfl, htail, hsleeping⟩
  | storeClosed => exact ⟨_, .storeClosed, hsame, hnodes, rfl, hhead, htail, hsleeping⟩
  | notifyAll => exact ⟨_, .notifyAll, hsame, hnodes, hclosed, hhead, htail, rfl⟩
  | @alloc i v a hfree =>
      exact ⟨_, .alloc a ((hnodes a).mpr hfree), fun x hx => contents_update_congr fun _ _ => hsame x hx,
        update_congr hnodes _, hclosed, hhead, htail, hsleeping⟩
  | @free i a =>
      refine ⟨_, .free, fun x hx => contents_update_congr fun hdata hnext => hsame x (Or.inr ?_),
        update_congr hnodes _, hclosed, hhead, htail, hsleeping⟩
      exact hx.resolve_left fun hmem => (List.mem_pair.mp hmem).elim hdata hnext
  | @take k a n v hn hv =>
      obtain ⟨m, hm, hdata⟩ := hread.data (List.mem_singleton_self _) hn
      refine ⟨_, .take hm (hdata.trans hv), fun x hx => contents_update_congr fun hdata hnext =>
        hsame x (Or.inr ?_), update_congr hnodes _, hclosed, hhead, htail, hsleeping⟩
      exact hx.resolve_left fun hmem => (List.mem_pair.mp hmem).elim hdata hnext
  | waitTail hfree =>
      rw [← hread.tail (List.mem_singleton_self _)]
      exact ⟨_, .waitTail (htail.trans hfree), hstill⟩
  | lastTail hfree =>
      rw [← hread.tail (List.mem_singleton_self _)]
      exact ⟨_, .lastTail (htail.trans hfree), hstill⟩
  | waitElement hne =>
      rw [← hread.head (List.mem_singleton_self _)] at hne
      exact ⟨_, .waitElement hne, hstill⟩
  | waitEmpty he =>
      rw [← hread.head (List.mem_singleton_self _)] at he
      exact ⟨_, .waitEmpty he, hstill⟩
  | waitLate he =>
      rw [← hread.head (List.mem_singleton_self _)] at he
      exact ⟨_, .waitLate he, hstill⟩
  | lastElement hne =>
      rw [← hread.head (List.mem_singleton_self _)] at hne
      exact ⟨_, .lastElement hne, hstill⟩
  | lastEmpty hr he =>
      rw [← hread.head (List.mem_singleton_self _)] at he
      exact ⟨_, .lastEmpty hr he, hstill⟩
  | lastDrained he =>
      rw [← hread.head (List.mem_singleton_self _)] at he
      exact ⟨_, .lastDrained he, hsame, hnodes, hclosed, hhead, htail, hsleeping⟩
  | @fill i v a =>
      have hq := hread.tail (List.mem_singleton_self _)
      refine ⟨_, .fill, ?_⟩
      rw [hq]
      refine hread.modifyNode _ fun x hx => ?_
      cases List.mem_singleton.mp hx
      exact written_data hnodes fun _ => rfl
  | @link i v a =>
      have hq := hread.tail (List.mem_singleton_self _)
      refine ⟨_, .link, ?_⟩
      rw [hq]
      refine hread.modifyNode _ fun x hx => ?_
      cases List.mem_singleton.mp hx
      exact written_next hnodes fun _ => rfl
  | @advance i v a =>
      refine ⟨_, .advance, ?_, modifyNode_congr hnodes _, hclosed, hhead, htail, hsleeping⟩
      rintro x (hx | hx)
      · cases List.mem_singleton.mp hx
        rfl
      · have habsent := modifyNode_absent (a := a) hnodes ({ · with owner := none }) hx
        cases x with
        | head | tail => cases hx
        | data b | next b => exact habsent
  | @popHead k a ha =>
      have hmem : .next a ∈ Cell.head :: s.head.toList.map .next := by simp [ha]
      have hnext := hread.next hmem
      have hq : q.head = some a := (hread.head List.mem_cons_self).trans ha
      refine ⟨_, .popHead hq, ?_, modifyNode_congr hnodes _, hclosed, hhead, htail, hsleeping⟩
      rintro x (hx | hx)
      · rw [writes, ha] at hx
        obtain rfl | hx := List.mem_cons.mp hx
        · exact congrArg (fun y => some (Sum.inl y)) hnext
        · cases List.mem_singleton.mp hx
          exact written_next hnodes fun _ => rfl
      · have habsent := modifyNode_absent (a := a) hnodes
          ({ · with next := none, owner := some t }) hx
        cases x with
        | head | tail => cases hx
        | data b | next b => exact habsent

end Footprints

section Guards

/-- The node is the dummy, the first one, or one that nobody else can reach, and
the thread may use it as such. -/
inductive Reaches (c : QueueConfig T) (t : Nat) : Nat → Prop
  | tail (h : HoldsTail (c.pc t)) : Reaches c t c.shared.tail
  | head {b} (h : HoldsHead (c.pc t)) (hb : c.shared.head = some b) (hne : b ≠ c.shared.tail) :
      Reaches c t b
  | own {b data} (h : Owns t c.shared b data) : Reaches c t b

theorem reaches_node (hc : Reachable c) (h : Reaches c t a) : ∃ n, c.shared.heap a = some n := by
  obtain ⟨chain, hg, hl⟩ := reachable_chained hc
  cases h with
  | tail h => exact (tail_node (reachable_locked hc) hg hl).imp fun _ h => h.1
  | head h ha hne =>
      obtain hmem | hmem := List.mem_append.mp (hg.head_mem ha)
      · obtain ⟨v, n, hn⟩ := hg.chain_node hmem
        exact ⟨_, hn⟩
      · exact absurd (List.mem_singleton.mp hmem) hne
  | own h => exact ⟨_, h⟩

theorem reaches_unique (hc : Reachable c) (ht : Reaches c t a) (hu : Reaches c u a) : t = u := by
  have hlocked := reachable_locked hc
  obtain ⟨chain, hg, hl⟩ := reachable_chained hc
  have howned {v b : Nat} {data : Option T} (h : Owns v c.shared b data) : b ∉ addresses c.shared chain :=
    owned_not_address hlocked hg hl h
  cases ht with
  | tail ht =>
      cases hu with
      | tail hu => exact Option.some.inj (((hlocked t).2.mpr ht).symm.trans ((hlocked u).2.mpr hu))
      | head hu ha hne => exact absurd rfl hne
      | own hu => exact absurd (tail_mem _ _) (howned hu)
  | head ht ha hne =>
      cases hu with
      | tail hu => exact absurd rfl hne
      | head hu => exact Option.some.inj (((hlocked t).1.mpr ht).symm.trans ((hlocked u).1.mpr hu))
      | own hu => exact absurd (hg.head_mem ha) (howned hu)
  | own ht =>
      cases hu with
      | tail hu => exact absurd (tail_mem _ _) (howned ht)
      | head hu ha hne => exact absurd (hg.head_mem ha) (howned ht)
      | own hu => exact owns_unique ht hu

def Guarded (c : QueueConfig T) (t : Nat) : Cell → Prop
  | .head => HoldsHead (c.pc t)
  | .tail => HoldsTail (c.pc t)
  | .data a | .next a => Reaches c t a

theorem guarded_unique (hc : Reachable c) {x : Cell} (ht : Guarded c t x) (hu : Guarded c u x) : t = u := by
  have hlocked := reachable_locked hc
  cases x with
  | head => exact Option.some.inj (((hlocked t).1.mpr ht).symm.trans ((hlocked u).1.mpr hu))
  | tail => exact Option.some.inj (((hlocked t).2.mpr ht).symm.trans ((hlocked u).2.mpr hu))
  | data a | next a => exact reaches_unique hc ht hu

theorem writes_guarded (hc : Reachable c) {x : Cell} (hx : x ∈ writes c.shared (c.pc t)) :
    Guarded c t x := by
  obtain ⟨chain, hg, hl⟩ := reachable_chained hc
  have hk := hl t
  have htail (h : HoldsTail (c.pc t)) : Guarded c t .tail ∧ Reaches c t c.shared.tail := ⟨h, .tail h⟩
  have hhead (h : HoldsHead (c.pc t)) : Guarded c t .head ∧ ∀ b, c.shared.head = some b →
      b ≠ c.shared.tail → Reaches c t b := ⟨h, fun b => .head h⟩
  cases hp : c.pc t <;> rw [hp] at hx hk htail hhead <;> try exact absurd hx List.not_mem_nil
  case pushFill i v a =>
      obtain rfl := List.mem_singleton.mp hx
      exact (htail trivial).2
  case pushLink i v a =>
      obtain rfl := List.mem_singleton.mp hx
      exact (htail trivial).2
  case pushAdvance i v a =>
      obtain rfl := List.mem_singleton.mp hx
      exact (htail trivial).1
  case popHead k =>
      obtain rfl | hx := List.mem_cons.mp hx
      · exact (hhead trivial).1
      · obtain ⟨b, hb, rfl⟩ := List.mem_map.mp hx
        have hb := Option.mem_toList.mp hb
        refine (hhead trivial).2 b hb fun heq => hk (hg.nil_iff.mpr ?_)
        rw [hb, heq]
  case pushFree i a =>
      obtain rfl | rfl := List.mem_pair.mp hx
      · exact .own hk
      · exact .own hk
  case popTake k a =>
      obtain ⟨v, hv⟩ := hk
      obtain rfl | rfl := List.mem_pair.mp hx
      · exact .own hv
      · exact .own hv

theorem reads_guarded (hc : Reachable c) (hm : Move t c.shared (c.pc t) s p) {x : Cell} (hx : x ∈ reads c.shared (c.pc t)) :
    Guarded c t x ∨ (x = .tail ∧ c.shared.tailMutex = none) := by
  have hwrites {x : Cell} := writes_guarded hc (t := t) (x := x)
  have hhead (h : HoldsHead (c.pc t)) : Guarded c t .head := h
  have htail (h : HoldsTail (c.pc t)) : Guarded c t .tail := h
  generalize c.pc t = p₀ at hm hx hwrites hhead htail
  cases hm with
  | fill | link =>
      obtain rfl := List.mem_singleton.mp hx
      exact Or.inl (htail trivial)
  | waitTail h | lastTail h => exact Or.inr ⟨List.mem_singleton.mp hx, h⟩
  | waitElement | waitEmpty | waitLate | lastElement | lastEmpty | lastDrained =>
      obtain rfl := List.mem_singleton.mp hx
      exact Or.inl (hhead trivial)
  -- These read nothing but what they also write.
  | popHead => exact Or.inl (hwrites hx)
  | take => exact Or.inl (hwrites (List.mem_cons.mpr (Or.inl (List.mem_singleton.mp hx))))
  | checkClosed | checkOpen | alloc | allocFails | lockTail | recheckClosed | recheckOpen | advance
  | unlockTail | notifyNone | notifyOne | unwind | free | lockTry | lockWait | testClosed | testOpen
  | sleep | wake | spurious | timeout | relock | unlockPopped | unlockMissed
  | storeClosed | notifyAll => exact absurd hx List.not_mem_nil

theorem guarded_contents (hc : Reachable c) {x : Cell} (h : Guarded c t x) :
    contents c.shared x ≠ none := by
  cases x with
  | head | tail => exact nofun
  | data a | next a =>
      obtain ⟨n, hn⟩ := reaches_node hc h
      simp [contents, hn]

end Guards

/-- The queue has no data race and no dangling access: the step of a thread
touches only what is there, it is decided by what it reads and changes only what
it writes, and no other thread that can move at the same time touches what it writes. -/
theorem reachable_raceFree (hc : Reachable c) (hm : Move t c.shared (c.pc t) s p) :
    (∀ x, x ∈ reads c.shared (c.pc t) ∨ x ∈ writes c.shared (c.pc t) → contents c.shared x ≠ none) ∧
    (∀ q, Agrees (· ∈ reads c.shared (c.pc t)) c.shared q → ∃ q', Move t q (c.pc t) q' p ∧
      Agrees (fun x => x ∈ writes c.shared (c.pc t) ∨ contents c.shared x = none) s q') ∧
    (∀ x, x ∉ writes c.shared (c.pc t) → contents c.shared x ≠ none →
      contents s x = contents c.shared x) ∧
    ∀ u s' p', u ≠ t → Move u c.shared (c.pc u) s' p' → ∀ x ∈ writes c.shared (c.pc t),
      x ∉ reads c.shared (c.pc u) ∧ x ∉ writes c.shared (c.pc u) := by
  refine ⟨?_, fun q => move_reads hm, fun x => move_contents hm, ?_⟩
  · rintro x (hx | hx)
    · obtain hguard | ⟨rfl, -⟩ := reads_guarded hc hm hx
      · exact guarded_contents hc hguard
      · exact nofun
    · exact guarded_contents hc (writes_guarded hc hx)
  · intro u s' p' hu hm' x hx
    have hguard := writes_guarded hc hx
    refine ⟨fun hread => ?_, fun hwrite => hu (guarded_unique hc (writes_guarded hc hwrite) hguard)⟩
    obtain hguard' | ⟨rfl, hfree⟩ := reads_guarded hc hm' hread
    · exact hu (guarded_unique hc hguard' hguard)
    · cases hfree.symm.trans ((reachable_locked hc t).2.mpr hguard)

theorem reachable_raceFree_crossing : ∃ c : QueueConfig Nat, c.pc 1 = .pushLink 1 8 2 ∧
    c.pc 2 = .popHead .tryPop ∧ writes c.shared (c.pc 1) = [.next 1] ∧
    writes c.shared (c.pc 2) = [.head, .next 0] ∧
    ∀ x ∈ writes c.shared (c.pc 2), x ∉ reads c.shared (c.pc 1) ∧ x ∉ writes c.shared (c.pc 1) := by
  have h₀ : Reachable (initial : QueueConfig Nat) := .refl
  have hfirst := ((((h₀.start 1).next (.push 7)).next (.move (.checkOpen rfl))).next
    (.move (.alloc 1 rfl))).next (.move (.lockTail rfl))
  have hlinked := (((hfirst.next (.move (.recheckOpen rfl))).next (.move .fill)).next
    (.move .link)).next (.move .advance)
  have h₁ := h₀.call (((hlinked.next (.move .unlockTail)).next
    (.move (.notifyNone fun _ => rfl))).next (.finish trivial))
  have h₂ := h₁.alone (((((h₁.start 2).next (.pop .tryPop)).next (.move (.lockTry rfl))).next
    (.move (.lastTail rfl))).next (.move (.lastElement nofun)))
  have hsecond := ((((h₂.start 1).next (.push 8)).next (.move (.checkOpen rfl))).next
    (.move (.alloc 2 rfl))).next (.move (.lockTail rfl))
  have h₃ := h₂.alone ((hsecond.next (.move (.recheckOpen rfl))).next (.move .fill))
  have hfree := reachable_raceFree (t := 2) h₃ (.popHead rfl)
  exact ⟨_, rfl, rfl, rfl, rfl, hfree.2.2.2 1 _ _ (by decide) .link⟩

end Lzhlib.DataRaces
