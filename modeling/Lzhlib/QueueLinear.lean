import Lzhlib.Linearizability
import Lzhlib.QueueClose

namespace Lzhlib.QueueLinear

open Interleaving Linearizability ThreadQueue QueueLocks QueueChain QueueClose

variable {T : Type}

structure Contents (T : Type) where
  items : List T := []
  closed : Bool := false

inductive Op (T : Type)
  | push (v : T)
  | pop (k : Caller)
  | close

/-- `refused` is `queue_closed` thrown by `push`, and `failed` is `bad_alloc`.
A consumer without a value gets `nullopt` or `false`, or has `queue_closed`
thrown at it. -/
inductive Reply (T : Type)
  | pushed
  | refused
  | failed
  | got (v : T)
  | missed
  | closed

inductive Sequential : Contents T → Op T → Reply T → Contents T → Prop
  | push {items} (v : T) : Sequential ⟨items, false⟩ (.push v) .pushed ⟨items ++ [v], false⟩
  | refuse {items} (v : T) : Sequential ⟨items, true⟩ (.push v) .refused ⟨items, true⟩
  | fail {a} (v : T) : Sequential a (.push v) .failed a
  | pop {v items closed} (k : Caller) :
      Sequential ⟨v :: items, closed⟩ (.pop k) (.got v) ⟨items, closed⟩
  | miss {closed} (k : Caller) (h : k = .waitAndPop → closed = true) :
      Sequential ⟨[], closed⟩ (.pop k) .missed ⟨[], closed⟩
  | close {items closed} : Sequential ⟨items, closed⟩ .close .closed ⟨items, true⟩

def invoked : Pc T → Option (Op T)
  | .pushCheck _ v => some (.push v)
  | .popLock k => some (.pop k)
  | .closeStore => some .close
  | _ => none

def replied : Pc T → Option (Reply T)
  | .pushReturned _ => some .pushed
  | .pushThrew _ => some .refused
  | .pushFailed => some .failed
  | .popReturned _ v => some (.got v)
  | .missReturned _ => some .missed
  | .closeReturned => some .closed
  | _ => none

abbrev QueueEvent (T : Type) := Event Nat (Op T) (Reply T)

inductive ClientEvent (t : Nat) :
    Shared T → Pc T → Option (QueueEvent T) → Shared T → Pc T → Prop
  | inside {s p s' p'} (h : Move t s p s' p') : ClientEvent t s p none s' p'
  | call {s s' p op} (h : ClientMove t s .idle s' p) (hp : invoked p = some op) :
      ClientEvent t s .idle (some (.call t op)) s' p
  | ret {s p r} (h : replied p = some r) : ClientEvent t s p (some (.ret t r)) s .idle

variable {c d : QueueConfig T} {t u : Nat} {s s' : Shared T} {p p' q : Pc T}
  {chain chain' : List (Nat × T)}

theorem ClientEvent.move {e : Option (QueueEvent T)} (h : ClientEvent t s p e s' p') :
    ClientMove t s p s' p' := by
  cases h with
  | inside h => exact .move h
  | call h _ => exact h
  | ret h =>
      apply ClientMove.finish
      cases p <;> trivial

theorem ClientMove.visible (h : ClientMove t s p s' p') : ∃ e, ClientEvent t s p e s' p' := by
  cases h with
  | move h => exact ⟨none, .inside h⟩
  | push v => exact ⟨_, .call (.push v) rfl⟩
  | pop k => exact ⟨_, .call (.pop k) rfl⟩
  | close => exact ⟨_, .call .close rfl⟩
  | finish h =>
      have hr : ∃ r, replied p = some r := by
        cases p <;> first | exact ⟨_, rfl⟩ | exact absurd h id
      obtain ⟨r, hr⟩ := hr
      exact ⟨_, .ret hr⟩

/-- How far a call is. A push takes effect when it finds the queue open inside
`tail_mutex`, though its value is linked later; a consumer takes effect at
`pop_head`, or when it reads the tail and misses. -/
def phase (s : Shared T) : Pc T → Phase (Op T) (Reply T)
  | .idle => .idle
  | .pushCheck _ v | .pushAlloc _ v | .pushLock _ v _ | .pushRecheck _ v _ => .called (.push v)
  | .pushFill _ _ _ | .pushLink _ _ _ | .pushAdvance _ _ _ | .pushUnlock _ | .pushNotify _
  | .pushReturned _ => .answered .pushed
  | .pushUnwind _ _ | .pushFree _ _ | .pushThrew _ => .answered .refused
  | .pushFailed => .answered .failed
  | .popLock k | .waitTest k _ | .waitTail k _ | .toSleep k | .asleep k | .awake k _
  | .lastTail k _ | .popHead k => .called (.pop k)
  | .waitCompare k late a => if late = true ∧ s.head = some a then .answered .missed else .called (.pop k)
  | .lastCompare k _ a => if s.head = some a then .answered .missed else .called (.pop k)
  | .popUnlock k a | .popTake k a =>
      match (s.heap a).bind Node.data with
      | some v => .answered (.got v)
      | none => .called (.pop k)
  | .popReturned _ v => .answered (.got v)
  | .missUnlock _ | .missReturned _ => .answered .missed
  | .closeStore => .called .close
  | .closeNotify | .closeReturned => .answered .closed

theorem Frame.phase (h : QueueChain.Frame u s chain s' chain' q) (hq : Knows u s chain q) :
    phase s' q = phase s q := by
  have hdata (a : Nat) (ha : ∃ v, Owns u s a (some v)) : s'.heap a = s.heap a := by
    obtain ⟨v, hv⟩ := ha
    exact (h.owned a _ hv).trans hv.symm
  cases q <;> try rfl
  case waitCompare => simp only [QueueLinear.phase, h.head trivial]
  case lastCompare => simp only [QueueLinear.phase, h.head trivial]
  case popUnlock => simp only [QueueLinear.phase, hdata _ hq]
  case popTake => simp only [QueueLinear.phase, hdata _ hq]

def inFlight : Pc T → List T
  | .pushFill _ v _ | .pushLink _ v _ | .pushAdvance _ v _ => [v]
  | _ => []

theorem inFlight_eq_nil (h : ¬HoldsTail p) : inFlight p = [] := by
  cases p <;> first | rfl | exact absurd trivial h

def Balanced (s : Shared T) (flight items : List T) : Prop :=
  s.popped ++ items.map some = s.queued.map (fun x => some x.2) ++ flight.map some

/-- The state of the sequential queue that the threads have brought about. -/
structure Represents (c : QueueConfig T) (a : Contents T) : Prop where
  reachable : Reachable c
  closed : a.closed = c.shared.closed
  balance : ∃ flight, Balanced c.shared flight a.items ∧
    (c.shared.tailMutex = none → flight = []) ∧
    ∀ t, HoldsTail (c.pc t) → flight = inFlight (c.pc t)

variable {a b : Contents T}

theorem Represents.apart (h : Represents c a) (hm : ClientMove t c.shared (c.pc t) s p)
    (hpc : ¬HoldsTail (c.pc t)) (hp : ¬HoldsTail p) (hclosed : b.closed = s.closed)
    (hbalance : ∀ flight, Balanced c.shared flight a.items → Balanced s flight b.items) :
    Represents (c.after t s p) b := by
  obtain ⟨flight, hb, hnone, hheld⟩ := h.balance
  have hmutex : s.tailMutex = c.shared.tailMutex := by
    obtain ⟨hsame, -⟩ | ⟨-, -, hh⟩ | ⟨hh, -, -⟩ := client_tailMutex hm
    · exact hsame
    · exact absurd hh hp
    · exact absurd hh hpc
  refine ⟨h.reachable.next t hm, hclosed, flight, hbalance flight hb, ?_, ?_⟩
  · intro hs
    exact hnone (hmutex ▸ hs)
  · exact after_forall (P := fun _ q => HoldsTail q → flight = inFlight q) c s
      (fun hh => absurd hh hp) fun u _ => hheld u

theorem Represents.tail (h : Represents c a) (hm : ClientMove t c.shared (c.pc t) s p)
    (hat : HoldsTail (c.pc t) ∨ c.shared.tailMutex = none) (hclosed : b.closed = s.closed)
    (hbalance : Balanced c.shared (inFlight (c.pc t)) a.items →
      Balanced s (inFlight p) b.items) : Represents (c.after t s p) b := by
  obtain ⟨flight, hb, hnone, hheld⟩ := h.balance
  have hlock := reachable_locked h.reachable
  have hflight : flight = inFlight (c.pc t) := by
    by_cases hh : HoldsTail (c.pc t)
    · exact hheld t hh
    · rw [inFlight_eq_nil hh]
      exact hnone (hat.resolve_left hh)
  have hnext := h.reachable.next t hm
  have hown := (reachable_locked hnext t).2
  rw [after_shared, after_pc_self] at hown
  refine ⟨hnext, hclosed, inFlight p, hbalance (hflight ▸ hb), ?_, ?_⟩
  · intro hs
    apply inFlight_eq_nil
    intro hh
    rw [after_shared, hown.mpr hh] at hs
    cases hs
  · refine after_forall (P := fun _ q => HoldsTail q → inFlight p = inFlight q) c s (fun _ => rfl)
      fun u hu hh => absurd hh ?_
    obtain hh | hfree := hat
    · exact hlock.tail_exclusive ((hlock t).2.mpr hh) hu
    · intro hh
      rw [(hlock u).2.mpr hh] at hfree
      cases hfree

section Effects

theorem Balanced.push {items : List T} (h : Balanced s [] items) (v : T) :
    Balanced s [v] (items ++ [v]) := by
  rw [Balanced, List.map_append, ← List.append_assoc, h]
  simp

theorem Balanced.link {items : List T} {v : T} {i : PushId} (h : Balanced s [v] items)
    (hpopped : s'.popped = s.popped) (hqueued : s'.queued = s.queued ++ [(i, v)]) :
    Balanced s' [] items := by
  rw [Balanced, hpopped, h, hqueued]
  simp

theorem Balanced.pop {items flight : List T} {v : T} (h : Balanced s flight (v :: items))
    (hpopped : s'.popped = s.popped ++ [some v]) (hqueued : s'.queued = s.queued) :
    Balanced s' flight items := by
  rw [Balanced, hpopped, hqueued, ← h]
  simp

theorem Represents.still (h : Represents c a) (hm : ClientMove t c.shared (c.pc t) s p)
    (hpc : ¬HoldsTail (c.pc t)) (hp : ¬HoldsTail p) (hclosed : s.closed = c.shared.closed)
    (hqueued : s.queued = c.shared.queued) (hpopped : s.popped = c.shared.popped) :
    Represents (c.after t s p) a := by
  apply h.apart hm hpc hp (h.closed.trans hclosed.symm)
  intro flight hb
  rwa [Balanced, hqueued, hpopped]

theorem Represents.stillTail (h : Represents c a) (hm : ClientMove t c.shared (c.pc t) s p)
    (hat : HoldsTail (c.pc t) ∨ c.shared.tailMutex = none)
    (hflight : inFlight p = inFlight (c.pc t)) (hclosed : s.closed = c.shared.closed)
    (hqueued : s.queued = c.shared.queued) (hpopped : s.popped = c.shared.popped) :
    Represents (c.after t s p) a := by
  apply h.tail hm hat (h.closed.trans hclosed.symm)
  intro hb
  rwa [Balanced, hqueued, hpopped, hflight]

theorem Balanced.items_eq {flight items : List T} (h : Balanced s flight items)
    (hchain : Chained s chain) : items = chain.map Prod.snd ++ flight := by
  have hboth : s.popped ++ items.map some = s.popped ++ (chain.map Prod.snd ++ flight).map some := by
    rw [h, ← hchain.balance, List.map_append, List.map_map, List.append_assoc]
    rfl
  have hitems := List.append_cancel_left hboth
  exact List.map_injective_iff.mpr (fun _ _ => Option.some.inj) hitems

theorem Represents.items_nil (h : Represents c a) (hchain : Chained c.shared chain)
    (hmutex : c.shared.tailMutex = none) (hhead : c.shared.head = some c.shared.tail) :
    a.items = [] := by
  obtain ⟨flight, hb, hnone, -⟩ := h.balance
  rw [hb.items_eq hchain, hnone hmutex, hchain.nil_iff.mpr hhead]
  rfl

theorem Represents.items_cons (h : Represents c a) {x : Nat × T} {rest : List (Nat × T)}
    (hchain : Chained c.shared (x :: rest)) : ∃ items, a.items = x.2 :: items := by
  obtain ⟨flight, hb, -⟩ := h.balance
  exact ⟨_, hb.items_eq hchain⟩

end Effects

/-- What a step of a member function is to the sequential queue: nothing, or the
instant at which the call takes effect. -/
theorem move_atomic (h : Represents c a) (hm : Move t c.shared (c.pc t) s p) :
    (phase s p = phase c.shared (c.pc t) ∧ Represents (c.after t s p) a) ∨
      ∃ b, Atomic Sequential t a (phase c.shared (c.pc t)) none b (phase s p) ∧
        Represents (c.after t s p) b := by
  obtain ⟨chain, hg, hl⟩ := reachable_chained h.reachable
  obtain ⟨isSealed, -, hsees⟩ := reachable_sealed h.reachable
  have hknows := hl t
  have hsee := hsees t
  have happart {b} := h.apart (b := b) (.move hm)
  have htail {b} := h.tail (b := b) (.move hm)
  have hstill := h.still (.move hm)
  have hstillTail := h.stillTail (.move hm)
  have hclosed := h.closed
  obtain ⟨items, closed⟩ := a
  subst hclosed
  generalize c.pc t = q at hm hknows hsee happart htail hstill hstillTail
  cases hm with
  | @checkClosed i v hc =>
      exact Or.inr ⟨_, .effect (hc ▸ .refuse v), hstill id id rfl rfl rfl⟩
  | @allocFails i v => exact Or.inr ⟨_, .effect (.fail v), hstill id id rfl rfl rfl⟩
  | lockTail hfree => exact Or.inl ⟨rfl, hstillTail (Or.inr hfree) rfl rfl rfl rfl⟩
  | @recheckClosed i v b hc =>
      exact Or.inr ⟨_, .effect (hc ▸ .refuse v), hstillTail (Or.inl trivial) rfl rfl rfl rfl⟩
  | @recheckOpen i v b hc =>
      refine Or.inr ⟨⟨items ++ [v], c.shared.closed⟩, .effect ?_, htail (Or.inl trivial) rfl ?_⟩
      · rw [hc]
        exact .push v
      · exact fun hb => hb.push v
  | advance =>
      exact Or.inl ⟨rfl, htail (Or.inl trivial) rfl fun hb => hb.link rfl rfl⟩
  | fill | link | unlockTail | unwind =>
      exact Or.inl ⟨rfl, hstillTail (Or.inl trivial) rfl rfl rfl rfl⟩
  | @waitTail k x hfree =>
      have hnext := hstill id id rfl rfl rfl
      by_cases hlate : x = true ∧ c.shared.head = some c.shared.tail
      -- The tail is read under both mutexes: nothing is in the queue, nor on its way into it.
      · have hnil : items = [] := h.items_nil hg hfree hlate.2
        subst hnil
        refine Or.inr ⟨_, ?_, hnext⟩
        rw [show phase c.shared (.waitCompare k x c.shared.tail) = .answered .missed from if_pos hlate]
        apply Atomic.effect
        apply Sequential.miss
        rintro rfl
        cases hsee hlate.1
      · refine Or.inl ⟨?_, hnext⟩
        exact if_neg hlate
  | @waitElement k x b hne =>
      exact Or.inl ⟨(if_neg fun hlate => hne hlate.2).symm, hstill id id rfl rfl rfl⟩
  | waitEmpty hempty =>
      refine Or.inl ⟨?_, hstill id id rfl rfl rfl⟩
      simp [phase]
  | waitLate hempty => exact Or.inl ⟨(if_pos ⟨rfl, hempty⟩).symm, hstill id id rfl rfl rfl⟩
  | @lastTail k r hfree =>
      have hnext := hstill id id rfl rfl rfl
      by_cases hempty : c.shared.head = some c.shared.tail
      · have hnil : items = [] := h.items_nil hg hfree hempty
        subst hnil
        refine Or.inr ⟨_, ?_, hnext⟩
        rw [show phase c.shared (.lastCompare k r c.shared.tail) = .answered .missed from if_pos hempty]
        apply Atomic.effect
        apply Sequential.miss
        rintro rfl
        cases r with
        | attempt => cases hsee.2 rfl
        | sawClosed => exact hsee.1 rfl
        | sawElement => exact absurd (hg.nil_iff.mpr hempty) (hknows rfl)
      · refine Or.inl ⟨?_, hnext⟩
        exact if_neg hempty
  | lastElement hne => exact Or.inl ⟨(if_neg hne).symm, hstill id id rfl rfl rfl⟩
  | lastEmpty _ hempty => exact Or.inl ⟨(if_pos hempty).symm, hstill id id rfl rfl rfl⟩
  | lastDrained hempty => exact Or.inl ⟨(if_pos hempty).symm, hstill id id rfl rfl rfl⟩
  | @popHead k b hhead =>
      obtain ⟨⟨b', v⟩, rest, rfl⟩ := List.exists_cons_of_ne_nil hknows
      obtain ⟨hb, n, hn, -⟩ := hg.segment
      cases hhead.symm.trans hb
      have hbn := cell_eq hn
      obtain ⟨items', hitems⟩ := h.items_cons hg
      subst hitems
      refine Or.inr ⟨⟨items', c.shared.closed⟩, ?_, happart id id rfl fun flight hb => hb.pop ?_ rfl⟩
      · have hphase : phase { c.shared.modifyNode b ({ · with next := none, owner := some t }) with
            head := (c.shared.heap b).bind Node.next,
            popped := c.shared.popped ++ [(c.shared.heap b).bind Node.data] } (.popUnlock k b) =
            .answered (.got v) := by
          simp [phase, Shared.modifyNode, hbn]
        rw [hphase]
        exact .effect (.pop k)
      · simp [hbn]
  | @take k b n v hn hv =>
      refine Or.inl ⟨?_, hstill id id rfl rfl rfl⟩
      simp [phase, hn, hv]
  | storeClosed =>
      exact Or.inr ⟨⟨items, true⟩, .effect .close, happart id id rfl fun _ hb => hb⟩
  | checkOpen | alloc | notifyNone | notifyOne | free | lockTry | lockWait | testClosed | testOpen
  | sleep | wake | spurious | timeout | relock | unlockPopped | unlockMissed | notifyAll =>
      exact Or.inl ⟨rfl, hstill id id rfl rfl rfl⟩

theorem phase_of_replied {r : Reply T} (hr : replied q = some r) :
    phase s q = .answered r ∧ ¬HoldsTail q := by
  cases q <;> first | exact ⟨congrArg _ (Option.some.inj hr), id⟩ | cases hr

theorem event_atomic {e : Option (QueueEvent T)} (h : Represents c a)
    (he : ClientEvent t c.shared (c.pc t) e s p) :
    (∀ u, u ≠ t → phase s (c.pc u) = phase c.shared (c.pc u)) ∧
      ((e = none ∧ phase s p = phase c.shared (c.pc t) ∧ Represents (c.after t s p) a) ∨
        ∃ b, Atomic Sequential t a (phase c.shared (c.pc t)) e b (phase s p) ∧
          Represents (c.after t s p) b) := by
  obtain ⟨chain, hg, hl⟩ := reachable_chained h.reachable
  obtain ⟨chain', ⟨-, hframe⟩, -⟩ := client_keeps (reachable_locked h.reachable) hg hl he.move
  refine ⟨fun u hu => Frame.phase (hframe u hu) (hl u), ?_⟩
  have hstill := h.still he.move
  generalize hp : c.pc t = q at he hstill
  cases he with
  | inside hm =>
      subst q
      obtain ⟨hphase, hr⟩ | hatomic := move_atomic h hm
      · exact Or.inl ⟨rfl, hphase, hr⟩
      · exact Or.inr hatomic
  | call hm hop =>
      cases hm with
      | move hm => cases hm
      | push | pop | close =>
          cases hop
          exact Or.inr ⟨a, .call _, hstill id id rfl rfl rfl⟩
      | finish hdone => exact absurd hdone id
  | @ret _ r hr =>
      obtain ⟨hphase, hheld⟩ := phase_of_replied (s := c.shared) hr
      rw [hphase]
      exact Or.inr ⟨a, .ret r, hstill hheld id rfl rfl rfl⟩

theorem represents_initial : Represents (initial : QueueConfig T) {} :=
  ⟨.refl, rfl, [], rfl, fun _ => rfl, fun _ hh => absurd hh id⟩

theorem history_atomic {H : List (QueueEvent T)} (h : Trace ClientEvent initial H c) :
    ∃ d, Trace (Atomic Sequential) (atRest {}) H d ∧ Represents c d.shared := by
  obtain ⟨d, htrace, hr, -⟩ := h.atomic Represents phase
    (fun _ _ _ _ _ _ hr he => event_atomic hr he) represents_initial fun _ => rfl
  exact ⟨d, htrace, hr⟩

theorem reachable_traced (h : Reachable c) : ∃ H, Trace ClientEvent initial H c :=
  Linearizability.Steps.trace (fun _ _ _ _ _ hm => ClientMove.visible hm) h

/-- Every history can be put in a sequential order that respects real time, and
what that order leaves is what the memory holds. -/
theorem history_linearizable {H : List (QueueEvent T)} (h : Trace ClientEvent initial H c) :
    ∃ S b, Linearization Sequential {} H S ∧ Legal Sequential {} S b ∧
      b.closed = c.shared.closed ∧ (c.shared.tailMutex = none →
        ∃ chain, Segments.Segment (cell c.shared.heap) c.shared.head chain c.shared.tail ∧
          b.items = chain.map Prod.snd) := by
  obtain ⟨d, htrace, hr⟩ := history_atomic h
  obtain ⟨S, hlegal, hlinear⟩ := trace_linearization htrace
  obtain ⟨chain, hg, -⟩ := reachable_chained hr.reachable
  obtain ⟨flight, hb, hnone, -⟩ := hr.balance
  refine ⟨S, d.shared, hlinear, hlegal, hr.closed, fun hfree => ⟨chain, hg.segment, ?_⟩⟩
  rw [hb.items_eq hg, hnone hfree, List.append_nil]

theorem history_linearizable_overlapping : ∃ c : QueueConfig Nat,
    c.shared.popped = [some 7] ∧ ∃ S b, Linearization Sequential {}
      [.call 1 (.push 7), .call 2 (.pop .tryPop), .ret 2 (.got 7), .ret 1 .pushed] S ∧
      Legal Sequential {} S b ∧ b.closed = c.shared.closed ∧ (c.shared.tailMutex = none →
        ∃ chain, Segments.Segment (cell c.shared.heap) c.shared.head chain c.shared.tail ∧
          b.items = chain.map Prod.snd) := by
  have h₀ : Trace ClientEvent (initial : QueueConfig Nat) [] initial := .refl
  have hcalled := (h₀.next (t := 1) (.call (.push 7) rfl)).next (t := 2) (.call (.pop .tryPop) rfl)
  have hlocked := ((hcalled.next (t := 1) (.inside (.checkOpen rfl))).next (t := 1)
    (.inside (.alloc 1 rfl))).next (t := 1) (.inside (.lockTail rfl))
  have hlinked := (((hlocked.next (t := 1) (.inside (.recheckOpen rfl))).next (t := 1)
    (.inside .fill)).next (t := 1) (.inside .link)).next (t := 1) (.inside .advance)
  have hread := ((hlinked.next (t := 1) (.inside .unlockTail)).next (t := 2)
    (.inside (.lockTry rfl))).next (t := 2) (.inside (.lastTail rfl))
  have hpopped := ((hread.next (t := 2) (.inside (.lastElement nofun))).next (t := 2)
    (.inside (.popHead rfl))).next (t := 2) (.inside .unlockPopped)
  have htaken := (hpopped.next (t := 2) (.inside (.take rfl rfl))).next (t := 2) (.ret rfl)
  have hdone := (htaken.next (t := 1) (.inside (.notifyNone fun _ => rfl))).next (t := 1) (.ret rfl)
  exact ⟨_, rfl, history_linearizable hdone⟩

abbrev QueueEntry (T : Type) := Entry Nat (Op T) (Reply T)

theorem sequential_closed {S : List (QueueEntry T)} (h : Legal Sequential a S b)
    (ha : a.closed = true) :
    b.closed = true ∧ ∀ x ∈ S, ∀ v, x.op = .push v → x.reply = .refused ∨ x.reply = .failed := by
  refine h.invariant (fun a => a.closed = true)
    (fun op r => ∀ v, op = .push v → r = .refused ∨ r = .failed) ?_ ha
  intro a op r b ha hstep
  cases hstep with
  | push => cases ha
  | refuse => exact ⟨ha, fun _ _ => Or.inl rfl⟩
  | fail => exact ⟨ha, fun _ _ => Or.inr rfl⟩
  | pop | miss => exact ⟨ha, nofun⟩
  | close => exact ⟨rfl, nofun⟩

theorem closed_of_entry {S : List (QueueEntry T)} (h : Legal Sequential a S b)
    (hx : ∃ x ∈ S, x.reply = .closed) : b.closed = true := by
  induction h with
  | nil =>
      obtain ⟨x, hx, -⟩ := hx
      cases hx
  | @snoc S b' b x h hstep ih =>
      obtain ⟨y, hy, hr⟩ := hx
      obtain hy | hy := List.mem_append.mp hy
      · exact (sequential_closed (Legal.nil.snoc x hstep) (ih ⟨y, hy, hr⟩)).1
      · cases List.mem_singleton.mp hy
        obtain ⟨u, op, r⟩ := x
        cases hr
        cases hstep
        rfl

theorem closed_returned {H : List (QueueEvent T)} (h : Trace ClientEvent initial H c)
    (hr : Reply.closed ∈ rets u H) : c.shared.closed = true := by
  obtain ⟨d, htrace, hd⟩ := history_atomic h
  obtain ⟨S, hlegal, hlinear⟩ := trace_linearization htrace
  obtain ⟨x, hx, hreply⟩ := List.mem_map.mp ((hlinear.explains u).2.subset hr)
  exact hd.closed ▸ closed_of_entry hlegal ⟨x, (List.mem_filter.mp hx).1, hreply⟩

theorem rets_length_le {H : List (QueueEvent T)} (h : Trace ClientEvent initial H c) (t : Nat) :
    (rets t H).length ≤ (calls t H).length := by
  obtain ⟨d, htrace, -⟩ := history_atomic h
  obtain ⟨S, -, hlinear⟩ := trace_linearization htrace
  obtain ⟨hops, hreplies⟩ := hlinear.explains t
  calc (rets t H).length ≤ (replies t S).length := hreplies.length_le
    _ = (ops t S).length := (length_ops t S).symm
    _ ≤ (calls t H).length := hops.length_le

theorem phase_ne_idle (h : p ≠ .idle) : phase s p ≠ .idle := by
  cases p <;> simp only [phase] <;> first | exact absurd rfl h | split <;> nofun | nofun

theorem pending_length {H : List (QueueEvent T)} (h : Trace ClientEvent initial H c)
    (hp : c.pc t ≠ .idle) : (calls t H).length = (rets t H).length + 1 := by
  obtain ⟨d, htrace, -, hphase⟩ := h.atomic Represents phase
    (fun _ _ _ _ _ _ hr he => event_atomic hr he) represents_initial fun _ => rfl
  obtain ⟨S, -, hagree, -⟩ := trace_agrees htrace
  refine (hagree t).pending ?_
  rw [hphase]
  exact phase_ne_idle hp

def Allocates : Pc T → Prop
  | .pushAlloc _ _ | .pushFailed => True
  | _ => False

theorem event_allocates {e : Option (QueueEvent T)} (h : ClientEvent t s p e s' p')
    (hclosed : s.closed = true) (hp : Allocates p') : Allocates p ∧ e = none := by
  cases h with
  | inside hm =>
      cases hm with
      | checkOpen hopen => cases hclosed.symm.trans hopen
      | allocFails => exact ⟨trivial, rfl⟩
      | _ => exact absurd hp id
  | call hm hinvoked => cases p' <;> first | exact absurd hp id | cases hinvoked
  | ret => exact absurd hp id

theorem event_other {e : Option (QueueEvent T)} (h : ClientEvent t s p e s' p') (hu : u ≠ t) :
    calls u e.toList = [] ∧ rets u e.toList = [] := by
  cases h with
  | inside => exact ⟨rfl, rfl⟩
  | call => exact ⟨by simp [calls, Event.op, hu.symm], rfl⟩
  | ret => exact ⟨rfl, by simp [rets, Event.reply, hu.symm]⟩

theorem ret_failed {H H₁ : List (QueueEvent T)} {e : Option (QueueEvent T)}
    (h : ClientEvent t s p e s' p') (halloc : Allocates p → (calls t H).length ≤ (calls t H₁).length)
    (hpending : p ≠ .idle → (calls t H).length = (rets t H).length + 1) {n : Nat}
    (hn : (rets t H).length ≤ n) (hr : (rets t e.toList)[n - (rets t H).length]? = some .failed) :
    n < (calls t H₁).length := by
  cases h with
  | inside | call => cases hr
  | @ret _ r hreply =>
      rw [show rets t (some (Event.ret t r) : Option (QueueEvent T)).toList = [r] by
        simp [rets, Event.reply]] at hr
      obtain ⟨hlast, -⟩ := List.getElem?_eq_some_iff.mp hr
      have hfailed : r = .failed := (List.mem_singleton.mp (List.mem_of_getElem? hr)).symm
      subst hfailed
      have hat : p = .pushFailed := by
        cases p <;> first | rfl | cases hreply
      subst hat
      have hcalls := halloc trivial
      have hlength := hpending fun hidle => by cases hidle
      rw [List.length_singleton] at hlast
      omega

/-- Whoever is out of memory, or may still be, was called in `H₁`. -/
structure FailsIn (H₁ H : List (QueueEvent T)) (c : QueueConfig T) : Prop where
  allocates : ∀ t, Allocates (c.pc t) → (calls t H).length ≤ (calls t H₁).length
  failed : ∀ t n, (rets t H)[n]? = some .failed → n < (calls t H₁).length

theorem event_failsIn {H H₁ : List (QueueEvent T)} {e : Option (QueueEvent T)}
    (htrace : Trace ClientEvent initial H c) (h : ClientEvent t c.shared (c.pc t) e s p)
    (hclosed : c.shared.closed = true) (hfails : FailsIn H₁ H c) :
    FailsIn H₁ (H ++ e.toList) (c.after t s p) := by
  obtain ⟨halloc, hfailed⟩ := hfails
  refine ⟨?_, fun v n hn => ?_⟩
  · apply after_forall (P := fun v q => Allocates q →
      (calls v (H ++ e.toList)).length ≤ (calls v H₁).length) c s
    · intro hp
      obtain ⟨hat, rfl⟩ := event_allocates h hclosed hp
      rw [Option.toList_none, List.append_nil]
      exact halloc t hat
    · intro v hv hp
      rw [calls_append, (event_other h hv).1, List.append_nil]
      exact halloc v hp
  · rw [rets_append] at hn
    by_cases hlt : n < (rets v H).length
    · rw [List.getElem?_append_left hlt] at hn
      exact hfailed v n hn
    · rw [List.getElem?_append_right (Nat.le_of_not_lt hlt)] at hn
      by_cases hv : v = t
      · subst v
        exact ret_failed h (halloc t) (pending_length htrace) (Nat.le_of_not_lt hlt) hn
      · rw [(event_other h hv).2] at hn
        cases hn

theorem failsIn_self {H : List (QueueEvent T)} (h : Trace ClientEvent initial H c) : FailsIn H H c := by
  refine ⟨fun _ _ => Nat.le_refl _, fun v n hn => ?_⟩
  exact Nat.lt_of_lt_of_le (List.getElem?_eq_some_iff.mp hn).1 (rets_length_le h v)

/-- What fails was called before `close` returned. -/
theorem failed_earlier {H : List (QueueEvent T)} (h : Trace ClientEvent initial H c)
    {H₁ : List (QueueEvent T)} (hpre : H₁ <+: H) (hclosed : Reply.closed ∈ rets u H₁) :
    FailsIn H₁ H c := by
  induction h with
  | refl =>
      rw [List.prefix_nil.mp hpre] at hclosed
      cases hclosed
  | @next H d t e s p htrace hm ih =>
      obtain hpre' | rfl := prefix_append_toList hpre
      · refine event_failsIn htrace hm (closed_returned htrace (u := u) ?_) (ih hpre')
        obtain ⟨K, rfl⟩ := hpre'
        rw [rets_append]
        exact List.mem_append_left _ hclosed
      · exact failsIn_self (htrace.next hm)

/-- Once a call of `close` has returned, every push that is called is refused,
whatever pushes and consumers are under way. -/
theorem later_push_refused {H₁ H₂ : List (QueueEvent T)}
    (h : Trace ClientEvent initial (H₁ ++ H₂) c) (hclosed : Reply.closed ∈ rets u H₁) {n : Nat}
    {v : T} {r : Reply T} (hn : (calls t H₁).length ≤ n)
    (hcall : (calls t (H₁ ++ H₂))[n]? = some (.push v))
    (hret : (rets t (H₁ ++ H₂))[n]? = some r) : r = .refused := by
  obtain ⟨d, htrace, -⟩ := history_atomic h
  obtain ⟨S, -, hlinear⟩ := trace_linearization htrace
  obtain ⟨S₁, S₂, rfl, hexplains, hlater⟩ := hlinear.later
  obtain ⟨b, hlegal⟩ := hlinear.legal
  obtain ⟨b₁, hfirst, hrest⟩ := hlegal.split
  have hb : b₁.closed = true := by
    apply closed_of_entry hfirst
    obtain ⟨x, hx, hr⟩ := List.mem_map.mp ((hexplains u).2.subset hclosed)
    exact ⟨x, (List.mem_filter.mp hx).1, hr⟩
  obtain ⟨x, hx, hop, rfl⟩ := hlater t n r hn hret
  rw [hcall] at hop
  refine ((sequential_closed hrest hb).2 x hx v (Option.some.inj hop).symm).resolve_right fun hfailed => ?_
  have hearlier := (failed_earlier h (List.prefix_append _ _) hclosed).failed t n (hfailed ▸ hret)
  exact absurd hn (Nat.not_le_of_lt hearlier)

theorem later_push_refused_closed : ∃ r : Reply Nat,
    (rets 1 ([.call 2 .close, .ret 2 .closed, .call 1 (.push 7), .ret 1 .refused] :
      List (QueueEvent Nat)))[0]? = some r ∧ r = .refused := by
  have h₀ : Trace ClientEvent (initial : QueueConfig Nat) [] initial := .refl
  have hclosed := (((h₀.next (t := 2) (.call .close rfl)).next (t := 2) (.inside .storeClosed)).next
    (t := 2) (.inside .notifyAll)).next (t := 2) (.ret rfl)
  have hpush := ((hclosed.next (t := 1) (.call (.push 7) rfl)).next (t := 1)
    (.inside (.checkClosed rfl))).next (t := 1) (.ret rfl)
  have hmem : Reply.closed ∈
      rets 2 ([.call 2 .close, .ret 2 .closed] : List (QueueEvent Nat)) :=
    List.mem_singleton_self _
  have hhistory : Trace ClientEvent initial ([.call 2 .close, .ret 2 .closed] ++
      [.call 1 (.push 7), .ret 1 .refused]) _ := hpush
  exact ⟨_, rfl, later_push_refused (t := 1) (n := 0) hhistory hmem (Nat.zero_le _) rfl rfl⟩

end Lzhlib.QueueLinear
