import Lzhlib.Interleaving

namespace Lzhlib.ThreadQueue

open Interleaving

variable {T : Type}

/-- `owner` is no member of the source: it names the thread that alone can
reach the node, and is empty while the queue holds it. -/
structure Node (T : Type) where
  data : Option T := none
  next : Option Nat := none
  owner : Option Nat := none

abbrev PushId := Nat × Nat

/-- The members of the queue, and after them the history of the run. -/
structure Shared (T : Type) where
  heap : Nat → Option (Node T)
  head : Option Nat
  tail : Nat
  headMutex : Option Nat := none
  tailMutex : Option Nat := none
  closed : Bool := false
  -- The threads blocked in `has_new_element`.
  sleeping : Nat → Bool := fun _ => false
  calls : Nat → Nat := fun _ => 0
  -- What the pushes appended, in the order of `tail_mutex`.
  queued : List (PushId × T) := []
  returned : List PushId := []
  threw : List PushId := []
  -- The data of the nodes that `pop_head` took, in the order of `head_mutex`.
  popped : List (Option T) := []
  -- A waiting consumer saw `closed`, and then the queue empty.
  drained : Bool := false
  -- Some `wait_and_pop` returned without a value.
  ended : Bool := false
  notifiedAll : Bool := false

def Shared.fresh : Shared T where
  heap := Function.update (fun _ => none) 0 (some {})
  head := some 0
  tail := 0

def Shared.modifyNode (s : Shared T) (a : Nat) (f : Node T → Node T) : Shared T :=
  { s with heap := Function.update s.heap a ((s.heap a).map f) }

inductive Caller
  | tryPop
  | waitAndPop
  | waitForAndPop
  deriving DecidableEq

/-- Why a consumer asks `is_empty` for the last time. -/
inductive Reason
  | attempt
  | sawClosed
  | sawElement
  deriving DecidableEq

inductive Pc (T : Type)
  | idle
  | pushCheck (i : Nat) (v : T)
  | pushAlloc (i : Nat) (v : T)
  | pushLock (i : Nat) (v : T) (a : Nat)
  | pushRecheck (i : Nat) (v : T) (a : Nat)
  | pushFill (i : Nat) (v : T) (a : Nat)
  | pushLink (i : Nat) (v : T) (a : Nat)
  | pushAdvance (i : Nat) (v : T) (a : Nat)
  | pushUnlock (i : Nat)
  | pushNotify (i : Nat)
  | pushReturned (i : Nat)
  | pushUnwind (i a : Nat)
  | pushFree (i a : Nat)
  | pushThrew (i : Nat)
  | pushFailed
  | popLock (k : Caller)
  | waitTest (k : Caller) (late : Bool)
  | waitTail (k : Caller) (late : Bool)
  | waitCompare (k : Caller) (late : Bool) (a : Nat)
  | toSleep (k : Caller)
  | asleep (k : Caller)
  | awake (k : Caller) (late : Bool)
  | lastTail (k : Caller) (r : Reason)
  | lastCompare (k : Caller) (r : Reason) (a : Nat)
  | popHead (k : Caller)
  | popUnlock (k : Caller) (a : Nat)
  | popTake (k : Caller) (a : Nat)
  | popReturned (k : Caller) (v : T)
  | missUnlock (k : Caller)
  | missReturned (k : Caller)
  | closeStore
  | closeNotify
  | closeReturned

/-- One step of a thread inside a member function of the queue. -/
inductive Move (t : Nat) : Shared T → Pc T → Shared T → Pc T → Prop
  | checkClosed {s i v} (h : s.closed = true) :
      Move t s (.pushCheck i v) { s with threw := (t, i) :: s.threw } (.pushThrew i)
  | checkOpen {s i v} (h : s.closed = false) : Move t s (.pushCheck i v) s (.pushAlloc i v)
  -- make_unique<node>() takes any address that is free, or throws bad_alloc.
  | alloc {s i v} (a : Nat) (h : s.heap a = none) : Move t s (.pushAlloc i v)
      { s with heap := Function.update s.heap a (some { owner := some t }) } (.pushLock i v a)
  | allocFails {s i v} : Move t s (.pushAlloc i v) s .pushFailed
  | lockTail {s i v a} (h : s.tailMutex = none) :
      Move t s (.pushLock i v a) { s with tailMutex := some t } (.pushRecheck i v a)
  | recheckClosed {s i v a} (h : s.closed = true) :
      Move t s (.pushRecheck i v a) s (.pushUnwind i a)
  | recheckOpen {s i v a} (h : s.closed = false) :
      Move t s (.pushRecheck i v a) s (.pushFill i v a)
  | fill {s i v a} : Move t s (.pushFill i v a)
      (s.modifyNode s.tail ({ · with data := some v })) (.pushLink i v a)
  | link {s i v a} : Move t s (.pushLink i v a)
      (s.modifyNode s.tail ({ · with next := some a })) (.pushAdvance i v a)
  | advance {s i v a} : Move t s (.pushAdvance i v a)
      { s.modifyNode a ({ · with owner := none }) with
        tail := a, queued := s.queued ++ [((t, i), v)] } (.pushUnlock i)
  | unlockTail {s i} : Move t s (.pushUnlock i) { s with tailMutex := none } (.pushNotify i)
  | notifyNone {s i} (h : ∀ u, s.sleeping u = false) :
      Move t s (.pushNotify i) { s with returned := (t, i) :: s.returned } (.pushReturned i)
  | notifyOne {s i} (u : Nat) (h : s.sleeping u = true) : Move t s (.pushNotify i)
      { s with sleeping := Function.update s.sleeping u false, returned := (t, i) :: s.returned }
      (.pushReturned i)
  | unwind {s i a} : Move t s (.pushUnwind i a) { s with tailMutex := none } (.pushFree i a)
  | free {s i a} : Move t s (.pushFree i a)
      { s with heap := Function.update s.heap a none, threw := (t, i) :: s.threw } (.pushThrew i)
  | lockTry {s} (h : s.headMutex = none) : Move t s (.popLock .tryPop)
      { s with headMutex := some t } (.lastTail .tryPop .attempt)
  | lockWait {s k} (hk : k ≠ .tryPop) (h : s.headMutex = none) :
      Move t s (.popLock k) { s with headMutex := some t } (.waitTest k false)
  | testClosed {s k x} (h : s.closed = true) :
      Move t s (.waitTest k x) s (.lastTail k .sawClosed)
  | testOpen {s k x} (h : s.closed = false) : Move t s (.waitTest k x) s (.waitTail k x)
  | waitTail {s k x} (h : s.tailMutex = none) :
      Move t s (.waitTail k x) s (.waitCompare k x s.tail)
  | waitElement {s k x a} (h : s.head ≠ some a) :
      Move t s (.waitCompare k x a) s (.lastTail k .sawElement)
  | waitEmpty {s k a} (h : s.head = some a) : Move t s (.waitCompare k false a) s (.toSleep k)
  | waitLate {s k a} (h : s.head = some a) : Move t s (.waitCompare k true a) s (.missUnlock k)
  -- Going to sleep and giving up head_mutex are one step.
  | sleep {s k} : Move t s (.toSleep k)
      { s with headMutex := none, sleeping := Function.update s.sleeping t true } (.asleep k)
  | wake {s k} (h : s.sleeping t = false) : Move t s (.asleep k) s (.awake k false)
  | spurious {s k} : Move t s (.asleep k)
      { s with sleeping := Function.update s.sleeping t false } (.awake k false)
  | timeout {s} : Move t s (.asleep .waitForAndPop)
      { s with sleeping := Function.update s.sleeping t false } (.awake .waitForAndPop true)
  | relock {s k x} (h : s.headMutex = none) :
      Move t s (.awake k x) { s with headMutex := some t } (.waitTest k x)
  | lastTail {s k r} (h : s.tailMutex = none) :
      Move t s (.lastTail k r) s (.lastCompare k r s.tail)
  | lastElement {s k r a} (h : s.head ≠ some a) : Move t s (.lastCompare k r a) s (.popHead k)
  | lastEmpty {s k r a} (hr : r ≠ .sawClosed) (h : s.head = some a) :
      Move t s (.lastCompare k r a) s (.missUnlock k)
  | lastDrained {s k a} (h : s.head = some a) :
      Move t s (.lastCompare k .sawClosed a) { s with drained := true } (.missUnlock k)
  | popHead {s k a} (h : s.head = some a) : Move t s (.popHead k)
      { s.modifyNode a ({ · with next := none, owner := some t }) with
        head := (s.heap a).bind Node.next, popped := s.popped ++ [(s.heap a).bind Node.data] }
      (.popUnlock k a)
  | unlockPopped {s k a} : Move t s (.popUnlock k a) { s with headMutex := none } (.popTake k a)
  | take {s k a n v} (h : s.heap a = some n) (hv : n.data = some v) : Move t s (.popTake k a)
      { s with heap := Function.update s.heap a none } (.popReturned k v)
  | unlockMissed {s k} : Move t s (.missUnlock k)
      { s with headMutex := none, ended := s.ended || k = .waitAndPop } (.missReturned k)
  | storeClosed {s} : Move t s .closeStore { s with closed := true } .closeNotify
  | notifyAll {s} : Move t s .closeNotify
      { s with sleeping := fun _ => false, notifiedAll := true } .closeReturned

def Pc.Finished : Pc T → Prop
  | .pushReturned _ | .pushThrew _ | .pushFailed | .popReturned _ _ | .missReturned _
  | .closeReturned => True
  | _ => False

/-- Any thread may call any member function, as often as it likes. -/
inductive ClientMove (t : Nat) : Shared T → Pc T → Shared T → Pc T → Prop
  | move {s p s' p'} (h : Move t s p s' p') : ClientMove t s p s' p'
  | push {s} (v : T) : ClientMove t s .idle
      { s with calls := Function.update s.calls t (s.calls t + 1) } (.pushCheck (s.calls t) v)
  | pop {s} (k : Caller) : ClientMove t s .idle s (.popLock k)
  | close {s} : ClientMove t s .idle s .closeStore
  | finish {s p} (h : p.Finished) : ClientMove t s p s .idle

abbrev QueueConfig (T : Type) := Config Nat (Shared T) (Pc T)

def initial : QueueConfig T := ⟨.fresh, fun _ => .idle⟩

abbrev Reachable (c : QueueConfig T) : Prop := Steps ClientMove initial c

end Lzhlib.ThreadQueue
