import Lzhlib.QueueWakeups

namespace Lzhlib.PushWakeups

open Interleaving ThreadQueue QueueLocks QueueChain QueueWakeups

variable {T : Type} {c : QueueConfig T} {t u w : Nat} {s s' : Shared T} {p p' q : Pc T}

/-- The consumer has found the queue empty and goes to sleep, whatever is pushed meanwhile. -/
def Decided (s : Shared T) : Pc T → Prop
  | .waitCompare _ false a => s.head = some a
  | .toSleep _ => True
  | _ => False

def Waiting (t : Nat) (s : Shared T) (p : Pc T) : Prop :=
  (∃ k, p = .asleep k ∧ s.sleeping t = true) ∨ Decided s p

def Serves (t : Nat) (s : Shared T) : Pc T → Prop
  | .pushUnlock _ | .pushNotify _ | .awake _ _ | .waitTest _ _ | .waitTail _ _ => True
  | .asleep _ => s.sleeping t = false
  | .waitCompare _ _ a => s.head ≠ some a
  | .lastTail _ r | .lastCompare _ r _ => r = .sawElement
  | .popHead k => k ≠ .tryPop
  | _ => False

/-- Every element in the queue has a thread of its own that serves it. -/
def Covered (c : QueueConfig T) : Prop :=
  ∃ cover : List Nat, cover.Nodup ∧ (∀ t ∈ cover, Serves t c.shared (c.pc t)) ∧
    c.shared.queued.length ≤ c.shared.popped.length + cover.length

/-- The queue is open and not empty, every push has returned, and those who
wait for an element are asleep without a notification. -/
structure Stranded (c : QueueConfig T) : Prop where
  isOpen : c.shared.closed = false
  nonempty : c.shared.head ≠ some c.shared.tail
  pushed : ∀ t, call (c.pc t) = .push → (c.pc t).Finished
  sleeper : ∃ t, c.pc t = .asleep .waitAndPop ∧ c.shared.sleeping t = true
  asleep : ∀ t k, call (c.pc t) = .pop k → k ≠ .tryPop → ¬(c.pc t).Finished →
    c.pc t = .asleep k ∧ c.shared.sleeping t = true

/-- A push may find nobody to notify only when no consumer has decided to sleep. -/
def Timely (c : QueueConfig T) (t : Nat) : Prop :=
  (∃ i, c.pc t = .pushNotify i) → (∀ u, c.shared.sleeping u = false) → ∀ w, ¬Decided c.shared (c.pc w)

section Sleeping

theorem woken_true {f : Nat → Bool} {v : Nat} (h : Function.update f v false u = true) :
    u ≠ v ∧ f u = true := by
  by_cases huv : u = v
  · rw [huv, Function.update_self] at h
    cases h
  · rw [Function.update_of_ne huv] at h
    exact ⟨huv, h⟩

theorem client_sleeping_mono (hm : ClientMove t s p s' p') (hu : u ≠ t) (h : s'.sleeping u = true) :
    s.sleeping u = true := by
  cases hm with
  | push | pop | close | finish => exact h
  | move hm =>
      cases hm
      case notifyOne => exact (woken_true h).2
      case sleep => exact (Function.update_of_ne hu _ _).symm.trans h
      case spurious => exact (woken_true h).2
      case timeout => exact (woken_true h).2
      case notifyAll => cases h
      all_goals exact h

theorem client_sleeping_own (hm : ClientMove t s p s' p')
    (hp : s.sleeping t = true → ∃ k, p = .asleep k) (h : s'.sleeping t = true) :
    ∃ k, p' = .asleep k := by
  cases hm with
  | push | pop | close =>
      obtain ⟨k, hk⟩ := hp h
      cases hk
  | finish hf =>
      obtain ⟨k, rfl⟩ := hp h
      exact absurd hf id
  | move hm =>
      cases hm
      case sleep k => exact ⟨k, rfl⟩
      case notifyOne =>
          obtain ⟨k, hk⟩ := hp (woken_true h).2
          cases hk
      case wake hs => cases hs.symm.trans h
      case spurious => exact absurd rfl (woken_true h).1
      case timeout => exact absurd rfl (woken_true h).1
      case notifyAll => cases h
      all_goals
        obtain ⟨k, hk⟩ := hp h
        cases hk

theorem asleep_initial (t : Nat) (h : (initial : QueueConfig T).shared.sleeping t = true) :
    ∃ k, (initial : QueueConfig T).pc t = .asleep k := by
  cases h

theorem reachable_asleep (h : Reachable c) (t : Nat) (ht : c.shared.sleeping t = true) :
    ∃ k, c.pc t = .asleep k := by
  refine h.invariant (I := fun c => ∀ t, c.shared.sleeping t = true → ∃ k, c.pc t = .asleep k)
    ?_ asleep_initial t ht
  intro c t s p hc hm
  apply after_forall (P := fun u q => s.sleeping u = true → ∃ k, q = .asleep k) c s
  · exact client_sleeping_own hm (hc t)
  · exact fun u hu hs => hc u (client_sleeping_mono hm hu hs)

def Waits : Pc T → Prop
  | .waitTest k _ | .waitTail k _ | .waitCompare k _ _ | .toSleep k | .asleep k | .awake k _ =>
      k ≠ .tryPop
  | .lastTail k r | .lastCompare k r _ => r = .sawElement → k ≠ .tryPop
  | _ => True

theorem client_waits (hm : ClientMove t s p s' p') (h : Waits p) : Waits p' := by
  cases hm with
  | push | pop | close | finish => trivial
  | move hm =>
      cases hm
      case lockTry => nofun
      case lockWait hk _ => exact hk
      case waitElement => exact fun _ => h
      case testClosed => nofun
      all_goals first | exact h | trivial

theorem reachable_waits (h : Reachable c) (t : Nat) : Waits (c.pc t) :=
  h.threadwise (L := fun _ => Waits) (fun _ _ _ _ _ => client_waits) (fun _ => trivial : ∀ _, Waits .idle) t

end Sleeping

section Accounts

inductive Accounts (t : Nat) (s : Shared T) (p : Pc T) (s' : Shared T) (p' : Pc T) : Prop
  | kept (hq : s'.queued.length = s.queued.length) (hp : s'.popped.length = s.popped.length)
      (hserves : Serves t s p → Serves t s' p') (hwaits : Waiting t s' p' → Waiting t s p)
  | appended (hq : s'.queued.length = s.queued.length + 1)
      (hp : s'.popped.length = s.popped.length) (hnew : ¬Serves t s p) (hserves : Serves t s' p')
      (hwaits : ¬Waiting t s' p')
  | popped (hq : s'.queued.length = s.queued.length)
      (hp : s'.popped.length = s.popped.length + 1) (hwaits : ¬Waiting t s' p')
  | notified (u : Nat) (hpc : ∀ k, p ≠ .asleep k) (hq : s'.queued.length = s.queued.length)
      (hp : s'.popped.length = s.popped.length) (hu : s.sleeping u = true)
      (hu' : s'.sleeping u = false) (hwaits : ¬Waiting t s' p')
  | unheard (hpc : ∃ i, p = .pushNotify i) (hnone : ∀ u, s.sleeping u = false)
      (hwaits : ¬Waiting t s' p')
  | emptied (h : s'.queued.length = s'.popped.length)

theorem not_waiting (h : ∀ k, p ≠ .asleep k) (hd : ¬Decided s p) : ¬Waiting t s p := by
  rintro (⟨k, hk, -⟩ | hdec)
  · exact h k hk
  · exact hd hdec

theorem accounts_idle (hq : s'.queued.length = s.queued.length)
    (hp : s'.popped.length = s.popped.length) (hnew : ¬Serves t s p) (hpc : ∀ k, p' ≠ .asleep k)
    (hd : ¬Decided s' p') : Accounts t s p s' p' :=
  .kept hq hp (fun h => absurd h hnew) fun h => absurd h (not_waiting hpc hd)

theorem accounts_serves (hq : s'.queued.length = s.queued.length)
    (hp : s'.popped.length = s.popped.length) (hserves : Serves t s' p') (hpc : ∀ k, p' ≠ .asleep k)
    (hd : ¬Decided s' p') : Accounts t s p s' p' :=
  .kept hq hp (fun _ => hserves) fun h => absurd h (not_waiting hpc hd)

theorem move_accounts (hc : Reachable c) (hopen : c.shared.closed = false)
    (hm : Move t c.shared (c.pc t) s' p') : Accounts t c.shared (c.pc t) s' p' := by
  obtain ⟨chain, hg, hl⟩ := reachable_chained hc
  have hk := hl t
  have hwaits := reachable_waits hc t
  generalize c.pc t = p at hm hk hwaits
  cases hm with
  | advance =>
      exact .appended (by simp) rfl id trivial (not_waiting nofun id)
  | unlockTail => exact accounts_serves rfl rfl trivial nofun id
  | notifyNone h => exact .unheard ⟨_, rfl⟩ h (not_waiting nofun id)
  | notifyOne u h => exact .notified u nofun rfl rfl h (Function.update_self _ _ _) (not_waiting nofun id)
  | testClosed h => cases hopen.symm.trans h
  | @waitTail k x h =>
      by_cases he : c.shared.head = some c.shared.tail
      · apply Accounts.emptied
        have hbalance := congrArg List.length hg.balance
        rw [hg.nil_iff.mpr he] at hbalance
        simpa using hbalance.symm
      · refine accounts_serves rfl rfl he nofun ?_
        cases x with
        | true => exact id
        | false => exact he
  | waitElement h => exact accounts_serves rfl rfl rfl nofun id
  | @waitEmpty k a h => exact .kept rfl rfl (fun hs => absurd h hs) fun _ => Or.inr h
  | waitLate h => exact accounts_idle rfl rfl (fun hs => hs h) nofun id
  | sleep => exact .kept rfl rfl (fun hs => absurd hs id) fun _ => Or.inr trivial
  | wake h => exact accounts_serves rfl rfl trivial nofun id
  | spurious | timeout | relock | testOpen => exact accounts_serves rfl rfl trivial nofun id
  | lastTail h => exact .kept rfl rfl id fun hw => absurd hw (not_waiting nofun id)
  | lastElement h =>
      exact .kept rfl rfl (fun hr => hwaits hr) fun hw => absurd hw (not_waiting nofun id)
  | lastEmpty hr h =>
      exact accounts_idle rfl rfl (fun hs => hk.2 hs h) nofun id
  | lastDrained h => exact accounts_idle rfl rfl nofun nofun id
  | popHead h => exact .popped rfl (by simp) (not_waiting nofun id)
  | checkClosed | checkOpen | alloc | allocFails | lockTail | recheckClosed | recheckOpen | fill | link
  | unwind | free | lockTry | lockWait | unlockPopped | take | unlockMissed | storeClosed
  | notifyAll => exact accounts_idle rfl rfl id nofun id

theorem client_accounts (hc : Reachable c) (hopen : c.shared.closed = false)
    (hm : ClientMove t c.shared (c.pc t) s' p') : Accounts t c.shared (c.pc t) s' p' := by
  generalize hp : c.pc t = p at hm
  cases hm with
  | move h => exact hp ▸ move_accounts hc hopen (hp ▸ h)
  | push | pop | close => exact accounts_idle rfl rfl id nofun id
  | finish h =>
      refine accounts_idle rfl rfl ?_ nofun id
      cases p <;> first | exact id | exact absurd h id

end Accounts

section Others

variable (hc : Reachable c) (hu : u ≠ t) (hm : ClientMove t c.shared (c.pc t) s' p')

include hc hu hm

theorem client_head (hh : HoldsHead (c.pc u)) : s'.head = c.shared.head := by
  obtain ⟨chain, hg, hl⟩ := reachable_chained hc
  obtain ⟨chain', ⟨-, hframe⟩, -⟩ := client_keeps (reachable_locked hc) hg hl hm
  exact (hframe u hu).head hh

theorem decided_other (h : Decided s' (c.pc u)) : Decided c.shared (c.pc u) := by
  have hhead := client_head hc hu hm
  generalize c.pc u = q at h hhead
  cases q <;> try exact h
  case waitCompare k x a =>
      cases x with
      | true => exact h
      | false => exact (hhead trivial).symm.trans h

theorem waiting_other (h : Waiting u s' (c.pc u)) : Waiting u c.shared (c.pc u) := by
  obtain ⟨k, hk, hs⟩ | hd := h
  · exact Or.inl ⟨k, hk, client_sleeping_mono hm hu hs⟩
  · exact Or.inr (decided_other hc hu hm hd)

theorem serves_other (h : Serves u c.shared (c.pc u)) : Serves u s' (c.pc u) := by
  have hhead := client_head hc hu hm
  have hsleeping : c.shared.sleeping u = false → s'.sleeping u = false := by
    intro hs
    apply Bool.eq_false_iff.mpr
    intro hs'
    cases hs.symm.trans (client_sleeping_mono hm hu hs')
  generalize c.pc u = q at h hhead
  cases q <;> try exact h
  case asleep k => exact hsleeping h
  case waitCompare k x a =>
      rw [Serves, hhead trivial]
      exact h

end Others

theorem serves_cover (hc : Reachable c) {cover : List Nat}
    (hcover : ∀ v ∈ cover, Serves v c.shared (c.pc v)) (hm : ClientMove t c.shared (c.pc t) s p)
    (hown : t ∈ cover → Serves t s p) : ∀ v ∈ cover, Serves v s ((c.after t s p).pc v) := by
  intro v hv
  by_cases hvt : v = t
  · subst v
    rw [after_pc_self]
    exact hown hv
  · rw [after_pc_of_ne _ hvt]
    exact serves_other hc hvt hm (hcover v hv)

theorem serves_erase (hc : Reachable c) {cover : List Nat} (hnodup : cover.Nodup)
    (hcover : ∀ v ∈ cover, Serves v c.shared (c.pc v)) (hm : ClientMove t c.shared (c.pc t) s p) :
    ∀ v ∈ cover.erase t, Serves v s ((c.after t s p).pc v) := by
  apply serves_cover hc ?_ hm
  · exact fun ht => absurd ht hnodup.not_mem_erase
  · exact fun v hv => hcover v (List.mem_of_mem_erase hv)

theorem serves_notified (hc : Reachable c) (hm : ClientMove t c.shared (c.pc t) s p)
    (hu : c.shared.sleeping u = true) (hu' : s.sleeping u = false) (hpc : ∀ k, c.pc t ≠ .asleep k) :
    ¬Serves u c.shared (c.pc u) ∧ Serves u s ((c.after t s p).pc u) := by
  obtain ⟨k, hk⟩ := reachable_asleep hc u hu
  have hut : u ≠ t := by
    rintro rfl
    exact hpc k hk
  rw [after_pc_of_ne _ hut, hk]
  refine ⟨fun h => ?_, hu'⟩
  cases hu.symm.trans h

theorem length_erase_succ (l : List Nat) (a : Nat) : l.length ≤ (l.erase a).length + 1 := by
  rw [List.length_erase]
  split <;> omega

theorem client_covered (hc : Reachable c) (hopen : c.shared.closed = false) (htimely : Timely c t)
    (hi : (∃ w, Waiting w c.shared (c.pc w)) → Covered c)
    (hm : ClientMove t c.shared (c.pc t) s p) (hw : ∃ w, Waiting w s ((c.after t s p).pc w)) :
    Covered (c.after t s p) := by
  obtain ⟨w, hw⟩ := hw
  have hbefore (hown : Waiting t s p → Waiting t c.shared (c.pc t)) :
      ∃ w, Waiting w c.shared (c.pc w) := by
    refine ⟨w, ?_⟩
    by_cases hwt : w = t
    · subst w
      rw [after_pc_self] at hw
      exact hown hw
    · rw [after_pc_of_ne _ hwt] at hw
      exact waiting_other hc hwt hm hw
  cases client_accounts hc hopen hm with
  | kept hq hp hserves hwaits =>
      obtain ⟨cover, hnodup, hcover, hlen⟩ := hi (hbefore hwaits)
      refine ⟨cover, hnodup, serves_cover hc hcover hm fun ht => hserves (hcover t ht), ?_⟩
      rw [after_shared]
      omega
  | appended hq hp hnew hserves hwaits =>
      obtain ⟨cover, hnodup, hcover, hlen⟩ := hi (hbefore fun h => absurd h hwaits)
      have hnot : t ∉ cover := fun ht => hnew (hcover t ht)
      refine ⟨t :: cover, List.nodup_cons.mpr ⟨hnot, hnodup⟩, ?_, ?_⟩
      · intro v hv
        obtain rfl | hv := List.mem_cons.mp hv
        · rwa [after_pc_self]
        · exact serves_cover hc hcover hm (fun _ => hserves) v hv
      · rw [after_shared, List.length_cons]
        omega
  | popped hq hp hwaits =>
      obtain ⟨cover, hnodup, hcover, hlen⟩ := hi (hbefore fun h => absurd h hwaits)
      refine ⟨cover.erase t, hnodup.erase t, serves_erase hc hnodup hcover hm, ?_⟩
      have hle := length_erase_succ cover t
      rw [after_shared]
      omega
  -- The one that notifies is replaced by the one it woke.
  | notified u hpc hq hp hu hu' hwaits =>
      obtain ⟨cover, hnodup, hcover, hlen⟩ := hi (hbefore fun h => absurd h hwaits)
      obtain ⟨hnot, hserves⟩ := serves_notified hc hm hu hu' hpc
      refine ⟨u :: cover.erase t, List.nodup_cons.mpr ⟨fun hmem => ?_, hnodup.erase t⟩, ?_, ?_⟩
      · exact hnot (hcover u (List.mem_of_mem_erase hmem))
      · intro v hv
        obtain rfl | hv := List.mem_cons.mp hv
        · exact hserves
        · exact serves_erase hc hnodup hcover hm v hv
      · have hle := length_erase_succ cover t
        rw [after_shared, List.length_cons]
        omega
  | unheard hpc hnone hwaits =>
      obtain ⟨v, ⟨k, -, hs⟩ | hd⟩ := hbefore fun h => absurd h hwaits
      · cases (hnone v).symm.trans hs
      · exact absurd hd (htimely hpc hnone v)
  | emptied h => exact ⟨[], List.nodup_nil, nofun, Nat.le_of_eq h⟩

theorem client_open (hm : ClientMove t s p s' p') (h : s'.closed = false) : s.closed = false := by
  apply Bool.eq_false_iff.mpr
  intro hclosed
  cases h.symm.trans (client_closed hm hclosed)

theorem timely_covered (h : GuardedSteps ClientMove Timely initial c) (hopen : c.shared.closed = false)
    (hw : ∃ w, Waiting w c.shared (c.pc w)) : Covered c := by
  refine h.invariant (I := fun c => c.shared.closed = false →
    (∃ w, Waiting w c.shared (c.pc w)) → Covered c) ?_ ?_ hopen hw
  · intro c t s p hc hi htimely hm hopen hw
    have hopen' := client_open hm hopen
    exact client_covered hc hopen' htimely (hi hopen') hm hw
  · exact fun _ _ => ⟨[], List.nodup_nil, nofun, Nat.le_refl _⟩

theorem Stranded.not_serves (hc : Reachable c) (h : Stranded c) : ¬Serves t c.shared (c.pc t) := by
  have hpush := h.pushed t
  have hpop := h.asleep t
  have hwaits := reachable_waits hc t
  intro hs
  generalize c.pc t = p at hpush hpop hwaits hs
  cases p <;> try exact hs
  case pushUnlock => exact hpush rfl
  case pushNotify => exact hpush rfl
  case asleep k => cases hs.symm.trans (hpop k rfl hwaits id).2
  case lastTail k r => cases (hpop k rfl (hwaits hs) id).1
  case lastCompare k r a => cases (hpop k rfl (hwaits hs) id).1
  case popHead k => cases (hpop k rfl hs id).1
  all_goals cases (hpop _ rfl hwaits id).1

/-- When no push misses a consumer on its way to sleep, no element is stranded. -/
theorem timely_served (h : GuardedSteps ClientMove Timely (initial : QueueConfig T) c) :
    ¬Stranded c := by
  intro hs
  obtain ⟨t, ht, hsleeping⟩ := hs.sleeper
  obtain ⟨cover, -, hcover, hlen⟩ :=
    timely_covered h hs.isOpen ⟨t, Or.inl ⟨_, ht, hsleeping⟩⟩
  have hnil : cover = [] := by
    apply List.eq_nil_iff_forall_not_mem.mpr
    exact fun v hv => hs.not_serves h.steps (hcover v hv)
  obtain ⟨chain, hg, -⟩ := reachable_chained h.steps
  have hbalance := congrArg List.length hg.balance
  rw [hnil, List.length_nil] at hlen
  rw [List.length_append, List.length_map, List.length_map] at hbalance
  apply hs.nonempty
  apply hg.nil_iff.mp
  exact List.length_eq_zero_iff.mp (by omega)

theorem missed_strands {c : QueueConfig T} {i : Nat} (hopen : c.shared.closed = false)
    (hne : c.shared.head ≠ some c.shared.tail) (ht : c.pc t = .pushNotify i)
    (hnone : ∀ u, c.shared.sleeping u = false) (hw : c.pc w = .toSleep .waitAndPop)
    (hothers : ∀ u, u ≠ t → u ≠ w → c.pc u = .idle) : ∃ d, Steps ClientMove c d ∧ Stranded d := by
  have hwt : w ≠ t := by
    rintro rfl
    cases ht.symm.trans hw
  have h₁ : Steps ClientMove c _ := Steps.next_at .refl ht (.move (.notifyNone hnone))
  have h₂ := h₁.next_at ((after_pc_of_ne c hwt _ _).trans hw) (.move .sleep)
  refine ⟨_, h₂, hopen, hne, fun u hu => ?_, ⟨w, after_pc_self _ _ _ _, Function.update_self _ _ _⟩,
    fun u k hu _ hf => ?_⟩
  · by_cases huw : u = w
    · subst u
      rw [after_pc_self] at hu
      cases hu
    · rw [after_pc_of_ne _ huw] at hu ⊢
      by_cases hut : u = t
      · subst u
        rw [after_pc_self]
        trivial
      · rw [after_pc_of_ne _ hut, hothers u hut huw] at hu
        cases hu
  · by_cases huw : u = w
    · subst u
      rw [after_pc_self] at hu ⊢
      cases hu
      exact ⟨rfl, Function.update_self _ _ _⟩
    · rw [after_pc_of_ne _ huw] at hu
      by_cases hut : u = t
      · subst u
        rw [after_pc_self] at hu
        cases hu
      · rw [after_pc_of_ne _ hut, hothers u hut huw] at hu
        cases hu

/-- The consumer has found the queue empty, an element is pushed and nobody is
there to be notified, and only then the consumer goes to sleep. -/
theorem push_strands_consumer : ∃ c : QueueConfig Nat, Reachable c ∧ Stranded c ∧
    c.pc 0 = .asleep .waitAndPop ∧ c.shared.queued = [((1, 0), 7)] ∧ c.shared.popped = [] := by
  have h₀ : Reachable (initial : QueueConfig Nat) := .refl
  have htest := (((h₀.start 0).next (.pop .waitAndPop)).next (.move (.lockWait nofun rfl))).next
    (.move (.testOpen rfl))
  have h₁ := h₀.alone ((htest.next (.move (.waitTail rfl))).next (.move (.waitEmpty rfl)))
  have hpush := ((((h₁.start 1).next (.push 7)).next (.move (.checkOpen rfl))).next
    (.move (.alloc 1 rfl))).next (.move (.lockTail rfl))
  have hlink := (((hpush.next (.move (.recheckOpen rfl))).next (.move .fill)).next
    (.move .link)).next (.move .advance)
  have h₂ := h₁.call (((hlink.next (.move .unlockTail)).next
    (.move (.notifyNone fun _ => rfl))).next (.finish trivial))
  have h₃ := h₂.next 0 (.move .sleep)
  refine ⟨_, h₃, ⟨rfl, nofun, fun t ht => ?_, ⟨0, rfl, rfl⟩, fun t k ht _ _ => ?_⟩, rfl, rfl, rfl⟩
  · by_cases h0 : t = 0
    · subst t
      cases ht
    · rw [after_pc_of_ne _ h0, after_pc_of_ne _ h0] at ht
      cases ht
  · by_cases h0 : t = 0
    · subst t
      cases ht
      exact ⟨rfl, rfl⟩
    · rw [after_pc_of_ne _ h0, after_pc_of_ne _ h0] at ht
      cases ht

theorem timely_served_asleep : ∃ c : QueueConfig Nat, c.shared.queued = [((1, 0), 7)] ∧
    c.shared.popped = [] ∧ c.pc 0 = .asleep .waitAndPop ∧ ¬Stranded c := by
  have h₀ : GuardedSteps ClientMove Timely (initial : QueueConfig Nat) initial := .refl
  have h₁ := ((h₀.next 0 nofun (.pop .waitAndPop)).next 0 nofun (.move (.lockWait nofun rfl))).next 0
    nofun (.move (.testOpen rfl))
  have h₂ := ((h₁.next 0 nofun (.move (.waitTail rfl))).next 0 nofun (.move (.waitEmpty rfl))).next 0
    nofun (.move .sleep)
  have h₃ := (((h₂.next 1 nofun (.push 7)).next 1 nofun (.move (.checkOpen rfl))).next 1 nofun
    (.move (.alloc 1 rfl))).next 1 nofun (.move (.lockTail rfl))
  have h₄ := (((h₃.next 1 nofun (.move (.recheckOpen rfl))).next 1 nofun (.move .fill)).next 1 nofun
    (.move .link)).next 1 nofun (.move .advance)
  have h₅ := (h₄.next 1 nofun (.move .unlockTail)).next 1
    (fun _ h => absurd (h 0) nofun) (.move (.notifyOne 0 rfl))
  exact ⟨_, rfl, rfl, rfl, timely_served h₅⟩

end Lzhlib.PushWakeups
