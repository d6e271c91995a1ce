import Lzhlib.PackagedTasks
import Lzhlib.PoolDrain

namespace Lzhlib.PoolFutures

open Interleaving Segments PackagedTasks ThreadQueue QueueLocks QueueChain QueueHistory ThreadPool
  PoolRoles PoolHistory PoolDrain Custody

variable {R : Type}

abbrev Promised (R : Type) := Pool × Promises Nat Task R

/-- What a step of the thread `t` does to the task objects. -/
def effect (t : Nat) (r : R) (f : Promises Nat Task R) : PoolPc → PoolPc → Promises Nat Task R
  | .submitMake _ m, .submitting _ _ _ => f.make (t, m)
  -- A task that has not got into the queue goes away with the call.
  | .submitting _ m (.pushThrew _), _ | .submitting _ m .pushFailed, _ => f.abandon (some (t, m))
  -- wait_and_pop moves the task out of the node into the worker's own.
  | .working (.popTake _ _), .working (.popReturned _ j) => f.replace t (some j)
  | .running _, .working _ => f.store t r
  | .working (.missReturned _), .exited => f.replace t none
  | _, _ => f

def FutureMove (n t : Nat) (s : Promised R) (p : PoolPc) (s' : Promised R) (p' : PoolPc) : Prop :=
  PoolMove n t s.1 p s'.1 p' ∧ ∃ r, s'.2 = effect t r s.2 p p'

abbrev FutureConfig (R : Type) := Config Nat (Promised R) PoolPc

abbrev FutureReachable (n : Nat) (c : FutureConfig R) : Prop :=
  Steps (FutureMove n) ⟨((constructed n).shared, {}), (constructed n).pc⟩ c

/-- The destructor of a node goes through its members in reverse order. -/
inductive Frees (heap : Nat → Option (Node Task)) :
    Option Nat → Promises Nat Task R → Promises Nat Task R → Prop
  | null {f} : Frees heap none f f
  | node {a x f f'} (h : heap a = some x) (hnext : Frees heap x.next f f') :
      Frees heap (some a) f (f'.abandon x.data)

variable {n t u : Nat} {c d : FutureConfig R} {s s' : Pool} {p p' : PoolPc} {j k : Task} {r : R}
  {f f' : Promises Nat Task R}

def poolOf (c : FutureConfig R) : PoolConfig := c.project Prod.fst id

theorem pool_reachable (h : FutureReachable n c) : PoolReachable n (poolOf c) :=
  Steps.project (fun _ _ _ _ _ hm => Or.inl hm.1) h

theorem promised_run (r : R) {c : PoolConfig} (h : PoolReachable n c) :
    ∃ f, FutureReachable n (⟨(c.shared, f), c.pc⟩ : FutureConfig R) := by
  induction h with
  | refl => exact ⟨_, .refl⟩
  | tail _ hlast ih =>
      obtain ⟨t, s, p, hm, rfl⟩ := hlast
      obtain ⟨f, hf⟩ := ih
      exact ⟨_, hf.next t (s := (s, _)) ⟨hm, r, rfl⟩⟩

section Objects

/-- The task that the thread's task object refers to while it is called. -/
def called : PoolPc → Option Task
  | .working (.popReturned _ j) | .running j => some j
  | .submitCheck k _ | .submitMake k _ | .submitting k _ _ => k
  | _ => none

theorem called_caller (k : Option Task) : called (.caller k) = k := by
  cases k <;> rfl

/-- Outside a call, a task object is empty or refers to a task that has been run. -/
def Refers (f : Promises Nat Task R) (finished : List Task) (t : Nat) (p : PoolPc) : Prop :=
  match called p with
  | some j => f.object t = some j
  | none => ∀ j, f.object t = some j → j ∈ finished

theorem Refers.mono {l l' : List Task} (h : Refers f l t p) (hcalled : called p' = called p)
    (hobject : f'.object t = f.object t) (hl : l ⊆ l') : Refers f' l' t p' := by
  rw [Refers] at h ⊢
  rw [hcalled, hobject]
  split
  · rename_i hp
    rwa [hp] at h
  · rename_i hp
    rw [hp] at h
    exact fun j hj => hl (h j hj)

theorem move_takes {q q' : Shared Task} {x x' : Pc Task} (hm : Move t q x q' x') :
    (∃ l a j, x = .popTake l a ∧ x' = .popReturned l j) ∨
      (effect t r f (.working x) (.working x') = f ∧ called (.working x) = none ∧
        called (.working x') = none) := by
  cases hm with
  | take h hv => exact Or.inl ⟨_, _, _, rfl, rfl⟩
  | checkClosed | checkOpen | alloc | allocFails | lockTail | recheckClosed | recheckOpen | fill | link
  | advance | unlockTail | notifyNone | notifyOne | unwind | free | lockTry | lockWait | testClosed
  | testOpen | waitTail | waitElement | waitEmpty | waitLate | sleep | wake | spurious | timeout
  | relock | lastTail | lastElement | lastEmpty | lastDrained | popHead | unlockPopped | unlockMissed
  | storeClosed | notifyAll => exact Or.inr ⟨rfl, rfl, rfl⟩

theorem effect_push {l : Option Task} {m : Nat} {q q' : Shared Task} {x x' : Pc Task}
    (hm : Move t q x q' x') : effect t r f (.submitting l m x) (.submitting l m x') = f := by
  cases hm <;> rfl

theorem effect_submit (l : Option Task) (m : Nat) : effect t r f (.caller l) (.submitCheck l m) = f := by
  cases l <;> rfl

theorem effect_makeFails (l : Option Task) (m : Nat) :
    effect t r f (.submitMake l m) (.caller l) = f := by
  cases l <;> rfl

theorem move_refers (hm : PoolMove n t s p s' p') (h : Refers f s.finished t p) :
    Refers (effect t r f p p') s'.finished t p' := by
  have hsame {l : List Task} : l ⊆ l := fun _ => id
  cases hm with
  | wait hm =>
      obtain ⟨l, a, j, rfl, rfl⟩ | ⟨heffect, hx, hx'⟩ := move_takes (r := r) (f := f) hm
      · exact replace_object f t (some j)
      · exact h.mono (hx'.trans hx.symm) (congrArg (Promises.object · t) heffect) hsame
  | finish =>
      intro i hi
      have hobject : f.object t = some _ := h
      change (f.store t r).object t = some i at hi
      rw [store_eq hobject] at hi
      exact List.mem_append_right _ (List.mem_singleton.mpr (Option.some.inj (hi.symm.trans hobject)))
  | exit =>
      intro i hi
      cases (replace_object f t none).symm.trans hi
  | submit l hp =>
      subst hp
      exact h.mono (called_caller l).symm (congrArg (Promises.object · t) (effect_submit l _)) hsame
  | push hm => exact h.mono rfl (congrArg (Promises.object · t) (effect_push hm)) hsame
  | makeFails =>
      exact h.mono (called_caller _) (congrArg (Promises.object · t) (effect_makeFails _ _)) hsame
  | checkStopped | accept => exact h.mono (called_caller _) rfl hsame
  | reject | pushFails => exact h.mono (called_caller _) rfl hsame
  | start | invoke | checkRunning | make | stop | lockStop | testStopped | testRunning | storeStopped
  | close | closed | join | notJoinable | allJoined | unlockStop => exact h.mono rfl rfl hsame

theorem object_other (hm : PoolMove n t s p s' p') (hu : u ≠ t) :
    (effect t r f p p').object u = f.object u := by
  have hreplace (x : Option Task) : (f.replace t x).object u = f.object u := by
    simp [Promises.replace, hu]
  cases hm with
  | wait hm =>
      obtain ⟨l, a, j, rfl, rfl⟩ | ⟨heffect, -⟩ := move_takes (r := r) (f := f) hm
      · exact hreplace (some j)
      · rw [heffect]
  | finish =>
      change (f.store t r).object u = f.object u
      cases ht : f.object t <;> simp [Promises.store, ht]
  | exit => exact hreplace none
  | submit l hp =>
      subst hp
      rw [effect_submit]
  | push hm => rw [effect_push hm]
  | makeFails => rw [effect_makeFails]
  | start | invoke | checkStopped | checkRunning | make | accept | reject | pushFails | stop | lockStop
  | testStopped | testRunning | storeStopped | close | closed | join | notJoinable | allJoined
  | unlockStop => rfl

theorem move_finished (hm : PoolMove n t s p s' p') : s.finished ⊆ s'.finished := by
  obtain hsame | ⟨j, -, hfinished⟩ := move_finishes hm
  · exact fun _ hi => hsame ▸ hi
  · rw [hfinished]
    exact List.subset_append_left _ _

end Objects

section Shared

structure Settled (s : Pool) (f : Promises Nat Task R) : Prop where
  kept : Kept f
  finished : f.stored.map Prod.fst = s.finished

theorem Settled.ready (h : Settled s f) (hj : j ∈ s.finished) : ∃ r, f.future j = .ready r := by
  rw [← h.finished, List.mem_map] at hj
  obtain ⟨⟨i, r⟩, hi, rfl⟩ := hj
  exact ⟨r, (h.kept.ready i r).mpr hi⟩

theorem Settled.not_ready (h : Settled s f) (hj : j ∉ s.finished) (r : R) : f.future j ≠ .ready r := by
  intro hr
  apply hj
  rw [← h.finished]
  exact List.mem_map_of_mem ((h.kept.ready j r).mp hr)

theorem move_settled (hm : PoolMove n t s p s' p') (hrefers : Refers f s.finished t p)
    (hmade : ∀ m, submission p = .pending m → (t, m) ∉ s.finished)
    (hrunning : ∀ j, p = .running j → j ∉ s.finished) (h : Settled s f) :
    Settled s' (effect t r f p p') := by
  cases hm with
  | wait hm =>
      obtain ⟨l, a, j, rfl, rfl⟩ | ⟨heffect, -⟩ := move_takes (r := r) (f := f) hm
      · exact ⟨h.kept.replace t _, (congrArg _ (replace_stored f t _)).trans h.finished⟩
      · rw [heffect]
        exact ⟨h.kept, h.finished⟩
  | finish =>
      have hobject : f.object t = some _ := hrefers
      have hnot := hrunning _ rfl
      rw [← h.finished] at hnot
      refine ⟨h.kept.store hobject hnot, ?_⟩
      change (f.store t r).stored.map Prod.fst = _
      rw [store_eq hobject, List.map_append, h.finished]
      rfl
  | exit => exact ⟨h.kept.replace t _, (congrArg _ (replace_stored f t _)).trans h.finished⟩
  | make =>
      have hnot := hmade _ rfl
      rw [← h.finished] at hnot
      exact ⟨h.kept.make hnot, h.finished⟩
  | reject | pushFails => exact ⟨h.kept.abandon (some (t, _)), h.finished⟩
  | submit l hp =>
      subst hp
      rw [effect_submit]
      exact ⟨h.kept, h.finished⟩
  | push hm =>
      rw [effect_push hm]
      exact ⟨h.kept, h.finished⟩
  | makeFails =>
      rw [effect_makeFails]
      exact ⟨h.kept, h.finished⟩
  | start | invoke | checkStopped | checkRunning | accept | stop | lockStop | testStopped | testRunning
  | storeStopped | close | closed | join | notJoinable | allJoined | unlockStop =>
      exact ⟨h.kept, h.finished⟩

end Shared

section Lost

structure Lost (j : Journal) (x : Stage) (k : Task) : Prop where
  made : k.2 < j.calls k.1
  absent : k ∉ j.ids
  ended : x ≠ .pending k.2

theorem writes_lost {j j' : Journal} {x x' : Stage} {m : Nat} (hw : Writes t j x j' x')
    (h : Lost j x (t, m)) : Lost j' x' (t, m) := by
  obtain ⟨hmade, habsent, hover⟩ := h
  cases hw with
  | nothing => exact ⟨hmade, habsent, hover⟩
  | failed | threw => exact ⟨hmade, habsent, nofun⟩
  | called =>
      refine ⟨by simpa using Nat.lt_succ_of_lt hmade, habsent, ?_⟩
      rintro ⟨⟩
      exact Nat.lt_irrefl _ hmade
  | appended => exact ⟨hmade, by simpa [habsent, eq_comm] using hover, nofun⟩
  | returned => exact ⟨hmade, habsent, nofun⟩

theorem writes_lost_other {j j' : Journal} {x x' y : Stage} {m : Nat} (hw : Writes t j x j' x')
    (hu : u ≠ t) (h : Lost j y (u, m)) : Lost j' y (u, m) := by
  obtain ⟨hmade, habsent, hover⟩ := h
  cases hw with
  | nothing | failed | threw | returned => exact ⟨hmade, habsent, hover⟩
  | called => exact ⟨Nat.lt_of_lt_of_eq hmade (Function.update_of_ne hu _ _).symm, habsent, hover⟩
  | appended => exact ⟨hmade, by simp [habsent, hu], hover⟩

theorem writes_over {j j' : Journal} {m : Nat} (hw : Writes t j (.pending m) j' .outside)
    (h : Tracks t j (.pending m)) : Lost j' .outside (t, m) := by
  obtain ⟨hmade, habsent, -⟩ := h.pending m rfl
  cases hw with
  | failed | threw => exact ⟨hmade, habsent, nofun⟩

theorem effect_broken (hm : PoolMove n t s p s' p') (hrefers : Refers f s.finished t p)
    (h : Settled s f) (hk : (effect t r f p p').future k = .broken) :
    f.future k = .broken ∨ k.1 = t ∧ submission p = .pending k.2 ∧ submission p' = .outside := by
  have hreplace (hp : called p = none) (x : Option Task) : (f.replace t x).future = f.future := by
    apply replace_future
    rw [Refers, hp] at hrefers
    exact fun j hj => h.ready (hrefers j hj)
  have habandon {m : Nat} (hk : (f.abandon (some (t, m))).future k = .broken) :
      f.future k = .broken ∨ k = (t, m) := by
    by_cases hkm : k = (t, m)
    · exact Or.inr hkm
    · exact Or.inl ((Function.update_of_ne hkm _ _).symm.trans hk)
  cases hm with
  | wait hm =>
      obtain ⟨l, a, j, rfl, rfl⟩ | ⟨heffect, -⟩ := move_takes (r := r) (f := f) hm
      · exact Or.inl ((congrFun (hreplace rfl (some j)) k).symm.trans hk)
      · exact Or.inl (heffect ▸ hk)
  | @finish j =>
      have hobject : f.object t = some j := hrefers
      change (f.store t r).future k = .broken at hk
      rw [store_eq hobject] at hk
      left
      by_cases hkj : k = j
      · subst hkj
        simp at hk
      · simpa [hkj] using hk
  | exit => exact Or.inl ((congrFun (hreplace rfl none) k).symm.trans hk)
  | @make l m =>
      change (f.make (t, m)).future k = .broken at hk
      left
      by_cases hkm : k = (t, m)
      · subst hkm
        simp [Promises.make] at hk
      · simpa [Promises.make, hkm] using hk
  | reject =>
      refine (habandon hk).imp_right ?_
      rintro rfl
      exact ⟨rfl, rfl, submission_caller _⟩
  | pushFails =>
      refine (habandon hk).imp_right ?_
      rintro rfl
      exact ⟨rfl, rfl, submission_caller _⟩
  | submit l hp =>
      subst hp
      exact Or.inl (effect_submit (r := r) (f := f) l _ ▸ hk)
  | push hm => exact Or.inl (effect_push (r := r) (f := f) hm ▸ hk)
  | makeFails => exact Or.inl (effect_makeFails (t := t) (r := r) (f := f) _ _ ▸ hk)
  | start | invoke | checkStopped | checkRunning | accept | stop | lockStop | testStopped | testRunning
  | storeStopped | close | closed | join | notJoinable | allJoined | unlockStop => exact Or.inl hk

end Lost

section Runs

structure Fulfils (c : FutureConfig R) : Prop where
  settled : Settled c.shared.1 c.shared.2
  refers : ∀ t, Refers c.shared.2 c.shared.1.finished t (c.pc t)
  lost : ∀ t m, c.shared.2.future (t, m) = .broken →
    Lost (submissions c.shared.1) (submission (c.pc t)) (t, m)

theorem finished_linked {c : PoolConfig} (hc : PoolReachable n c) (hj : j ∈ c.shared.finished) :
    j ∈ (submissions c.shared).ids := by
  have haccounted := reachable_accounted hc
  exact (taken_in_order hc).subset (haccounted.invoked j (haccounted.finished j hj))

theorem move_fulfils (hc : PoolReachable n (poolOf c)) (h : Fulfils c) {x : Promised R}
    (hm : FutureMove n t c.shared (c.pc t) x p) : Fulfils (c.after t x p) := by
  obtain ⟨s, f⟩ := x
  obtain ⟨hm, r, rfl⟩ := hm
  have htracks := (reachable_submissions hc).2
  refine ⟨?_, ?_, ?_⟩
  · apply move_settled hm (h.refers t) ?_ ?_ h.settled
    · exact fun m hp hj => ((htracks t).pending m hp).2.1 (finished_linked hc hj)
    · intro j hp
      refine ((reachable_accounted hc).running t j ?_).2
      exact congrArg (hand c.shared.1.tasks) hp
  · apply after_forall (P := fun u q => Refers (effect t r c.shared.2 (c.pc t) p) s.finished u q) c
    · exact move_refers hm (h.refers t)
    · exact fun u hu => (h.refers u).mono rfl (object_other hm hu) (move_finished hm)
  · intro u m
    have hwrites : Writes t (submissions c.shared.1) (submission (c.pc t)) (submissions s) (submission p) :=
      move_submissions hm (reachable_role hc t) (reachable_carries hc t)
    refine after_forall (P := fun u q => (effect t r c.shared.2 (c.pc t) p).future (u, m) = .broken →
      Lost (submissions s) (submission q) (u, m)) c (s, effect t r c.shared.2 (c.pc t) p) ?_ ?_ u
    · intro hk
      obtain hk | ⟨-, hpending, hover⟩ := effect_broken hm (h.refers t) h.settled hk
      · exact writes_lost hwrites (h.lost t m hk)
      · have hown := htracks t
        change Tracks t (submissions c.shared.1) (submission (c.pc t)) at hown
        rw [hpending] at hwrites hown
        rw [hover] at hwrites ⊢
        exact writes_over hwrites hown
    · intro u hu hk
      obtain hk | ⟨heq, -⟩ := effect_broken hm (h.refers t) h.settled hk
      · exact writes_lost_other hwrites hu (h.lost u m hk)
      · exact absurd heq hu

theorem fulfils_constructed (n : Nat) :
    Fulfils (⟨((constructed n).shared, {}), (constructed n).pc⟩ : FutureConfig R) := by
  refine ⟨⟨kept_empty, rfl⟩, fun t => ?_, nofun⟩
  by_cases ht : t < n <;> simp [constructed, ht, Refers, called]

theorem reachable_fulfils (h : FutureReachable n c) : Fulfils c := by
  have hinv : FutureReachable n c ∧ Fulfils c := by
    refine h.invariant (I := fun c => FutureReachable n c ∧ Fulfils c) ?_ ⟨.refl, fulfils_constructed n⟩
    rintro c t s p ⟨hc, hi⟩ hm
    exact ⟨hc.next t hm, move_fulfils (pool_reachable hc) hi hm⟩
  exact hinv.2

theorem linked_future (hc : FutureReachable n c) (hj : j ∈ (submissions c.shared.1).ids) :
    (c.shared.2.future j = .pending ∧ j ∉ c.shared.1.finished) ∨
      ∃ r, c.shared.2.future j = .ready r ∧ (j, r) ∈ c.shared.2.stored := by
  have h := reachable_fulfils hc
  by_cases hfinished : j ∈ c.shared.1.finished
  · obtain ⟨r, hr⟩ := h.settled.ready hfinished
    exact Or.inr ⟨r, hr, (h.settled.kept.ready j r).mp hr⟩
  · refine Or.inl ⟨?_, hfinished⟩
    cases hf : c.shared.2.future j with
    | pending => rfl
    | ready r => exact absurd hf (h.settled.not_ready hfinished r)
    | broken => exact absurd hj (h.lost j.1 j.2 hf).absent

/-- The task is in the queue, or in the hands of a worker that has popped it. -/
def UnderWay (n : Nat) (c : FutureConfig R) (chain : List (Nat × Task)) (j : Task) : Prop :=
  j ∈ chain.map Prod.snd ∨ ∃ t < n, (hands (poolOf c) t).item = some j

theorem linked_underWay (hc : FutureReachable n c) {chain : List (Nat × Task)}
    (hg : Chained (queueOf (poolOf c)).shared chain) (hj : j ∈ (submissions c.shared.1).ids)
    (hnot : j ∉ c.shared.1.finished) : UnderWay n c chain j := by
  have hpool := pool_reachable hc
  have hlinked := taken_append hg
  change taken c.shared.1 ++ _ = (submissions c.shared.1).ids at hlinked
  rw [← hlinked] at hj
  obtain htaken | hqueued := List.mem_append.mp hj
  · obtain hfinished | ⟨t, ht⟩ := (reachable_accounted hpool).whereabouts j htaken
    · exact absurd hfinished hnot
    · exact Or.inr ⟨t, hand_worker (reachable_role hpool t) _ ht, ht⟩
  · exact Or.inl hqueued

theorem popped_callable (hc : FutureReachable n c) {l : Caller}
    (hp : c.pc t = .working (.popReturned l j)) : c.shared.2.callable t = .ok j := by
  have hpool := pool_reachable hc
  have hobject := (reachable_fulfils hc).refers t
  rw [hp] at hobject
  have haccounted := reachable_accounted hpool
  obtain ⟨htaken, hnot⟩ := haccounted.taken t j (congrArg (hand c.shared.1.tasks) hp)
  have hlinked := (taken_in_order hpool).subset htaken
  obtain ⟨hpending, -⟩ | ⟨r, hr, -⟩ := linked_future hc hlinked
  · exact callable_ok hobject hpending
  · refine absurd (haccounted.finished j ?_) hnot
    by_contra hfinished
    exact (reachable_fulfils hc).settled.not_ready hfinished r hr

end Runs

section Destruction

theorem frees_chain {heap : Nat → Option (Node Task)} {start : Option Nat} {chain : List (Nat × Task)}
    {a : Nat} (hs : Segment (cell heap) start chain a) (ha : heap a = some {}) :
    Frees heap start f f' ↔ f' = f.abandonAll (chain.map Prod.snd) := by
  induction chain generalizing start f' with
  | nil =>
      obtain rfl : start = some a := hs
      constructor
      · rintro (_ | ⟨hx, hnext⟩)
        cases ha.symm.trans hx
        cases hnext
        rfl
      · rintro rfl
        exact .node ha .null
  | cons x chain ih =>
      obtain ⟨rfl, m, hcell, hrest⟩ := hs
      have hx := cell_eq hcell
      constructor
      · rintro (_ | ⟨hy, hnext⟩)
        cases hx.symm.trans hy
        rw [(ih hrest).mp hnext]
        rfl
      · rintro rfl
        exact .node hx ((ih hrest).mpr rfl)

def Fulfilled (f : Promises Nat Task R) (j : Task) : Prop :=
  ∃ r, f.future j = .ready r ∧ (j, r) ∈ f.stored

def Over (c : FutureConfig R) : Prop :=
  c.shared.1.halted = true ∧ ∀ t, c.pc t = .outside ∨ c.pc t = .exited

def Destroyed (c : FutureConfig R) : Promises Nat Task R → Prop :=
  Frees c.shared.1.tasks.heap c.shared.1.tasks.head c.shared.2

theorem over_dummy (hc : FutureReachable n c) (h : Over c) : c.shared.1.tasks.tailMutex = none := by
  have hlocked := reachable_locked (queue_reachable (pool_reachable hc))
  cases ht : c.shared.1.tasks.tailMutex with
  | none => rfl
  | some t =>
      have hheld : HoldsTail (c.pc t).inside := (hlocked t).2.mp ht
      obtain hp | hp := h.2 t <;> rw [hp] at hheld <;> exact absurd hheld id


theorem destroyed_future (hc : FutureReachable n c) (h : Over c) :
    (∃ f, Destroyed c f) ∧ ∀ f, Destroyed c f → ∀ j ∈ c.shared.1.accepted,
      Fulfilled f j ∨ n = 0 ∧ f.future j = .broken := by
  have hpool := pool_reachable hc
  obtain ⟨chain, hg, -⟩ := reachable_chained (queue_reachable hpool)
  have hfrees {f} : Destroyed c f ↔ f = c.shared.2.abandonAll (chain.map Prod.snd) :=
    frees_chain hg.segment (hg.dummy (over_dummy hc h))
  refine ⟨⟨_, hfrees.mpr rfl⟩, fun f hf j hj => ?_⟩
  rw [hfrees.mp hf, Fulfilled, abandonAll_stored, abandonAll_future]
  have hlinked := (reachable_submissions hpool).1.returned j hj
  obtain ⟨hpending, hnot⟩ | ⟨r, hr, hstored⟩ := linked_future hc hlinked
  · obtain rfl | hn := Nat.eq_zero_or_pos n
    · obtain hqueued | ⟨t, ht, -⟩ := linked_underWay hc hg hlinked hnot
      · rw [if_pos hqueued, hpending]
        exact Or.inr ⟨rfl, rfl⟩
      · exact absurd ht (Nat.not_lt_zero t)
    · exact absurd ((halted_drained hpool hn h.1).1 j hj) hnot
  · left
    refine ⟨r, ?_, hstored⟩
    rw [hr]
    split <;> rfl

end Destruction

/-- Every future that `submit` returns is fulfilled, once, with what its task
returned or threw: at the latest when `stop` has returned, if there is a worker,
and by a broken promise in the destructor, if there is none. Until then the task
is in the queue or with a worker. No worker ever calls a task object that is
empty or has been called before. -/
theorem reachable_futures (hc : FutureReachable n c) :
    (∀ t l j, c.pc t = .working (.popReturned l j) → c.shared.2.callable t = .ok j) ∧
    (c.shared.2.stored.map Prod.fst).Nodup ∧
    (∃ chain, Chained (queueOf (poolOf c)).shared chain ∧ ∀ j ∈ c.shared.1.accepted,
      (c.shared.2.future j = .pending ∧ j ∉ c.shared.1.finished ∧ UnderWay n c chain j) ∨
        Fulfilled c.shared.2 j) ∧
    (c.shared.1.halted = true → 0 < n → ∀ j ∈ c.shared.1.accepted, Fulfilled c.shared.2 j) ∧
    (Over c → (∃ f, Destroyed c f) ∧ ∀ f, Destroyed c f → ∀ j ∈ c.shared.1.accepted,
      Fulfilled f j ∨ n = 0 ∧ f.future j = .broken) := by
  have hpool := pool_reachable hc
  have hlinked {j : Task} (hj : j ∈ c.shared.1.accepted) : j ∈ (submissions c.shared.1).ids :=
    (reachable_submissions hpool).1.returned j hj
  obtain ⟨chain, hg, -⟩ := reachable_chained (queue_reachable hpool)
  refine ⟨fun t l j => popped_callable hc, (reachable_fulfils hc).settled.kept.nodup,
    ⟨chain, hg, fun j hj => ?_⟩, fun hhalted hn j hj => ?_, destroyed_future hc⟩
  · refine (linked_future hc (hlinked hj)).imp_left ?_
    rintro ⟨hpending, hnot⟩
    exact ⟨hpending, hnot, linked_underWay hc hg (hlinked hj) hnot⟩
  · refine (linked_future hc (hlinked hj)).resolve_left ?_
    rintro ⟨-, hnot⟩
    exact hnot ((halted_drained hpool hn hhalted).1 j hj)

theorem submit_stop_one : ∃ c, PoolReachable 1 c ∧ c.shared.accepted = [(1, 0)] ∧
    c.shared.halted = true ∧ ∀ t, c.pc t = .outside ∨ c.pc t = .exited := by
  have h₀ : PoolReachable 1 (constructed 1) := .refl
  have hsubmit := ((((h₀.start 1).next (.submit none rfl)).next (.checkRunning rfl)).next .make).next
    (.push (.checkOpen rfl))
  have hlink := ((((hsubmit.next (.push (.alloc 1 rfl))).next (.push (.lockTail rfl))).next
    (.push (.recheckOpen rfl))).next (.push .fill)).next (.push .link)
  have h₁ := h₀.alone ((((hlink.next (.push .advance)).next (.push .unlockTail)).next
    (.push (.notifyNone fun _ => rfl))).next .accept)
  have htest := (((h₁.start 0).next .start).next (.wait (.lockWait nofun rfl))).next
    (.wait (.testOpen rfl))
  have hpop := ((((htest.next (.wait (.waitTail rfl))).next (.wait (.waitElement nofun))).next
    (.wait (.lastTail rfl))).next (.wait (.lastElement nofun))).next (.wait (.popHead rfl))
  have h₂ := h₁.alone ((((hpop.next (.wait .unlockPopped)).next (.wait (.take rfl rfl))).next
    .invoke).next .finish)
  have hstop := (((h₂.start 2).next .stop).next (.lockStop rfl)).next (.testRunning rfl)
  have h₃ := h₂.alone ((((hstop.next .storeStopped).next (.close .storeClosed)).next
    (.close .notifyAll)).next .closed)
  have hdrain := (((h₃.start 0).next (.wait (.lockWait nofun rfl))).next (.wait (.testClosed rfl))).next
    (.wait (.lastTail rfl))
  have h₄ := h₃.alone (((hdrain.next (.wait (.lastDrained rfl))).next (.wait .unlockMissed)).next .exit)
  have h₅ := h₄.alone ((((h₄.start 2).next (.join (Nat.zero_lt_one) rfl rfl)).next
    (.allJoined (Nat.le_refl 1))).next .unlockStop)
  refine ⟨_, h₅, rfl, rfl, fun t => ?_⟩
  match t with
  | 0 => exact Or.inr rfl
  | 1 | 2 | _ + 3 => exact Or.inl rfl

theorem reachable_futures_unit : ∃ (c : FutureConfig Unit) (f : Promises Nat Task Unit),
    c.shared.1.accepted = [(1, 0)] ∧ Over c ∧ Destroyed c f ∧ f.future (1, 0) = .ready () := by
  obtain ⟨c, hc, haccepted, hover⟩ := submit_stop_one
  obtain ⟨f, hf⟩ := promised_run () hc
  obtain ⟨-, -, -, -, hdestroyed⟩ := reachable_futures hf
  obtain ⟨⟨g, hg⟩, hall⟩ := hdestroyed hover
  refine ⟨⟨(c.shared, f), c.pc⟩, g, haccepted, hover, hg, ?_⟩
  obtain ⟨⟨⟩, hr, -⟩ | ⟨hn, -⟩ := hall g hg (1, 0) (haccepted ▸ List.mem_singleton_self _)
  · exact hr
  · cases hn

end Lzhlib.PoolFutures
