import Lzhlib.QueueWakeups
import Lzhlib.PoolRoles

namespace Lzhlib.PoolShutdown

open Interleaving ThreadQueue QueueLocks QueueWakeups ThreadPool PoolRoles

variable {n t : Nat} {c d : PoolConfig} {s : Pool} {p : PoolPc}

/-- `close` has stored and notified, and a worker sleeps or goes to sleep that
nothing will wake. -/
structure Stranded (n : Nat) (c : PoolConfig) : Prop where
  notified : c.shared.tasks.notifiedAll = true
  worker : ∃ w < n, Sleeps (queueOf c) w
  silent : ∀ t, ¬Notifies (c.pc t).inside

/-- A thread may deliver the notification of `close` only when no worker is
between its test and its sleep. -/
def Timely (n : Nat) (c : PoolConfig) (t : Nat) : Prop :=
  c.pc t = .stopClosing .closeNotify → ∀ w < n, ¬GoesToSleep (queueOf c) w

theorem goesToSleep_worker (hc : PoolReachable n c) (h : GoesToSleep (queueOf c) t) : t < n := by
  obtain ⟨k, hk⟩ := goesToSleep_pop h
  exact (inside_pop (reachable_role hc t) hk).1

theorem inside_closeNotify (hc : PoolReachable n c) (h : (c.pc t).inside = .closeNotify) :
    c.pc t = .stopClosing .closeNotify :=
  (inside_close (reachable_role hc t) (congrArg call h)).trans (congrArg PoolPc.stopClosing h)

theorem timely_awake (h : GuardedSteps (PoolMove n) (Timely n) (constructed n) c) :
    Awake (queueOf c) := by
  refine h.invariant (I := fun c => Awake (queueOf c)) ?_ ?_
  · intro c t s p hc hi htimely hm
    rw [queueOf_after]
    obtain hm | ⟨hs, hp⟩ := move_client hm
    · refine client_awake (queue_reachable hc) hi (fun hp u hu => ?_) hm
      exact htimely (inside_closeNotify hc hp) u (goesToSleep_worker hc hu) hu
    · rwa [after_same (queueOf c) hs hp]
  · rw [queueOf_constructed]
    exact awake_initial

/-- When every notification of `close` is timely, no worker is left asleep. -/
theorem timely_not_stranded (h : GuardedSteps (PoolMove n) (Timely n) (constructed n) c) :
    ¬Stranded n c := by
  have hawake := timely_awake h
  rintro ⟨hnotified, ⟨w, -, hw⟩, -⟩
  obtain ⟨k, -, hsleeping⟩ | hgoes := hw
  · rw [hawake.sleeping hnotified w] at hsleeping
    cases hsleeping
  · exact hawake.wakeful hnotified w hgoes

theorem notify_strands (hc : PoolReachable n c) (hp : c.pc t = .stopClosing .closeNotify)
    (hworker : ∃ w < n, GoesToSleep (queueOf c) w) (hsilent : ∀ u, u ≠ t → ¬Notifies (c.pc u).inside)
    (hm : PoolMove n t c.shared (c.pc t) s p) : Stranded n (c.after t s p) := by
  have hq : (queueOf c).pc t = .closeNotify := congrArg PoolPc.inside hp
  have hclosed := (reachable_closed (queue_reachable hc)).1 t hq
  obtain ⟨w, hw, hgoes⟩ := hworker
  have hwt : w ≠ t := by
    rintro rfl
    rw [GoesToSleep, hq] at hgoes
    exact hgoes
  have hclient := (move_client hm).resolve_right ?_
  · have hgoes' := client_goesToSleep_other (queue_reachable hc) hclosed hwt (hq ▸ id) hgoes hclient
    rw [← queueOf_after] at hgoes'
    rw [hp] at hm
    cases hm with
    | submit k hk => cases k <;> cases hk
    | close hm =>
        cases hm
        refine ⟨rfl, ⟨w, hw, Or.inr hgoes'⟩, ?_⟩
        apply after_forall (P := fun _ q => ¬Notifies q.inside) c
        · exact id
        · exact hsilent
  · rintro ⟨-, hpc⟩
    rw [hp] at hm hpc
    cases hm with
    | submit k hk => cases k <;> cases hk
    | close hm => cases hm; cases hpc

/-- A sleeping thread moves only after a notification. -/
def Quiet (c : PoolConfig) (t : Nat) : Prop :=
  ∀ k, c.pc t = .working (.asleep k) → c.shared.tasks.sleeping t = false

theorem quiet_sleeps {w : Nat} (hc : PoolReachable n c) (hquiet : Quiet c t)
    (hsilent : ∀ u, ¬Notifies (c.pc u).inside) (hclosed : c.shared.tasks.closed = true)
    (h : Sleeps (queueOf c) w)
    (hm : ClientMove t c.shared.tasks (c.pc t).inside s.tasks p.inside) :
    Sleeps ((queueOf c).after t s.tasks p.inside) w := by
  by_cases hwt : w = t
  · subst w
    obtain ⟨k, hk, hsleeping⟩ | hgoes := h
    · have hp := (inside_pop (reachable_role hc t) (congrArg call hk)).2.trans
        (congrArg PoolPc.working hk)
      cases hsleeping.symm.trans (hquiet k hp)
    · exact client_goesToSleep_own hgoes hm
  · obtain ⟨k, hk, hsleeping⟩ | hgoes := h
    · refine Or.inl ⟨k, (after_pc_of_ne _ hwt _ _).trans hk, ?_⟩
      exact (client_sleeping_other hm hwt (hsilent t)).trans hsleeping
    · refine Or.inr (client_goesToSleep_other (queue_reachable hc) hclosed hwt ?_ hgoes hm)
      exact fun happ => hsilent t (appending_notifies happ)

theorem move_stranded (hc : PoolReachable n c) (hquiet : Quiet c t) (h : Stranded n c)
    (hm : PoolMove n t c.shared (c.pc t) s p) : Stranded n (c.after t s p) := by
  obtain ⟨hnotified, ⟨w, hw, hsleeps⟩, hsilent⟩ := h
  have hclosed := (reachable_closed (queue_reachable hc)).2 hnotified
  have hsilent' (hp : ¬Notifies p.inside) : ∀ u, ¬Notifies ((c.after t s p).pc u).inside :=
    after_forall (P := fun _ q => ¬Notifies q.inside) c s hp fun u _ => hsilent u
  obtain hclient | ⟨hs, hp⟩ := move_client hm
  · refine ⟨?_, ⟨w, hw, ?_⟩, hsilent' fun hn => ?_⟩
    · obtain hp | hsame := client_notifiedAll hclient
      · exact absurd (hp ▸ trivial) (hsilent t)
      · exact hsame.trans hnotified
    · rw [queueOf_after]
      exact quiet_sleeps hc hquiet hsilent hclosed hsleeps hclient
    · obtain hn | hstore := client_notifies hclient hclosed hn
      · exact hsilent t hn
      -- The flag of the pool is set, so no other call of stop comes this far.
      · have hrole := move_role hm (reachable_role hc t)
        have hp := (inside_close hrole (congrArg call hstore)).trans
          (congrArg PoolPc.stopClosing hstore)
        have hstops := reachable_stops hc
        obtain ⟨-, hne⟩ | ⟨hold, -, -⟩ := move_stopped hm
        · exact hne hp
        · cases (hstops.store t hold).symm.trans (hstops.closed hclosed)
  · refine ⟨(congrArg Shared.notifiedAll hs).trans hnotified, ⟨w, hw, ?_⟩, hsilent' ?_⟩
    · rw [queueOf_after, after_same (queueOf c) hs hp]
      exact hsleeps
    · rw [hp]
      exact hsilent t

theorem stranded_forever (hc : PoolReachable n c) (h : Stranded n c)
    (hd : GuardedSteps (PoolMove n) Quiet c d) : Stranded n d := by
  refine hd.invariant (I := Stranded n) ?_ h
  intro d t s p hsteps hd hquiet hm
  exact move_stranded (hc.trans hsteps) hquiet hd hm

/-- The worker has found the queue open and empty, `stop` closes and notifies,
and only then the worker goes to sleep. -/
theorem stop_strands_worker : ∃ c, PoolReachable 1 c ∧ Stranded 1 c ∧ c.pc 1 = .stopJoin 0 ∧
    c.pc 0 = .working (.asleep .waitAndPop) ∧ c.shared.tasks.sleeping 0 = true := by
  have h₀ : PoolReachable 1 (constructed 1) := .refl
  have htest := (((h₀.start 0).next .start).next (.wait (.lockWait nofun rfl))).next
    (.wait (.testOpen rfl))
  have h₁ := h₀.alone ((htest.next (.wait (.waitTail rfl))).next (.wait (.waitEmpty rfl)))
  have hstop := (((h₁.start 1).next .stop).next (.lockStop rfl)).next (.testRunning rfl)
  have h₂ := h₁.alone ((((hstop.next .storeStopped).next (.close .storeClosed)).next
    (.close .notifyAll)).next .closed)
  have h₃ := h₂.next 0 (.wait .sleep)
  refine ⟨_, h₃, ⟨rfl, ⟨0, Nat.zero_lt_one, Or.inl ⟨_, rfl, rfl⟩⟩, fun t => ?_⟩, rfl, rfl, rfl⟩
  by_cases ht₀ : t = 0
  · subst t
    exact id
  by_cases ht₁ : t = 1
  · subst t
    exact id
  rw [after_pc_of_ne _ ht₀, after_pc_of_ne _ ht₁, after_pc_of_ne _ ht₀]
  simp [constructed, ht₀, PoolPc.inside, Notifies]

theorem timely_one (h : ¬GoesToSleep (queueOf c) 0) : Timely 1 c t :=
  fun _ _ hw => Nat.lt_one_iff.mp hw ▸ h

theorem timely_not_stranded_asleep : ∃ c : PoolConfig, c.shared.tasks.notifiedAll = true ∧
    c.pc 0 = .working (.asleep .waitAndPop) ∧ ¬Stranded 1 c := by
  have h₀ : GuardedSteps (PoolMove 1) (Timely 1) (constructed 1) (constructed 1) := .refl
  have h₁ := ((h₀.next 0 nofun .start).next 0 nofun (.wait (.lockWait nofun rfl))).next 0 nofun
    (.wait (.testOpen rfl))
  have h₂ := ((h₁.next 0 nofun (.wait (.waitTail rfl))).next 0 nofun
    (.wait (.waitEmpty rfl))).next 0 nofun (.wait .sleep)
  have h₃ := ((h₂.next 1 nofun .stop).next 1 nofun (.lockStop rfl)).next 1 nofun (.testRunning rfl)
  have h₄ := (h₃.next 1 nofun .storeStopped).next 1 nofun (.close .storeClosed)
  have h₅ := h₄.next 1 (timely_one id) (.close .notifyAll)
  exact ⟨_, rfl, rfl, timely_not_stranded h₅⟩

end Lzhlib.PoolShutdown
