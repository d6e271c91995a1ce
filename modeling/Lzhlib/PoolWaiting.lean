import Lzhlib.Deadlocks
import Lzhlib.PoolOrder
import Lzhlib.PoolProgress

namespace Lzhlib.PoolWaiting

open Interleaving Settling ThreadQueue ThreadPool PoolRoles PoolHistory PoolDrain PoolShutdown
  PoolProgress PoolOrder Custody Deadlocks

variable {n t : Nat} {c d : PoolConfig} {s s' : Pool} {p p' : PoolPc} {j k : Task}
  {waits : Task → Task → Prop}

/-- A step in which no task returns before those whose futures it waits for. -/
def Awaiting (waits : Task → Task → Prop) (move : Nat → Pool → PoolPc → Pool → PoolPc → Prop)
    (t : Nat) (s : Pool) (p : PoolPc) (s' : Pool) (p' : PoolPc) : Prop :=
  move t s p s' p' ∧ Awaited waits (ledger s) (ledger s')

section Backward

end Backward

section Forward

theorem starved_busy (hs : Starved waits (· < n) (ledger c.shared) (hands c)) (hn : 0 < n)
    (hc : PoolReachable n c) : c.shared.halted = false := by
  apply Bool.eq_false_of_not_eq_true
  intro hhalted
  have hhalts := reachable_halts hc
  have hexited := (reachable_exited hc).2 0 (hhalts.exited 0 (hhalts.halted hhalted 0 hn))
  obtain ⟨j, k, hj, -⟩ := hs 0 hn
  rw [hands, hexited] at hj
  cases hj

/-- When every worker runs a task that waits for one still in the queue, no
worker takes, begins or finishes a task any more, and no `stop` returns. -/
theorem starved_stays (hc : PoolReachable n c)
    (hs : Starved waits (· < n) (ledger c.shared) (hands c))
    (hd : Steps (Awaiting waits (PoolMove n)) c d) :
    ledger d.shared = ledger c.shared ∧ hands d = hands c ∧ (0 < n → d.shared.halted = false) := by
  have hinv : PoolReachable n d ∧ ledger d.shared = ledger c.shared ∧ hands d = hands c := by
    refine hd.invariant (I := fun d => PoolReachable n d ∧ ledger d.shared = ledger c.shared ∧
      hands d = hands c) ?_ ⟨hc, rfl, rfl⟩
    rintro d t s p ⟨hd, hledger, hhands⟩ ⟨hm, hawaited⟩
    have hd' := hd.next t hm
    have hafter := hands_after hd hm
    have hown : hands (d.after t s p) t = hand s.tasks p := by rw [hafter, Function.update_self]
    rw [← hledger, ← hhands] at hs
    obtain ⟨hsame, hhand⟩ := handles_starved (reachable_accounted hd) hs
      (fun j hj => hand_worker (reachable_role hd t) _ hj)
      (fun j hj => hand_worker (reachable_role hd' t) _ (hown ▸ hj)) (move_handles hd hm) hawaited
    refine ⟨hd', hsame.trans hledger, ?_⟩
    rw [hafter, hhand]
    exact (Function.update_eq_self t (hands d)).trans hhands
  obtain ⟨hd', hledger, hhands⟩ := hinv
  exact ⟨hledger, hhands, fun hn => starved_busy (hledger ▸ hhands ▸ hs) hn hd'⟩

theorem starved_stays_nested : ∃ c d : PoolConfig, c.shared.accepted = [(0, 0), (1, 0)] ∧
    c.pc 0 = .running (1, 0) ∧ d.pc 2 = .stopTest ∧
    ledger d.shared = ledger c.shared ∧ hands d = hands c ∧ d.shared.halted = false := by
  have h₀ : PoolReachable 1 (constructed 1) := .refl
  have hsubmit := ((((h₀.start 1).next (.submit none rfl)).next (.checkRunning rfl)).next .make).next
    (.push (.checkOpen rfl))
  have hlink := ((((hsubmit.next (.push (.alloc 1 rfl))).next (.push (.lockTail rfl))).next
    (.push (.recheckOpen rfl))).next (.push .fill)).next (.push .link)
  have h₁ := h₀.alone ((((hlink.next (.push .advance)).next (.push .unlockTail)).next
    (.push (.notifyNone fun _ => rfl))).next .accept)
  have htest := (((h₁.start 0).next .start).next (.wait (.lockWait nofun rfl))).next
    (.wait (.testOpen rfl))
  have hpop := ((((htest.next (.wait (.waitTail rfl))).next (.wait (.waitElement nofun))).next
    (.wait (.lastTail rfl))).next (.wait (.lastElement nofun))).next (.wait (.popHead rfl))
  have h₂ := h₁.alone (((hpop.next (.wait .unlockPopped)).next (.wait (.take rfl rfl))).next .invoke)
  have hsubmit := ((((h₂.start 0).next (.submit (some (1, 0)) rfl)).next (.checkRunning rfl)).next
    .make).next (.push (.checkOpen rfl))
  have hlink := ((((hsubmit.next (.push (.alloc 2 rfl))).next (.push (.lockTail rfl))).next
    (.push (.recheckOpen rfl))).next (.push .fill)).next (.push .link)
  have h₃ := h₂.alone ((((hlink.next (.push .advance)).next (.push .unlockTail)).next
    (.push (.notifyNone fun _ => rfl))).next .accept)
  have hstay {e : PoolConfig} (_ : PoolReachable 1 e) :
      Steps (Awaiting (fun j k => j = (1, 0) ∧ k = (0, 0)) (PoolMove 1)) e e := .refl
  have hd := ((hstay h₃).next 2 ⟨.stop, awaited_same rfl⟩).next 2 ⟨.lockStop rfl, awaited_same rfl⟩
  have hnot : ((0, 0) : Task) ∉ [((1, 0) : Task)] := by decide
  obtain ⟨hledger, hhands, hhalted⟩ := starved_stays h₃ (fun w hw => by
    rw [Nat.lt_one_iff.mp hw]
    exact ⟨(1, 0), (0, 0), rfl, ⟨rfl, rfl⟩, hnot⟩) hd
  exact ⟨_, _, rfl, rfl, rfl, hledger, hhands, hhalted Nat.zero_lt_one⟩

end Forward

end Lzhlib.PoolWaiting
