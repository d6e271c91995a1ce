import Lzhlib.Overtaking
import Lzhlib.PoolDrain

namespace Lzhlib.PoolOrder

open Interleaving ThreadQueue QueueHistory ThreadPool PoolRoles PoolHistory PoolDrain Custody Overtaking

variable {n t u : Nat} {c d : PoolConfig} {s s' : Pool} {p p' : PoolPc} {j k : Task}

theorem hands_workers (hc : PoolReachable n c) (hj : (hands c t).item = some j) : t ∈ Finset.range n :=
  Finset.mem_range.mpr (hand_worker (reachable_role hc t) _ hj)

theorem reachable_ordered (h : PoolReachable n c) : Ordered n (ledger c.shared) := by
  have hinv : PoolReachable n c ∧ Ordered n (ledger c.shared) := by
    refine h.invariant (I := fun c => PoolReachable n c ∧ Ordered n (ledger c.shared)) ?_
      ⟨.refl, fun m j hm => ?_⟩
    · rintro c t s p ⟨hc, hi⟩ hm
      have hc' := hc.next t hm
      refine ⟨hc', ?_⟩
      rw [← Finset.card_range n] at hi ⊢
      apply handles_ordered (reachable_accounted hc) (move_handles hc hm) (taken_nodup hc)
        (fun u j => hands_workers hc) ?_ hi
      intro j hj
      apply hands_workers hc' (j := j)
      rw [hands, after_pc_self]
      exact congrArg Hand.item hj
    · exact absurd (List.prefix_nil.mp hm) (by simp)
  exact hinv.2

section Later

theorem writes_ids {l l' : Journal} {x x' : Stage} (hw : Writes t l x l' x') : l.ids <+: l'.ids := by
  cases hw with
  | appended => exact List.prefix_append _ _
  | nothing | failed | called | threw | returned => exact List.prefix_rfl

theorem steps_linked (hc : PoolReachable n c) (h : Steps (PoolMove n) c d) :
    PoolReachable n d ∧ (submissions c.shared).ids <+: (submissions d.shared).ids := by
  refine h.invariant (I := fun d => PoolReachable n d ∧
    (submissions c.shared).ids <+: (submissions d.shared).ids) ?_ ⟨hc, List.prefix_rfl⟩
  rintro d t s p ⟨hd, hi⟩ hm
  exact ⟨hd.next t hm, hi.trans (writes_ids
    (move_submissions hm (reachable_role hd t) (reachable_carries hd t)))⟩

theorem linked_before {m : List Task} (hc : PoolReachable n c) (hd : Steps (PoolMove n) c d)
    (hk : c.shared.submits k.1 ≤ k.2) (hm : m ++ [k] <+: (submissions d.shared).ids) :
    (submissions c.shared).ids <+: m := by
  have hnot : k ∉ (submissions c.shared).ids := fun hin =>
    absurd hk (Nat.not_le_of_lt ((reachable_submissions hc).1.calls k (Or.inl hin)))
  have hlast : k ∈ m ++ [k] := List.mem_append_right _ (List.mem_singleton_self k)
  obtain hpre | hpre := List.prefix_or_prefix_of_prefix (steps_linked hc hd).2 hm
  · obtain heq | hpre := List.prefix_concat_iff.mp hpre
    · exact absurd (heq ▸ hlast) hnot
    · exact hpre
  · exact absurd (hpre.subset hlast) hnot

/-- When a task is started, fewer than `n` of the tasks whose submits had
returned before its own was called are still to be finished. One worker runs
them strictly one after the other. -/
theorem steps_overtaken (hc : PoolReachable n c) (hd : Steps (PoolMove n) c d)
    (hk : c.shared.submits k.1 ≤ k.2) (hinvoked : k ∈ d.shared.invoked) :
    (c.shared.accepted.filter (· ∉ d.shared.finished)).length < n := by
  have hd' := (steps_linked hc hd).1
  obtain ⟨m, rest, hm⟩ := List.append_of_mem ((reachable_accounted hd').invoked k hinvoked)
  have hpre : m ++ [k] <+: taken d.shared := ⟨rest, by rw [List.append_assoc]; exact hm.symm⟩
  have hbefore := linked_before hc hd hk (hpre.trans (taken_in_order hd'))
  have hrecorded := (reachable_submissions hc).1
  have hsub : c.shared.accepted.filter (· ∉ d.shared.finished) ⊆ unfinished (ledger d.shared) m := by
    intro j hj
    obtain ⟨hj, hnot⟩ := List.mem_filter.mp hj
    exact mem_unfinished.mpr ⟨hbefore.subset (hrecorded.returned j hj), of_decide_eq_true hnot⟩
  have hle := (List.subperm_of_subset (hrecorded.returned_nodup.filter _) hsub).length_le
  exact Nat.lt_of_le_of_lt hle (reachable_ordered hd' m k hpre)

theorem steps_overtaken_two : ∃ c d : PoolConfig, c.shared.accepted = [(1, 0)] ∧
    Steps (PoolMove 1) c d ∧ (1, 1) ∈ d.shared.invoked ∧
    (c.shared.accepted.filter (· ∉ d.shared.finished)).length < 1 := by
  have h₀ : PoolReachable 1 (constructed 1) := .refl
  have hsubmit := ((((h₀.start 1).next (.submit none rfl)).next (.checkRunning rfl)).next .make).next
    (.push (.checkOpen rfl))
  have hlink := ((((hsubmit.next (.push (.alloc 1 rfl))).next (.push (.lockTail rfl))).next
    (.push (.recheckOpen rfl))).next (.push .fill)).next (.push .link)
  have h₁ := h₀.alone ((((hlink.next (.push .advance)).next (.push .unlockTail)).next
    (.push (.notifyNone fun _ => rfl))).next .accept)
  have hstay {e f : PoolConfig} (_ : Steps (PoolMove 1) e f) : Steps (PoolMove 1) f f := .refl
  have d₁ := hstay h₁
  have hsubmit := ((((d₁.start 1).next (.submit none rfl)).next (.checkRunning rfl)).next .make).next
    (.push (.checkOpen rfl))
  have hlink := ((((hsubmit.next (.push (.alloc 2 rfl))).next (.push (.lockTail rfl))).next
    (.push (.recheckOpen rfl))).next (.push .fill)).next (.push .link)
  have d₂ := d₁.alone ((((hlink.next (.push .advance)).next (.push .unlockTail)).next
    (.push (.notifyNone fun _ => rfl))).next .accept)
  have htest := (((d₂.start 0).next .start).next (.wait (.lockWait nofun rfl))).next
    (.wait (.testOpen rfl))
  have hpop := ((((htest.next (.wait (.waitTail rfl))).next (.wait (.waitElement nofun))).next
    (.wait (.lastTail rfl))).next (.wait (.lastElement nofun))).next (.wait (.popHead rfl))
  have d₃ := d₂.alone ((((hpop.next (.wait .unlockPopped)).next (.wait (.take rfl rfl))).next
    .invoke).next .finish)
  have htest := ((d₃.start 0).next (.wait (.lockWait nofun rfl))).next (.wait (.testOpen rfl))
  have hpop := ((((htest.next (.wait (.waitTail rfl))).next (.wait (.waitElement nofun))).next
    (.wait (.lastTail rfl))).next (.wait (.lastElement nofun))).next (.wait (.popHead rfl))
  have d₄ := d₃.alone (((hpop.next (.wait .unlockPopped)).next (.wait (.take rfl rfl))).next .invoke)
  have hin : (1, 1) ∈ [((1, 0) : Task), (1, 1)] := by decide
  exact ⟨_, _, rfl, d₄, hin, steps_overtaken h₁ d₄ (k := (1, 1)) (Nat.le_refl 1) hin⟩

end Later

end Lzhlib.PoolOrder
