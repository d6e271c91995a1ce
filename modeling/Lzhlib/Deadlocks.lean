import Lzhlib.Custody

namespace Lzhlib.Deadlocks

open Custody

variable {ι α : Type} {waits : α → α → Prop} {l l' : Ledger α} {hands : ι → Hand α} {t : ι}
  {x : Hand α} {j : α} {m : List α}

/-- What becomes finished waits for nothing that is not. -/
def Awaited (waits : α → α → Prop) (l l' : Ledger α) : Prop :=
  ∀ j ∈ l'.finished, j ∉ l.finished → ∀ k, waits j k → k ∈ l.finished

theorem awaited_same (h : l'.finished = l.finished) : Awaited waits l l' :=
  fun _ hj hnot => absurd (h ▸ hj) hnot

/-- Every worker is busy with something that waits for what no worker has taken. -/
def Starved (waits : α → α → Prop) (worker : ι → Prop) (l : Ledger α) (hands : ι → Hand α) : Prop :=
  ∀ w, worker w → ∃ j k, hands w = .running j ∧ waits j k ∧ k ∉ l.popped

theorem handles_starved {worker : ι → Prop} (h : Accounted l hands)
    (hs : Starved waits worker l hands) (hown : ∀ j, (hands t).item = some j → worker t)
    (hnext : ∀ j, x.item = some j → worker t)
    (hm : Handles l (hands t) l' x) (haw : Awaited waits l l') : l' = l ∧ x = hands t := by
  generalize hy : hands t = y at hm hown
  cases hm with
  | nothing => exact ⟨rfl, rfl⟩
  | takes =>
      obtain ⟨j, k, hj, -⟩ := hs t (hnext _ rfl)
      cases hy.symm.trans hj
  | invokes =>
      obtain ⟨j, k, hj, -⟩ := hs t (hown _ rfl)
      cases hy.symm.trans hj
  | @finishes i =>
      obtain ⟨j, k, hj, hk, hnot⟩ := hs t (hown i rfl)
      cases hy.symm.trans hj
      have hfinished := haw i (List.mem_append_right _ (List.mem_singleton_self i))
        (h.running t i hy).2 k hk
      exact absurd (h.invoked k (h.finished k hfinished)) hnot

end Lzhlib.Deadlocks
