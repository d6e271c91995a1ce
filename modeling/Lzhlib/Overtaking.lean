import Lzhlib.Custody
import Mathlib.Data.Finset.Card
import Mathlib.Data.List.Basic

namespace Lzhlib.Overtaking

open Custody

variable {ι α : Type} [DecidableEq ι] [DecidableEq α]

def unfinished (l : Ledger α) (m : List α) : List α := m.filter (· ∉ l.finished)

theorem mem_unfinished {l : Ledger α} {m : List α} {j : α} :
    j ∈ unfinished l m ↔ j ∈ m ∧ j ∉ l.finished := by
  rw [unfinished, List.mem_filter, decide_eq_true_eq]

/-- Whatever was popped, fewer than `n` of those popped before it are unfinished. -/
def Ordered (n : Nat) (l : Ledger α) : Prop :=
  ∀ m j, m ++ [j] <+: l.popped → (unfinished l m).length < n

theorem unfinished_le {l l' : Ledger α} (h : l.finished ⊆ l'.finished) (m : List α) :
    (unfinished l' m).length ≤ (unfinished l m).length := by
  apply List.Sublist.length_le
  apply List.monotone_filter_right
  intro a ha
  rw [decide_eq_true_eq] at ha ⊢
  exact fun hin => ha (h hin)

variable {l l' : Ledger α} {hands : ι → Hand α} {workers : Finset ι} {t : ι} {x : Hand α}

theorem unfinished_lt (h : Accounted l hands) (hnodup : l.popped.Nodup)
    (hworkers : ∀ u j, (hands u).item = some j → u ∈ workers) (ht : t ∈ workers)
    (hempty : hands t = .empty) : (unfinished l l.popped).length < workers.card := by
  have hmem : ((unfinished l l.popped).toFinset.image some) ⊆
      (workers.erase t).image fun u => (hands u).item := by
    intro y hy
    obtain ⟨j, hj, rfl⟩ := Finset.mem_image.mp hy
    obtain ⟨hpopped, hnot⟩ := mem_unfinished.mp (List.mem_toFinset.mp hj)
    obtain ⟨u, hu⟩ := (h.whereabouts j hpopped).resolve_left hnot
    refine Finset.mem_image.mpr ⟨u, Finset.mem_erase.mpr ⟨?_, hworkers u j hu⟩, hu⟩
    rintro rfl
    rw [hempty] at hu
    cases hu
  calc (unfinished l l.popped).length
      = (unfinished l l.popped).toFinset.card := (List.toFinset_card_of_nodup (hnodup.filter _)).symm
    _ = ((unfinished l l.popped).toFinset.image some).card :=
        (Finset.card_image_of_injective _ (Option.some_injective α)).symm
    _ ≤ ((workers.erase t).image fun u => (hands u).item).card := Finset.card_le_card hmem
    _ ≤ (workers.erase t).card := Finset.card_image_le
    _ < workers.card := Finset.card_erase_lt_of_mem ht

theorem handles_ordered (h : Accounted l hands) (hm : Handles l (hands t) l' x)
    (hnodup : l.popped.Nodup) (hworkers : ∀ u j, (hands u).item = some j → u ∈ workers)
    (ht : ∀ j, x = .taken j → t ∈ workers) (ho : Ordered workers.card l) :
    Ordered workers.card l' := by
  generalize hy : hands t = y at hm
  cases hm with
  | nothing | invokes => exact ho
  | @takes j =>
      intro m k hmk
      obtain heq | hmk := List.prefix_concat_iff.mp hmk
      · obtain ⟨rfl, -⟩ := List.append_inj' heq rfl
        exact unfinished_lt h hnodup hworkers (ht j rfl) hy
      · exact ho m k hmk
  | finishes =>
      intro m k hmk
      exact Nat.lt_of_le_of_lt (unfinished_le (List.subset_append_left _ _) m) (ho m k hmk)

end Lzhlib.Overtaking
