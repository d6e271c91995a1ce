import Mathlib.Data.List.Nodup

namespace Lzhlib.Segments

variable {α β : Type} {cell cell' : α → Option (β × Option α)}

/-- The cells met from `start` on, with their contents, until `stop`. -/
def Segment (cell : α → Option (β × Option α)) : Option α → List (α × β) → α → Prop
  | start, [], stop => start = some stop
  | start, (a, v) :: l, stop => start = some a ∧ ∃ n, cell a = some (v, n) ∧ Segment cell n l stop

theorem segment_start {start : Option α} {l : List (α × β)} {stop : α}
    (hs : Segment cell start l stop) : ∃ a, start = some a := by
  cases l with
  | nil => exact ⟨stop, hs⟩
  | cons x l => exact ⟨x.1, hs.1⟩

theorem segment_congr {start : Option α} {l : List (α × β)} {stop : α}
    (h : ∀ a ∈ l.map Prod.fst, cell' a = cell a) (hs : Segment cell start l stop) :
    Segment cell' start l stop := by
  induction l generalizing start with
  | nil => exact hs
  | cons x l ih =>
      obtain ⟨hstart, n, hn, hrest⟩ := hs
      refine ⟨hstart, n, (h x.1 List.mem_cons_self).trans hn, ih ?_ hrest⟩
      exact fun a ha => h a (List.mem_cons_of_mem _ ha)

theorem segment_append {start : Option α} {l : List (α × β)} {stop b : α} {v : β}
    (hs : Segment cell start l stop) (hb : cell stop = some (v, some b)) :
    Segment cell start (l ++ [(stop, v)]) b := by
  induction l generalizing start with
  | nil => exact ⟨hs, some b, hb, rfl⟩
  | cons x l ih =>
      obtain ⟨hstart, n, hn, hrest⟩ := hs
      exact ⟨hstart, n, hn, ih hrest⟩

theorem segment_cell {start : Option α} {l : List (α × β)} {stop : α}
    (hs : Segment cell start l stop) : ∀ a ∈ l.map Prod.fst, ∃ v n, cell a = some (v, n) := by
  induction l generalizing start with
  | nil => exact fun a ha => absurd ha List.not_mem_nil
  | cons x l ih =>
      obtain ⟨-, n, hn, hrest⟩ := hs
      intro a ha
      obtain rfl | ha := List.mem_cons.mp ha
      · exact ⟨_, n, hn⟩
      · exact ih hrest a ha

theorem segment_eq_nil_iff {start : Option α} {l : List (α × β)} {stop : α}
    (hs : Segment cell start l stop) (hstop : stop ∉ l.map Prod.fst) :
    l = [] ↔ start = some stop := by
  cases l with
  | nil => exact iff_of_true rfl hs
  | cons x l =>
      apply iff_of_false (List.cons_ne_nil x l)
      rw [hs.1]
      rintro h
      exact hstop (Option.some.inj h ▸ List.mem_cons_self)

end Lzhlib.Segments
