import Lzhlib.QueueClose

namespace Lzhlib.QueueHistory

open Interleaving ThreadQueue QueueLocks QueueChain QueueClose

variable {T : Type}

inductive Stage
  | outside
  | pending (i : Nat)
  | appended (i : Nat)

def stage : Pc T → Stage
  | .pushCheck i _ | .pushAlloc i _ | .pushLock i _ _ | .pushRecheck i _ _ | .pushFill i _ _
  | .pushLink i _ _ | .pushAdvance i _ _ | .pushUnwind i _ | .pushFree i _ => .pending i
  | .pushUnlock i | .pushNotify i => .appended i
  | _ => .outside

/-- The history of the pushes. `ids` are those that appended their value. -/
structure Journal where
  ids : List PushId
  returned : List PushId
  threw : List PushId
  calls : Nat → Nat

def journal (s : Shared T) : Journal := ⟨s.queued.map Prod.fst, s.returned, s.threw, s.calls⟩

inductive Writes (t : Nat) : Journal → Stage → Journal → Stage → Prop
  | nothing {j x} : Writes t j x j x
  | failed {j i} : Writes t j (.pending i) j .outside
  | called {j} : Writes t j .outside
      { j with calls := Function.update j.calls t (j.calls t + 1) } (.pending (j.calls t))
  | threw {j i} : Writes t j (.pending i) { j with threw := (t, i) :: j.threw } .outside
  | appended {j i} : Writes t j (.pending i) { j with ids := j.ids ++ [(t, i)] } (.appended i)
  | returned {j i} : Writes t j (.appended i) { j with returned := (t, i) :: j.returned } .outside

variable {c d : QueueConfig T} {t u : Nat} {s s' : Shared T} {p p' : Pc T} {j j' : Journal}
  {x x' y : Stage}

theorem move_writes (hm : Move t s p s' p') : Writes t (journal s) (stage p) (journal s') (stage p') := by
  cases hm
  case checkClosed h => exact .threw
  case free => exact .threw
  case advance i v a =>
      have hjournal : journal (T := T) { s.modifyNode a ({ · with owner := none }) with
          tail := a, queued := s.queued ++ [((t, i), v)] } =
          { journal s with ids := (journal s).ids ++ [(t, i)] } := by
        simp [journal, Shared.modifyNode]
      rw [hjournal]
      exact .appended
  case notifyNone h => exact .returned
  case notifyOne u h => exact .returned
  case allocFails => exact .failed
  all_goals exact .nothing

theorem stage_finished (h : p.Finished) : stage p = .outside := by
  cases p <;> first | rfl | exact absurd h id

theorem client_writes (hm : ClientMove t s p s' p') :
    Writes t (journal s) (stage p) (journal s') (stage p') := by
  cases hm with
  | move h => exact move_writes h
  | push v => exact .called
  | pop k => exact .nothing
  | close => exact .nothing
  | finish h =>
      rw [stage_finished h]
      exact .nothing

structure Recorded (j : Journal) : Prop where
  nodup : j.ids.Nodup
  returned_nodup : j.returned.Nodup
  returned : ∀ k ∈ j.returned, k ∈ j.ids
  threw : ∀ k ∈ j.threw, k ∉ j.ids
  calls : ∀ k, k ∈ j.ids ∨ k ∈ j.threw → k.2 < j.calls k.1

/-- The history of a thread's own calls, when its present call has come to `x`. -/
structure Tracks (t : Nat) (j : Journal) (x : Stage) : Prop where
  done : ∀ i, (t, i) ∈ j.ids → (t, i) ∈ j.returned ∨ x = .appended i
  pending : ∀ i, x = .pending i → i < j.calls t ∧ (t, i) ∉ j.ids ∧ (t, i) ∉ j.threw
  appended : ∀ i, x = .appended i → (t, i) ∈ j.ids ∧ (t, i) ∉ j.returned

theorem writes_tracks (h : Writes t j x j' x') (hu : u ≠ t) (hl : Tracks u j y) : Tracks u j' y := by
  obtain ⟨hdone, hpending, happended⟩ := hl
  cases h with
  | nothing => exact ⟨hdone, hpending, happended⟩
  | failed => exact ⟨hdone, hpending, happended⟩
  | called =>
      have hcalls : Function.update j.calls t (j.calls t + 1) u = j.calls u :=
        Function.update_of_ne hu _ _
      exact ⟨hdone, fun i hy => by simpa only [hcalls] using hpending i hy, happended⟩
  | threw => exact ⟨hdone, fun i hy => by simpa [hu] using hpending i hy, happended⟩
  | appended =>
      refine ⟨fun i hi => hdone i ?_, fun i hy => ?_, fun i hy => ?_⟩
      · simpa [hu] using hi
      · simpa [hu] using hpending i hy
      · simpa [hu] using happended i hy
  | returned =>
      refine ⟨fun i hi => ?_, hpending, fun i hy => ?_⟩
      · simpa [hu] using hdone i hi
      · simpa [hu] using happended i hy

theorem Tracks.returned (h : Tracks t j x) (hx : ∀ i, x ≠ .appended i) {i : Nat}
    (hi : (t, i) ∈ j.ids) : (t, i) ∈ j.returned := (h.done i hi).resolve_right (hx i)

theorem called_recorded (hg : Recorded j) (hl : Tracks t j .outside) :
    Recorded { j with calls := Function.update j.calls t (j.calls t + 1) } ∧
      Tracks t { j with calls := Function.update j.calls t (j.calls t + 1) }
        (.pending (j.calls t)) := by
  have hself : Function.update j.calls t (j.calls t + 1) t = j.calls t + 1 :=
    Function.update_self _ _ _
  have hle (u : Nat) : j.calls u ≤ Function.update j.calls t (j.calls t + 1) u := by
    by_cases hu : u = t
    · subst u
      rw [hself]
      exact Nat.le_succ _
    · exact Nat.le_of_eq (Function.update_of_ne hu _ _).symm
  refine ⟨⟨hg.nodup, hg.returned_nodup, hg.returned, hg.threw, fun k hk => ?_⟩, ?_, ?_, nofun⟩
  · exact Nat.lt_of_lt_of_le (hg.calls k hk) (hle k.1)
  · exact fun k hk => Or.inl (hl.returned nofun hk)
  · rintro k ⟨⟩
    refine ⟨Nat.lt_of_lt_of_eq (Nat.lt_succ_self _) hself.symm, fun hk => ?_, fun hk => ?_⟩
    · exact Nat.lt_irrefl _ (hg.calls _ (Or.inl hk))
    · exact Nat.lt_irrefl _ (hg.calls _ (Or.inr hk))

theorem threw_recorded {i : Nat} (hg : Recorded j) (hl : Tracks t j (.pending i)) :
    Recorded { j with threw := (t, i) :: j.threw } ∧
      Tracks t { j with threw := (t, i) :: j.threw } .outside := by
  obtain ⟨hlt, hnot, -⟩ := hl.pending i rfl
  refine ⟨⟨hg.nodup, hg.returned_nodup, hg.returned, fun k hk => ?_, fun k hk => ?_⟩, ?_,
    nofun, nofun⟩
  · obtain rfl | hk := List.mem_cons.mp hk
    · exact hnot
    · exact hg.threw k hk
  · obtain hk | hk := hk
    · exact hg.calls k (Or.inl hk)
    · obtain rfl | hk := List.mem_cons.mp hk
      · exact hlt
      · exact hg.calls k (Or.inr hk)
  · exact fun k hk => Or.inl (hl.returned nofun hk)

theorem appended_recorded {i : Nat} (hg : Recorded j) (hl : Tracks t j (.pending i)) :
    Recorded { j with ids := j.ids ++ [(t, i)] } ∧
      Tracks t { j with ids := j.ids ++ [(t, i)] } (.appended i) := by
  obtain ⟨hlt, hnot, hnew⟩ := hl.pending i rfl
  have hdisjoint : ∀ k ∈ j.ids, ∀ l ∈ [(t, i)], k ≠ l := by
    rintro k hk l hl rfl
    exact hnot (List.mem_singleton.mp hl ▸ hk)
  refine ⟨⟨?_, hg.returned_nodup, fun k hk => ?_, fun k hk hm => ?_, fun k hk => ?_⟩,
    fun k hk => ?_, nofun, ?_⟩
  · exact List.nodup_append.mpr ⟨hg.nodup, List.nodup_singleton _, hdisjoint⟩
  · exact List.mem_append_left _ (hg.returned k hk)
  · obtain hm | hm := List.mem_append.mp hm
    · exact hg.threw k hk hm
    · exact hnew (List.mem_singleton.mp hm ▸ hk)
  · obtain hk | hk := hk
    · obtain hk | hk := List.mem_append.mp hk
      · exact hg.calls k (Or.inl hk)
      · rw [List.mem_singleton.mp hk]
        exact hlt
    · exact hg.calls k (Or.inr hk)
  · obtain hk | hk := List.mem_append.mp hk
    · exact Or.inl (hl.returned nofun hk)
    · cases List.mem_singleton.mp hk
      exact Or.inr rfl
  · rintro k ⟨⟩
    refine ⟨List.mem_append_right _ (List.mem_singleton_self _), fun hk => ?_⟩
    exact hnot (hg.returned _ hk)

theorem returned_recorded {i : Nat} (hg : Recorded j) (hl : Tracks t j (.appended i)) :
    Recorded { j with returned := (t, i) :: j.returned } ∧
      Tracks t { j with returned := (t, i) :: j.returned } .outside := by
  obtain ⟨hmem, hnew⟩ := hl.appended i rfl
  refine ⟨⟨hg.nodup, List.nodup_cons.mpr ⟨hnew, hg.returned_nodup⟩, fun k hk => ?_, hg.threw,
    hg.calls⟩, fun k hk => ?_, nofun, nofun⟩
  · obtain rfl | hk := List.mem_cons.mp hk
    · exact hmem
    · exact hg.returned k hk
  · obtain hk | hk := hl.done k hk
    · exact Or.inl (List.mem_cons_of_mem _ hk)
    · cases hk
      exact Or.inl List.mem_cons_self

theorem writes_recorded (h : Writes t j x j' x') (hg : Recorded j) (hl : Tracks t j x) :
    Recorded j' ∧ Tracks t j' x' := by
  cases h with
  | nothing => exact ⟨hg, hl⟩
  | failed => exact ⟨hg, fun k hk => Or.inl (hl.returned nofun hk), nofun, nofun⟩
  | called => exact called_recorded hg hl
  | threw => exact threw_recorded hg hl
  | appended => exact appended_recorded hg hl
  | returned => exact returned_recorded hg hl

theorem recorded_initial : Recorded (journal (initial : QueueConfig T).shared) :=
  ⟨List.nodup_nil, List.nodup_nil, nofun, nofun, nofun⟩

theorem steps_recorded {σ π : Type} {move : Nat → σ → π → σ → π → Prop} {c d : Config Nat σ π}
    (f : σ → Journal) (g : π → Stage)
    (hstep : ∀ d t s p, Steps move c d → move t d.shared (d.pc t) s p →
      Writes t (f d.shared) (g (d.pc t)) (f s) (g p))
    (hstart : Recorded (f c.shared)) (hc : ∀ t, Tracks t (f c.shared) (g (c.pc t)))
    (h : Steps move c d) :
    Recorded (f d.shared) ∧ ∀ t, Tracks t (f d.shared) (g (d.pc t)) := by
  induction h with
  | refl => exact ⟨hstart, hc⟩
  | tail hd hlast ih =>
      obtain ⟨t, s, p, hm, rfl⟩ := hlast
      obtain ⟨hg, hl⟩ := ih
      have hwrites := hstep _ t s p hd hm
      obtain ⟨hg', hl'⟩ := writes_recorded hwrites hg (hl t)
      refine ⟨hg', ?_⟩
      exact after_forall (P := fun u q => Tracks u (f s) (g q)) _ s hl'
        fun u hu => writes_tracks hwrites hu (hl u)

theorem tracks_start (hids : j.ids = []) : Tracks t j .outside :=
  ⟨fun _ hi => absurd (hids ▸ hi) List.not_mem_nil, nofun, nofun⟩

theorem reachable_recorded (h : Reachable c) :
    Recorded (journal c.shared) ∧ ∀ t, Tracks t (journal c.shared) (stage (c.pc t)) :=
  steps_recorded journal stage (fun _ _ _ _ _ hm => client_writes hm) recorded_initial
    (fun _ => tracks_start rfl) h

/-- "Closed and drained" is final: the queue stays empty and takes nothing
more. When a consumer that loops on `wait_and_pop` has ended and no push is
running, what was popped is exactly what the pushes that returned had appended. -/
theorem drained_complete (hc : Reachable c) :
    (c.shared.drained = true → ∀ d, Steps ClientMove c d →
      d.shared.head = some d.shared.tail ∧ d.shared.queued = c.shared.queued ∧
        ∀ j ∈ d.shared.returned, j ∈ (journal c.shared).ids) ∧
    (∀ j ∈ c.shared.threw, j ∉ (journal c.shared).ids) ∧
    (c.shared.ended = true → (∀ t, stage (c.pc t) = .outside) →
      c.shared.popped = c.shared.queued.map (fun x => some x.2) ∧ (journal c.shared).ids.Nodup ∧
        c.shared.returned.Perm (journal c.shared).ids) := by
  obtain ⟨hg, hl⟩ := reachable_recorded hc
  refine ⟨fun hdrained d hd => ?_, hg.threw, fun hended hout => ⟨?_, hg.nodup, ?_⟩⟩
  · obtain ⟨hempty, hqueued⟩ := drained_final hc hdrained hd
    refine ⟨hempty, hqueued, fun j hj => ?_⟩
    have hmem := (reachable_recorded (hc.trans hd)).1.returned j hj
    rwa [journal, hqueued] at hmem
  · obtain ⟨isSealed, hs, -⟩ := reachable_sealed hc
    obtain ⟨chain, hchain, -⟩ := reachable_chained hc
    have hnil := hchain.nil_iff.mpr (hs.drained (hs.ended hended)).2
    have hbalance := hchain.balance
    rw [hnil] at hbalance
    exact (List.append_nil _).symm.trans hbalance
  · apply (List.perm_ext_iff_of_nodup hg.returned_nodup hg.nodup).mpr
    rintro ⟨t, i⟩
    refine ⟨hg.returned _, fun hj => ?_⟩
    exact (hl t).returned (by rw [hout t]; nofun) hj

theorem drained_complete_seven : ∃ c : QueueConfig Nat,
    c.shared.drained = true ∧ c.shared.threw = [(1, 1)] ∧ c.shared.popped = [some 7] ∧
    c.shared.popped = c.shared.queued.map (fun x => some x.2) ∧ (journal c.shared).ids.Nodup ∧
    c.shared.returned.Perm (journal c.shared).ids := by
  have h₀ : Reachable (initial : QueueConfig Nat) := .refl
  have hpush := ((((h₀.start 1).next (.push 7)).next (.move (.checkOpen rfl))).next
    (.move (.alloc 1 rfl))).next (.move (.lockTail rfl))
  have hlink := (((hpush.next (.move (.recheckOpen rfl))).next (.move .fill)).next
    (.move .link)).next (.move .advance)
  have h₁ := h₀.call (((hlink.next (.move .unlockTail)).next
    (.move (.notifyNone fun _ => rfl))).next (.finish trivial))
  have h₂ := h₁.call (((((h₁.start 3).next .close).next (.move .storeClosed)).next
    (.move .notifyAll)).next (.finish trivial))
  have h₃ := h₂.call ((((h₂.start 1).next (.push 8)).next (.move (.checkClosed rfl))).next
    (.finish trivial))
  have hpop := ((((h₃.start 2).next (.pop .waitAndPop)).next (.move (.lockWait nofun rfl))).next
    (.move (.testClosed rfl))).next (.move (.lastTail rfl))
  have htake := ((hpop.next (.move (.lastElement nofun))).next (.move (.popHead rfl))).next
    (.move .unlockPopped)
  have h₄ := h₃.call ((htake.next (.move (.take rfl rfl))).next (.finish trivial))
  have hend := ((((h₄.start 2).next (.pop .waitAndPop)).next (.move (.lockWait nofun rfl))).next
    (.move (.testClosed rfl))).next (.move (.lastTail rfl))
  have h₅ := h₄.call (((hend.next (.move (.lastDrained rfl))).next (.move .unlockMissed)).next
    (.finish trivial))
  exact ⟨_, rfl, rfl, rfl, (drained_complete h₅).2.2 rfl fun _ => rfl⟩

end Lzhlib.QueueHistory
