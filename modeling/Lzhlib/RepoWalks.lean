import Lzhlib.RepoGrowth

namespace Lzhlib.RepoWalks

open Programs Machine ValueRepo ObjectPool RepoRefinement RepoRuns RepoTraversal RepoGrowth Runs

variable {V Args : Type}

structure Iterator where
  id : Nat
  deriving DecidableEq

def beginIterator : Prog (Repo V) Iterator := do return ⟨← firstId⟩

def endIterator : Iterator := ⟨nullIndex⟩

def Iterator.increment (it : Iterator) : Prog (Repo V) Iterator := do return ⟨← nextId it.id⟩

def Iterator.decrement (it : Iterator) : Prog (Repo V) Iterator := do return ⟨← prevId it.id⟩

/-- A loop in progress over a repository that is worked on meanwhile. -/
structure Walk (V : Type) where
  repo : Repo V
  cursor : Iterator

inductive WalkOp (Args : Type)
  | call (c : Call Args)
  | advance

def step (type : ValueType Args V) : WalkOp Args → Walk V → Except Exc (Option (Reply V)) × Walk V
  | .call c, w => ((outcome (exec type c) w.repo).1.map some,
      { w with repo := (outcome (exec type c) w.repo).2 })
  | .advance, w => match outcome (w.cursor.increment) w.repo with
    | (.ok it, r) => (.ok none, ⟨r, it⟩)
    | (.error e, r) => (.error e, ⟨r, w.cursor⟩)

/-- The iterator does not step past the end, and the object it stands at stays. -/
def Keeps : WalkOp Args → Walk V → Prop
  | .advance, w => w.cursor ≠ endIterator
  | .call (.removeObject i), w | .call (.returnObject i), w => i ≠ w.cursor.id
  | .call _, _ => True

def visits (type : ValueType Args V) : List (WalkOp Args) → Walk V → List Nat
  | [], w => [w.cursor.id]
  | .call c :: os, w => visits type os (step type (.call c) w).2
  | .advance :: os, w => w.cursor.id :: visits type os (step type .advance w).2

def Removed (i : Nat) (os : List (WalkOp Args)) : Prop :=
  .call (.removeObject i) ∈ os ∨ .call (.returnObject i) ∈ os

theorem removed_cons {i : Nat} {o : WalkOp Args} {os : List (WalkOp Args)} :
    Removed i (o :: os) ↔ Removed i [o] ∨ Removed i os := by
  simp only [Removed, List.mem_cons, List.not_mem_nil, or_false]
  tauto

theorem cursor_visited (type : ValueType Args V) {done os : List (WalkOp Args)} (h : done <+: os)
    (w : Walk V) : (run (step type) done w).2.cursor.id ∈ visits type os w := by
  induction os generalizing done w with
  | nil => simp [List.prefix_nil.mp h, run, visits]
  | cons o os ih =>
      cases done with
      | nil =>
          cases o with
          | call c => exact ih List.nil_prefix (step type (.call c) w).2
          | advance => exact List.mem_cons_self
      | cons d done =>
          obtain ⟨rfl, hdone⟩ := List.cons_prefix_cons.mp h
          cases d with
          | call c => exact ih hdone _
          | advance => exact List.mem_cons_of_mem _ (ih hdone _)

/-- What is to come grows by no call and loses what is removed. -/
def follow : WalkOp Args → Except Exc (Option (Reply V)) → List Nat → List Nat
  | .call (.removeObject i), .ok _, l | .call (.returnObject i), .ok _, l => l.erase i
  | .advance, .ok _, l => l.tail
  | _, _, l => l

section Ahead

variable {type : ValueType Args V} {p q : Pool V} {w : Walk V} {l : List Nat} {i c : Nat}

structure Ahead (p : Pool V) (c : Nat) (l : List Nat) : Prop where
  suffix : l <:+ p.live
  head : c = l.head?.getD nullIndex

theorem Ahead.ne_null {r : Repo V} (h : Ahead p c l) (hr : Refines r p) (hl : l ≠ []) : c ≠ nullIndex := by
  obtain ⟨j, rest, rfl⟩ := List.exists_cons_of_ne_nil hl
  have hj : j ∈ p.live := h.suffix.subset List.mem_cons_self
  rw [h.head]
  exact hr.ne_null (p.mem_slots.mp (Or.inl hj))

theorem Ahead.enlist (h : Ahead p c l) (hq : q.live = i :: p.live) : Ahead q c l :=
  ⟨hq ▸ h.suffix.trans (List.suffix_cons i p.live), h.head⟩

theorem erase_suffix {m : List Nat} (hm : m.Nodup) (h : l <:+ m) (i : Nat) : l.erase i <:+ m.erase i := by
  obtain ⟨front, rfl⟩ := h
  by_cases hi : i ∈ front
  · have hnot : i ∉ l := fun hl => (List.nodup_append.mp hm).2.2 i hi i hl rfl
    rw [List.erase_append_left _ hi, List.erase_of_not_mem hnot]
    exact ⟨_, rfl⟩
  · rw [List.erase_append_right _ hi]
    exact ⟨_, rfl⟩

theorem Ahead.drop (h : Ahead p c l) (hq : q.live = p.live.erase i) (hi : i ≠ c) :
    Ahead q c (l.erase i) := by
  refine ⟨hq ▸ erase_suffix (List.nodup_append.mp p.nodup).1 h.suffix i, ?_⟩
  cases l with
  | nil => exact h.head
  | cons j rest =>
      obtain rfl : c = j := h.head
      rw [List.erase_cons_tail (by simpa using hi.symm)]
      rfl

theorem ahead_call {c : Call Args} {res : Except Exc (Reply V)} (h : Ahead p w.cursor.id l)
    (heffect : Pool.Effect (Pool.settle type) p c res q) (hk : Keeps (.call c) w) :
    Ahead q w.cursor.id (follow (.call c) (res.map some) l) := by
  cases heffect with
  | refused e =>
      have hstays : follow (.call c) ((Except.error e : Except Exc (Reply V)).map some) l = l := by
        cases c <;> rfl
      rwa [hstays]
  | asked res hasks =>
      have hstays : follow (.call c) (res.map some) l = l := by
        cases c <;> first | rfl | cases hasks
      rwa [hstays]
  | @assigned _ args i q hq =>
      exact h.enlist ((settle_frame type args i q).1.trans (reuse_live hq).2.2.1)
  | reused hq => exact h.enlist (reuse_live hq).2.2.1
  | removed | returned => exact h.drop rfl hk

theorem follow_sublist (c : Call Args) (res : Except Exc (Option (Reply V))) (l : List Nat) :
    (follow (.call c) res l).Sublist l := by
  cases res with
  | error e => cases c <;> exact List.Sublist.refl l
  | ok reply =>
      cases c with
      | removeObject i | returnObject i => exact List.erase_sublist
      | _ => exact List.Sublist.refl l

theorem mem_follow {c : Call Args} (res : Except Exc (Option (Reply V))) (hi : i ∈ l) :
    i ∈ follow (.call c) res l ∨ Removed i [.call c] := by
  cases res with
  | error e => exact Or.inl (by cases c <;> exact hi)
  | ok reply =>
      cases c with
      | removeObject j | returnObject j =>
          by_cases hij : i = j
          · right
            simp [Removed, hij]
          · exact Or.inl ((List.mem_erase_of_ne hij).mpr hi)
      | _ => exact Or.inl hi

theorem demandLive_free {α : Type} {e : Exc} {k : i ∈ p.live → Except Exc α × Pool V}
    (hk : ∀ h, (k h).2.live = p.live.erase i) : i ∉ (p.demandLive i e k).2.live := by
  by_cases hi : i ∈ p.live
  · rw [Pool.demandLive_live hi, hk hi]
    exact (List.nodup_append.mp p.nodup).1.not_mem_erase
  · rw [Pool.demandLive, dif_neg hi]
    split <;> exact hi

theorem removed_free {c : Call Args} (h : Removed i [.call c]) (p : Pool V) :
    i ∉ (Pool.exec (Pool.settle type) c p).2.live := by
  obtain hc | hc := h
  · obtain rfl : .removeObject i = c := WalkOp.call.inj (List.mem_singleton.mp hc)
    exact demandLive_free fun _ => rfl
  · obtain rfl : .returnObject i = c := WalkOp.call.inj (List.mem_singleton.mp hc)
    exact demandLive_free fun _ => rfl

theorem Ahead.call (h : Ahead p w.cursor.id l) {c : Call Args} (hk : Keeps (.call c) w) :
    ∃ l', Ahead (Pool.exec (Pool.settle type) c p).2 w.cursor.id l' ∧ l'.Sublist l ∧
      (∀ i ∈ l, i ∈ l' ∨ Removed i [.call c]) ∧ ∀ i ∈ l', ¬ Removed i [.call c] := by
  have h' := ahead_call h (Pool.exec_effect (Pool.settle type) c p) hk
  refine ⟨_, h', follow_sublist c _ l, fun _ => mem_follow _, fun i hi hremoved => ?_⟩
  exact removed_free hremoved p (h'.suffix.subset hi)

theorem increment_ahead {r : Repo V} (hr : Refines r p) {it : Iterator} (h : Ahead p it.id (c :: l)) :
    ∃ next : Iterator, outcome it.increment r = (.ok next, r) ∧ Ahead p next.id l := by
  obtain ⟨front, hfront⟩ := h.suffix
  have hid : it.id = c := h.head
  refine ⟨⟨l.head?.getD nullIndex⟩, ?_, (List.suffix_cons c l).trans h.suffix, rfl⟩
  rw [Iterator.increment, outcome_map, nextId_eq hr, hid, next_split hfront.symm]
  rfl

end Ahead

/-- What a loop meets of the ids that are ahead of it. -/
structure Meets (type : ValueType Args V) (os : List (WalkOp Args)) (w : Walk V) (l : List Nat) :
    Prop where
  ordered : ((visits type os w).filter (· ≠ nullIndex)).Sublist l
  all : (run (step type) os w).2.cursor = endIterator → ∀ i ∈ l, i ∈ visits type os w ∨ Removed i os
  -- An id that has been removed may come back, with another object.
  original : ∀ done, done <+: os → (run (step type) done w).2.cursor ≠ endIterator →
    ¬ Removed (run (step type) done w).2.cursor.id done
  advances : List.Forall₂ (fun o res => o = .advance → res = .ok none) os (run (step type) os w).1
  alive : Throughout (step type) (fun w => w.cursor = endIterator ∨
    outcome (isIdUsed w.cursor.id) w.repo = (.ok true, w.repo)) os w

variable {type : ValueType Args V} {p : Pool V} {w : Walk V} {l : List Nat}

theorem alive_of_ahead (hr : Refines w.repo p) (h : Ahead p w.cursor.id l) : w.cursor = endIterator ∨
    outcome (isIdUsed w.cursor.id) w.repo = (.ok true, w.repo) := by
  cases l with
  | nil =>
      left
      have hid : w.cursor.id = nullIndex := h.head
      rw [endIterator, ← hid]
  | cons j rest =>
      right
      have hj : w.cursor.id ∈ p.live := by
        rw [show w.cursor.id = j from h.head]
        exact h.suffix.subset List.mem_cons_self
      rw [isIdUsed_eq hr, decide_eq_true hj]

theorem Meets.ahead {os : List (WalkOp Args)} (h : Meets type os w l) {i : Nat}
    (hi : i ∈ visits type os w) (hne : i ≠ nullIndex) : i ∈ l :=
  h.ordered.subset (List.mem_filter.mpr ⟨hi, decide_eq_true hne⟩)

theorem meets_nil (hr : Refines w.repo p) (h : Ahead p w.cursor.id l) : Meets type [] w l := by
  refine ⟨?_, fun hend i hi => ?_, fun done hdone _ => ?_, .nil, alive_of_ahead hr h⟩
  · cases l with
    | nil =>
        have hid : w.cursor.id = nullIndex := h.head
        simp [visits, hid]
    | cons j rest =>
        have hid : w.cursor.id = j := h.head
        have hne : j ≠ nullIndex := hid ▸ h.ne_null hr (List.cons_ne_nil j rest)
        simp [visits, hne, hid]
  · exact absurd (congrArg Iterator.id hend) (h.ne_null hr (List.ne_nil_of_mem hi))
  · simp [List.prefix_nil.mp hdone, Removed]

theorem meets_call (hr : Refines w.repo p) (h : Ahead p w.cursor.id l) {c : Call Args}
    {os : List (WalkOp Args)} {l' : List Nat} (hl : l'.Sublist l)
    (hgone : ∀ i ∈ l, i ∈ l' ∨ Removed i [.call c]) (hkept : ∀ i ∈ l', ¬ Removed i [.call c])
    (hrest : Meets type os (step type (.call c) w).2 l') : Meets type (.call c :: os) w l := by
  refine ⟨hrest.ordered.trans hl, fun hend i hi => ?_, fun done hdone hne => ?_, ?_,
    alive_of_ahead hr h, hrest.alive⟩
  · rw [removed_cons]
    obtain hi' | hremoved := hgone i hi
    · exact (hrest.all hend i hi').imp_right Or.inr
    · exact Or.inr (Or.inl hremoved)
  · cases done with
    | nil => simp [Removed]
    | cons d done =>
        obtain ⟨rfl, htail⟩ := List.cons_prefix_cons.mp hdone
        -- The iterator stands at an id that was still ahead after the call.
        have hahead := hrest.ahead (cursor_visited type htail _) fun hid => hne (congrArg Iterator.mk hid)
        rw [removed_cons, not_or]
        exact ⟨hkept _ hahead, hrest.original done htail hne⟩
  · exact .cons nofun hrest.advances

theorem meets_advance (hr : Refines w.repo p) {c : Nat} (h : Ahead p w.cursor.id (c :: l))
    {os : List (WalkOp Args)} {next : Iterator}
    (hstep : step type .advance w = (.ok none, ⟨w.repo, next⟩)) (hrest : Meets type os ⟨w.repo, next⟩ l) :
    Meets type (.advance :: os) w (c :: l) := by
  have hid : w.cursor.id = c := h.head
  have hne : c ≠ nullIndex := hid ▸ h.ne_null hr (List.cons_ne_nil c l)
  have hvisits : visits type (.advance :: os) w = c :: visits type os ⟨w.repo, next⟩ := by
    rw [visits, hstep, hid]
  refine ⟨?_, fun hend i hi => ?_, fun done hdone hne => ?_, ?_, alive_of_ahead hr h, ?_⟩
  · rw [hvisits, List.filter_cons_of_pos (by simpa using hne)]
    exact hrest.ordered.cons_cons c
  · rw [run, hstep] at hend
    rw [hvisits]
    obtain rfl | hi := List.mem_cons.mp hi
    · exact Or.inl List.mem_cons_self
    · exact (hrest.all hend i hi).imp (List.mem_cons_of_mem c) fun hlater => removed_cons.mpr (Or.inr hlater)
  · cases done with
    | nil => simp [Removed]
    | cons d done =>
        obtain ⟨rfl, htail⟩ := List.cons_prefix_cons.mp hdone
        rw [run, hstep] at hne ⊢
        rw [removed_cons, not_or]
        exact ⟨by simp [Removed], hrest.original done htail hne⟩
  · rw [run, hstep]
    exact .cons (fun _ => rfl) hrest.advances
  · rw [hstep]
    exact hrest.alive

theorem walk_meets (hr : Refines w.repo p) (h : Ahead p w.cursor.id l) (os : List (WalkOp Args))
    (hos : Along (step type) Keeps os w) : Meets type os w l := by
  induction os generalizing w p l with
  | nil => exact meets_nil hr h
  | cons o os ih =>
      obtain ⟨hk, hos⟩ := hos
      cases o with
      | call c =>
          obtain ⟨t, ht, hrt⟩ := exec_simulates type c hr
          have hrepo : (step type (.call c) w).2.repo = t := congrArg Prod.snd ht
          obtain ⟨l', h', hl, hgone, hkept⟩ := h.call hk
          exact meets_call hr h hl hgone hkept (ih (hrepo ▸ hrt) h' hos)
      | advance =>
          cases l with
          | nil =>
              have hid : w.cursor.id = nullIndex := h.head
              exact absurd (by rw [endIterator, ← hid]) hk
          | cons c l =>
              obtain ⟨next, hnext, h'⟩ := increment_ahead hr h
              have hstep : step type .advance w = (.ok none, ⟨w.repo, next⟩) := by
                rw [step, hnext]
              rw [hstep] at hos
              exact meets_advance hr h hstep (ih hr h' hos)

/-- A loop from `begin()` over a repository that is worked on meanwhile: the
iterator always stands at an object or at the end, steps on without an
exception, and has met when it reaches the end every object that was there at
the beginning and has not been removed, each once, the newest first, and none
that came later, under an id that had been removed either. -/
theorem runs_walk (type : ValueType Args V) {r₀ : Repo V} (h₀ : Started r₀) (cs : List (Call Args))
    (os : List (WalkOp Args)) :
    let r := (run (fun c => outcome (exec type c)) cs r₀).2
    ∃ l it, Traversed r l ∧ outcome beginIterator r = (.ok it, r) ∧
      (Along (step type) Keeps os ⟨r, it⟩ → Meets type os ⟨r, it⟩ l) := by
  intro r
  obtain ⟨p₀, hp₀, -⟩ := started_refines h₀
  obtain ⟨-, hr⟩ := run_refines type cs hp₀
  refine ⟨_, ⟨_⟩, traversed_of_refines hr, ?_, fun hos => walk_meets hr ⟨List.suffix_rfl, rfl⟩ os hos⟩
  rw [beginIterator, outcome_map, (traversed_of_refines hr).first]
  rfl

def plain : ValueType Nat Nat := ⟨fun a => .ok a, fun a => set a⟩

def busyLoop : List (WalkOp Nat) :=
  [.call (.assignObject (fun _ => true) 4), .call (.removeObject 1), .advance, .call (.removeObject 2),
    .call (.assignObject (fun _ => true) 5), .call (.getObject 0), .advance]

def threeObjects : List (Call Nat) :=
  [.assignObject (fun _ => true) 1, .assignObject (fun _ => true) 2, .assignObject (fun _ => true) 3]

theorem runs_walk_busy :
    let r := (run (fun c => outcome (exec plain c)) threeObjects empty).2
    (∃ l, Traversed r l ∧ Meets plain busyLoop ⟨r, ⟨2⟩⟩ l) ∧
      visits plain busyLoop ⟨r, ⟨2⟩⟩ = [2, 0, nullIndex] := by
  obtain ⟨l, it, hl, hit, hmeets⟩ := runs_walk plain (Or.inl rfl) threeObjects busyLoop
  obtain rfl : it = ⟨2⟩ := (Except.ok.inj (congrArg Prod.fst hit)).symm
  have hfirst : (⟨2⟩ : Iterator) ≠ endIterator := by decide
  have hlast : (⟨0⟩ : Iterator) ≠ endIterator := by decide
  exact ⟨⟨l, hl, hmeets ⟨trivial, nofun, hfirst, nofun, trivial, trivial, hlast,
    trivial⟩⟩, rfl⟩

end Lzhlib.RepoWalks
