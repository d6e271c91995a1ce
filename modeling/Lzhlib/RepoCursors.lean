import Lzhlib.RepoWalks

namespace Lzhlib.RepoCursors

open Programs Machine ValueRepo ObjectPool RepoRefinement RepoRuns RepoTraversal RepoGrowth
open RepoWalks Runs

variable {V Args : Type}

structure Cursor (V : Type) where
  walk : Walk V
  ahead : List Nat

inductive CursorOp (Args : Type)
  | walk (o : WalkOp Args)
  | retreat

def step (type : ValueType Args V) :
    CursorOp Args → Cursor V → Except Exc (Option (Reply V)) × Cursor V
  | .walk o, x => ((RepoWalks.step type o x.walk).1,
      ⟨(RepoWalks.step type o x.walk).2, follow o (RepoWalks.step type o x.walk).1 x.ahead⟩)
  | .retreat, x => match outcome x.walk.cursor.decrement x.walk.repo with
    | (.ok it, r) =>
      (.ok none, ⟨⟨r, it⟩, if it = x.walk.cursor then x.ahead else it.id :: x.ahead⟩)
    | (.error e, r) => (.error e, ⟨⟨r, x.walk.cursor⟩, x.ahead⟩)

def Keeps : CursorOp Args → Cursor V → Prop
  | .walk o, x => RepoWalks.Keeps o x.walk
  | .retreat, _ => True

/-- Where a step back from the first of the ids that are to come leads. -/
def stepBack (front ahead : List Nat) : Except Exc Iterator :=
  match front.getLast? with
  | some j => .ok ⟨j⟩
  | none => match ahead with
    | [] => .ok endIterator
    | i :: _ => .error (.indexOutOfRange i)

theorem stepBack_concat (front ahead : List Nat) (j : Nat) :
    stepBack (front ++ [j]) ahead = .ok ⟨j⟩ := by
  simp [stepBack]

/-- The ids in use are those in front of the iterator and those to come, the
newest first, and the iterator can be moved between them in both directions. -/
structure Stands (x : Cursor V) (front : List Nat) : Prop where
  traversed : Traversed x.walk.repo (front ++ x.ahead)
  head : x.walk.cursor.id = x.ahead.head?.getD nullIndex
  forward : x.ahead ≠ [] → outcome x.walk.cursor.increment x.walk.repo =
    (.ok ⟨x.ahead.tail.head?.getD nullIndex⟩, x.walk.repo)
  backward : outcome x.walk.cursor.decrement x.walk.repo = (stepBack front x.ahead, x.walk.repo)

section Steps

variable {type : ValueType Args V} {p q : Pool V} {r : Repo V} {l front : List Nat} {c : Nat}

theorem decrement_eq (hr : Refines r p) {it : Iterator} (h : p.live = front ++ l)
    (hid : it.id = l.head?.getD nullIndex) : outcome it.decrement r = (stepBack front l, r) := by
  have hprev : p.prev it.id = (stepBack front l).map Iterator.id := by
    rw [hid]
    obtain rfl | ⟨m, j, rfl⟩ := List.eq_nil_or_concat' front
    · cases l with
      | nil => rw [List.head?_nil, Option.getD_none, Pool.prev, if_pos rfl, h]; rfl
      | cons i l => exact prev_first h (hr.ne_null (p.mem_slots.mp (Or.inl (by simp [h]))))
    · rw [stepBack_concat]
      cases l with
      | nil =>
          rw [List.head?_nil, Option.getD_none, Pool.prev, if_pos rfl, h, List.append_nil,
            List.getLast?_concat]
          rfl
      | cons i l =>
          have hi : i ≠ nullIndex := hr.ne_null (p.mem_slots.mp (Or.inl (by simp [h])))
          rw [List.append_assoc] at h
          exact prev_split h hi
  rw [Iterator.decrement, outcome_map, prevId_eq hr, hprev]
  cases stepBack front l <;> rfl

theorem stands_of_ahead {x : Cursor V} (hr : Refines x.walk.repo p)
    (h : Ahead p x.walk.cursor.id x.ahead) : ∃ front, Stands x front := by
  obtain ⟨front, hfront⟩ := h.suffix
  refine ⟨front, hfront ▸ traversed_of_refines hr, h.head, fun hne => ?_,
    decrement_eq hr hfront.symm h.head⟩
  obtain ⟨c, l, hl⟩ := List.exists_cons_of_ne_nil hne
  obtain ⟨⟨next⟩, hnext, h'⟩ := increment_ahead hr (hl ▸ h)
  have hid : next = l.head?.getD nullIndex := h'.head
  rw [hnext, hl, List.tail_cons, ← hid]

theorem step_call (type : ValueType Args V) {w : Walk V} (hr : Refines w.repo p) (c : Call Args) :
    ∃ t, Refines t (Pool.exec (Pool.settle type) c p).2 ∧
      (step type (.walk (.call c)) ⟨w, l⟩).2 = ⟨⟨t, w.cursor⟩,
        follow (.call c) ((Pool.exec (Pool.settle type) c p).1.map some) l⟩ := by
  obtain ⟨t, ht, hrt⟩ := exec_simulates type c hr
  refine ⟨t, hrt, ?_⟩
  rw [step, RepoWalks.step, ht]

theorem step_advance (type : ValueType Args V) {w : Walk V} (hr : Refines w.repo p)
    (h : Ahead p w.cursor.id (c :: l)) :
    ∃ next : Iterator, Ahead p next.id l ∧
      (step type (.walk .advance) ⟨w, c :: l⟩).2 = ⟨⟨w.repo, next⟩, l⟩ := by
  obtain ⟨next, hnext, h'⟩ := increment_ahead hr h
  refine ⟨next, h', ?_⟩
  rw [step, RepoWalks.step, hnext]
  rfl

theorem step_retreat (type : ValueType Args V) {w : Walk V} (hr : Refines w.repo p)
    (h : Ahead p w.cursor.id l) :
    ∃ next : Iterator, ∃ l', Ahead p next.id l' ∧
      (step type .retreat ⟨w, l⟩).2 = ⟨⟨w.repo, next⟩, l'⟩ := by
  obtain ⟨front, hfront⟩ := h.suffix
  have hback := decrement_eq hr hfront.symm h.head
  obtain rfl | ⟨m, j, rfl⟩ := List.eq_nil_or_concat' front
  · refine ⟨w.cursor, l, h, ?_⟩
    cases l with
    | nil =>
        have hend : endIterator = w.cursor := congrArg Iterator.mk h.head.symm
        rw [step, hback, ← hend]
        rfl
    | cons i l => rw [step, hback]; rfl
  · rw [stepBack_concat] at hback
    rw [List.append_assoc] at hfront
    have hj : (⟨j⟩ : Iterator) ≠ w.cursor := by
      intro he
      have hid : j = l.head?.getD nullIndex := (congrArg Iterator.id he).trans h.head
      cases l with
      | nil => exact hr.ne_null (p.mem_slots.mp (Or.inl (by simp [← hfront]))) hid
      | cons i l => exact (live_split hfront.symm).2 (hid ▸ List.mem_cons_self)
    refine ⟨⟨j⟩, j :: l, ⟨⟨m, hfront⟩, rfl⟩, ?_⟩
    rw [step, hback]
    exact congrArg (Cursor.mk _) (if_neg hj)

theorem step_ahead {x : Cursor V} {o : CursorOp Args} (hr : Refines x.walk.repo p)
    (h : Ahead p x.walk.cursor.id x.ahead) (hk : Keeps o x) :
    ∃ q, Refines (step type o x).2.walk.repo q ∧
      Ahead q (step type o x).2.walk.cursor.id (step type o x).2.ahead := by
  obtain ⟨w, l⟩ := x
  cases o with
  | walk o =>
      cases o with
      | call c =>
          obtain ⟨t, hrt, hstep⟩ := step_call type (l := l) hr c
          rw [hstep]
          exact ⟨_, hrt, ahead_call (w := w) h (Pool.exec_effect (Pool.settle type) c p) hk⟩
      | advance =>
          cases l with
          | nil => exact absurd (congrArg Iterator.mk h.head) hk
          | cons c l =>
              obtain ⟨next, hnext, hstep⟩ := step_advance type hr h
              rw [hstep]
              exact ⟨p, hr, hnext⟩
  | retreat =>
      obtain ⟨next, l', hnext, hstep⟩ := step_retreat type hr h
      rw [hstep]
      exact ⟨p, hr, hnext⟩

theorem run_stands {x : Cursor V} (hr : Refines x.walk.repo p)
    (h : Ahead p x.walk.cursor.id x.ahead) (os : List (CursorOp Args))
    (hos : Along (step type) Keeps os x) :
    Throughout (step type) (fun x => ∃ front, Stands x front) os x := by
  induction os generalizing x p with
  | nil => exact stands_of_ahead hr h
  | cons o os ih =>
      obtain ⟨q, hr', h'⟩ := step_ahead hr h hos.1
      exact ⟨stands_of_ahead hr h, ih hr' h' hos.2⟩

end Steps

/-- From any place in a repository that any run has made, an iterator can be
moved back and forth while the repository is worked on. A step on or back moves
one id between those in front of it and those to come, a call takes away what it
removes, and the ids in use are always these two lists. -/
theorem runs_stand (type : ValueType Args V) {r₀ : Repo V} (h₀ : Started r₀) (cs : List (Call Args))
    (os : List (CursorOp Args)) :
    let r := (run (fun c => outcome (exec type c)) cs r₀).2
    ∃ ids, Traversed r ids ∧ ∀ k,
      let x : Cursor V := ⟨⟨r, ⟨(ids.drop k).head?.getD nullIndex⟩⟩, ids.drop k⟩
      Along (step type) Keeps os x →
        Throughout (step type) (fun x => ∃ front, Stands x front) os x := by
  intro r
  obtain ⟨p₀, hp₀, -⟩ := started_refines h₀
  obtain ⟨-, hr⟩ := run_refines type cs hp₀
  refine ⟨_, traversed_of_refines hr, fun k hos => ?_⟩
  exact run_stands hr ⟨List.drop_suffix k _, rfl⟩ os hos

def backwards : List (CursorOp Nat) :=
  [.retreat, .walk (.call (.assignObject (fun _ => true) 4)), .retreat,
    .walk (.call (.removeObject 0)), .retreat, .retreat, .retreat]

theorem runs_stand_backwards :
    let r := (run (fun c => outcome (exec plain c)) threeObjects empty).2
    let x : Cursor Nat := ⟨⟨r, endIterator⟩, []⟩
    Throughout (step plain) (fun x => ∃ front, Stands x front) backwards x ∧
      (run (step plain) backwards x).2.ahead = [3, 2, 1] ∧
      (run (step plain) backwards x).1.getLast? = some (.error (.indexOutOfRange 3)) := by
  obtain ⟨l, hl, hstands⟩ := runs_stand plain (Or.inl rfl) threeObjects backwards
  have hlength : l.length = 3 := hl.count
  have hnone : l.drop 3 = [] := by rw [← hlength]; exact List.drop_length
  have hback := hstands 3
  rw [hnone] at hback
  refine ⟨hback ⟨trivial, trivial, trivial, ?_, trivial, trivial, trivial, trivial⟩, rfl, rfl⟩
  change (0 : Nat) ≠ 1
  decide

end Lzhlib.RepoCursors
