import Lzhlib.ReaderRuns
import Lzhlib.IntegerLiterals

namespace Lzhlib.ReaderCopies

open Programs DynamicReader ReaderRuns Runs

variable {Str ε : Type} {ts : TypeList Str ε} {a b : Nat} {s : Store ts}

/-- The implicit copy constructor. A function object is copied with the
reference it holds. -/
def copyConstruct (a b : Nat) : Prog ts PUnit := do
  let d ← object a
  modify fun s => Function.update s b (some d)

inductive Side
  | original
  | copy
  deriving DecidableEq

def Side.address (a b : Nat) : Side → Nat
  | .original => a
  | .copy => b

def stepOn (a b : Nat) (o : Side × Call Str) (s : Store ts) : Except (Exc ε) Unit × Store ts :=
  ReaderRuns.step (o.1.address a b) o.2 s

abbrev Objects (ts : TypeList Str ε) := Side → Values ts

def placeBoth (a b : Nat) (s : Store ts) (v : Objects ts) : Store ts :=
  place a (Function.update s b (some ⟨v .copy, createReaders ts, createAssignments ts a⟩)) (v .original)

/-- What the reads really do: whichever reader is called, the original is written. -/
def shared (o : Side × Call Str) (v : Objects ts) : Except (Exc ε) Unit × Objects ts :=
  each assign (.original, o.2) v

theorem placeBoth_copy (h : a ≠ b) (v : Objects ts) :
    placeBoth a b s v b = some ⟨v .copy, createReaders ts, createAssignments ts a⟩ := by
  rw [placeBoth, place, Function.update_of_ne h.symm, Function.update_self]

theorem copyConstruct_ok (h : a ≠ b) (vars : Values ts) :
    copyConstruct a b (place a s vars) = .ok ⟨⟩ (placeBoth a b s fun _ => vars) := by
  rw [copyConstruct, bind_ok object_place, modify_apply, placeBoth, place, Function.update_comm h]
  rfl

theorem read_same {d d' : Reader ts} {index : Nat} {str : Str} (h : s a = some d)
    (h' : s b = some d') (hd : d'.assignments = d.assignments) :
    DynamicReader.read b index str s = DynamicReader.read a index str s := by
  rw [DynamicReader.read, DynamicReader.read, bind_ok (object_ok h), bind_ok (object_ok h'), hd]

theorem stepOn_placeBoth (h : a ≠ b) (o : Side × Call Str) (v : Objects ts) :
    stepOn a b o (placeBoth a b s v) = ((shared o v).1, placeBoth a b s (shared o v).2) := by
  have hstep : ReaderRuns.step a o.2 (placeBoth a b s v) =
      ((shared o v).1, placeBoth a b s (shared o v).2) := by
    rw [placeBoth, step_place]
    rfl
  obtain ⟨side, c⟩ := o
  cases side with
  | original => exact hstep
  | copy =>
      have hsame : DynamicReader.read b c.index c.str (placeBoth a b s v) =
          DynamicReader.read a c.index c.str (placeBoth a b s v) :=
        read_same (place_self a _ _) (placeBoth_copy h v) rfl
      rw [← hstep, stepOn, ReaderRuns.step, ReaderRuns.step, outcome, outcome]
      rw [Side.address, hsame]

theorem run_placeBoth (h : a ≠ b) (os : List (Side × Call Str)) (v : Objects ts) :
    (run (stepOn a b) os (placeBoth a b s v)).1 = (run shared os v).1 ∧
      (run (stepOn a b) os (placeBoth a b s v)).2 = placeBoth a b s (run shared os v).2 := by
  apply run_simulation (fun _ _ => True) (fun t v => t = placeBoth a b s v) ?_ os _ v rfl
    (along_true _ os v)
  rintro o _ v rfl -
  rw [stepOn_placeBoth h]
  exact ⟨rfl, rfl⟩

theorem get_placeBoth (h : a ≠ b) (v : Objects ts) (side : Side) (index : Fin ts.length) :
    outcome (DynamicReader.get (side.address a b) index) (placeBoth a b s v) =
      (.ok (v side index), placeBoth a b s v) := by
  cases side with
  | original => exact outcome_ok (get_ok (place_self a _ _))
  | copy => exact outcome_ok (get_ok (placeBoth_copy h v))

section Values

variable {vars : Values ts} {v : Objects ts} {c : Call Str}

theorem assign_eq_self_iff : (assign c vars).2 = vars ↔ ∀ (index : Fin ts.length) value,
    c.index = index.val → (ts.get index).reader c.str = .ok value → vars index = some value := by
  induction c using Call.cases ts with
  | outOfRange index str hi =>
      rw [assign_outOfRange hi]
      refine iff_of_true rfl fun k value (hk : index = k.val) => ?_
      omega
  | accepts index str value hr =>
      rw [assign_accepts hr, Function.update_eq_self_iff]
      constructor
      · intro hvalue k value' hk hr'
        cases Fin.ext hk
        cases hr.symm.trans hr'
        exact hvalue.symm
      · exact fun h => (h index value rfl hr).symm
  | rejects index str e hr =>
      rw [assign_rejects hr]
      refine iff_of_true rfl fun k value hk hr' => ?_
      cases Fin.ext hk
      cases hr.symm.trans hr'

theorem assign_result (c : Call Str) (vars vars' : Values ts) :
    (assign c vars).1 = (assign c vars').1 := by
  induction c using Call.cases ts with
  | outOfRange index str hi => rw [assign_outOfRange hi, assign_outOfRange hi]
  | accepts index str value hr => rw [assign_accepts hr, assign_accepts hr]
  | rejects index str e hr => rw [assign_rejects hr, assign_rejects hr]

def Held (o : Side × Call Str) (v : Objects ts) : Prop :=
  o.1 = .copy → ∀ (index : Fin ts.length) value, o.2.index = index.val →
    (ts.get index).reader o.2.str = .ok value → ∀ side, v side index = some value

theorem shared_eq_each_iff (o : Side × Call Str) (v : Objects ts) :
    (shared o v).2 = (each assign o v).2 ↔ Held o v := by
  obtain ⟨side, c⟩ := o
  cases side with
  | original => exact iff_of_true rfl fun h => by cases h
  | copy =>
      have hsplit : (shared (.copy, c) v).2 = (each assign (.copy, c) v).2 ↔
          (assign c (v .original)).2 = v .original ∧ (assign c (v .copy)).2 = v .copy := by
        exact update_eq_update_iff Side.noConfusion
      rw [hsplit, assign_eq_self_iff, assign_eq_self_iff]
      constructor
      · rintro ⟨horiginal, hcopy⟩ - index value hindex hr side
        cases side with
        | original => exact horiginal index value hindex hr
        | copy => exact hcopy index value hindex hr
      · intro h
        exact ⟨fun index value hindex hr => h rfl index value hindex hr .original,
          fun index value hindex hr => h rfl index value hindex hr .copy⟩

end Values

def readFrom (a : Nat) (s : Store ts) (before : List (Call Str)) : Store ts :=
  (run (ReaderRuns.step a) before (construct a s)).2

def copyAfter (a b : Nat) (s : Store ts) (before : List (Call Str)) : Store ts :=
  (outcome (copyConstruct a b) (readFrom a s before)).2

def Shows (self : Nat) (s : Store ts) (vars : Values ts) : Prop :=
  ∀ index, (outcome (DynamicReader.get self index) s).1 = .ok (vars index)

/-- After every part of a run, an object holds what was last read through it,
or else what was copied, and a read through one object leaves the other alone. -/
structure Independent (a b : Nat) (copied : Values ts) (s : Store ts)
    (os : List (Side × Call Str)) : Prop where
  last : ∀ done, done <+: os → ∀ side : Side, Shows (side.address a b) (run (stepOn a b) done s).2
    fun index => (produced index (opsOf side done)
      (resultsOf side done (run (stepOn a b) done s).1)).getLast?.or (copied index)
  apart : ∀ done o, done ++ [o] <+: os → ∀ side, side ≠ o.1 → ∀ vars,
    Shows (side.address a b) (run (stepOn a b) done s).2 vars →
      Shows (side.address a b) (run (stepOn a b) (done ++ [o]) s).2 vars

/-- A read through the copy gives the value that its slot already shows in both objects. -/
def Repeats (a b : Nat) (o : Side × Call Str) (s : Store ts) : Prop :=
  o.1 = .copy → ∀ (index : Fin ts.length) value, o.2.index = index.val →
    (ts.get index).reader o.2.str = .ok value →
      ∀ side : Side, (outcome (DynamicReader.get (side.address a b) index) s).1 = .ok (some value)

theorem shows_placeBoth_iff (h : a ≠ b) {v : Objects ts} {side : Side} {vars : Values ts} :
    Shows (side.address a b) (placeBoth a b s v) vars ↔ v side = vars := by
  constructor
  · intro hshows
    funext index
    have hget := hshows index
    rw [get_placeBoth h] at hget
    exact Except.ok.inj hget
  · rintro rfl index
    rw [get_placeBoth h]

theorem repeats_placeBoth_iff (h : a ≠ b) (o : Side × Call Str) (v : Objects ts) :
    Repeats a b o (placeBoth a b s v) ↔ Held o v := by
  simp only [Repeats, Held, get_placeBoth h, Except.ok.injEq]

theorem along_placeBoth_iff (h : a ≠ b) (os : List (Side × Call Str)) (v : Objects ts) :
    Along (stepOn a b) (Repeats a b) os (placeBoth a b s v) ↔ Along shared Held os v :=
  along_map (φ := placeBoth a b s) (fun o v => congrArg Prod.snd (stepOn_placeBoth h o v))
    (repeats_placeBoth_iff h) os v

theorem run_shared_results (os : List (Side × Call Str)) (v w : Objects ts) :
    (run shared os v).1 = (run (each assign) os w).1 := by
  induction os generalizing v w with
  | nil => rfl
  | cons o os ih =>
      have hfirst : (shared o v).1 = (each assign o w).1 := assign_result o.2 (v .original) (w o.1)
      rw [run, run, hfirst, ih]

theorem run_each_assign (os : List (Side × Call Str)) (vars : Values ts) (side : Side) :
    (run (each assign) os fun _ => vars).2 side = fun index =>
      (produced index (opsOf side os)
        (resultsOf side os (run shared os fun _ => vars).1)).getLast?.or (vars index) := by
  obtain ⟨hresults, hstate⟩ := run_each assign side os fun _ => vars
  funext index
  rw [hstate, run_shared_results os _ fun _ => vars, hresults]
  exact run_assign (opsOf side os) vars index

theorem independent_iff (h : a ≠ b) (vars : Values ts) (os : List (Side × Call Str)) :
    Independent a b vars (placeBoth a b s fun _ => vars) os ↔ Along shared Held os fun _ => vars := by
  have hrun (done : List (Side × Call Str)) := run_placeBoth (s := s) h done fun _ => vars
  rw [← agree_iff_along shared_eq_each_iff]
  constructor
  · intro hind done hdone
    funext side
    have hlast := hind.last done hdone side
    rw [(hrun done).1, (hrun done).2, shows_placeBoth_iff h] at hlast
    rw [hlast, run_each_assign]
  · intro hagree
    refine ⟨fun done hdone side => ?_, fun done o hdone side hside values hshows => ?_⟩
    · rw [(hrun done).1, (hrun done).2, shows_placeBoth_iff h, hagree done hdone, run_each_assign]
    · have hprefix : done <+: os := (List.prefix_append done [o]).trans hdone
      rw [(hrun _).2, shows_placeBoth_iff h] at hshows ⊢
      rw [hagree _ hprefix] at hshows
      rw [hagree _ hdone, run_append, ← hshows]
      exact Function.update_of_ne hside _ _

/-- A copy is as good as a reader of its own only as long as nothing new is
read through it. -/
theorem runs_copy_independent (h : a ≠ b) (s : Store ts) (before : List (Call Str))
    (later : List (Side × Call Str)) :
    ∃ copied, Shows a (readFrom a s before) copied ∧
      (Independent a b copied (copyAfter a b s before) later ↔
        Along (stepOn a b) (Repeats a b) later (copyAfter a b s before)) := by
  have hbefore : readFrom a s before = place a s (run assign before fun _ => none).2 :=
    (run_place a s (fun _ => none) before).2
  have hcopy : copyAfter a b s before =
      placeBoth a b s fun _ => (run assign before fun _ => none).2 := by
    rw [copyAfter, hbefore, outcome_ok (copyConstruct_ok h _)]
  refine ⟨(run assign before fun _ => none).2, fun index => ?_, ?_⟩
  · rw [hbefore, outcome_ok (get_ok (place_self a s _))]
  · rw [hcopy, independent_iff h, along_placeBoth_iff h]

section Bytes

open PredefinedReaders IntegerLiterals

def bytes : TypeList (StringView Char) PredefinedReaders.Exc := [⟨uint8.Value, readArithmetic uint8⟩]

def digit (c : Char) : Call (StringView Char) := ⟨0, ⟨[c], [nul]⟩⟩

def noReaders : Store bytes := fun _ => none

def slot : Fin bytes.length := ⟨0, by decide⟩

theorem runs_copy_independent_bytes :
    ∃ copied, Shows 0 (readFrom 0 noReaders [digit '1']) copied ∧
      Independent 0 1 copied (copyAfter 0 1 noReaders [digit '1'])
        [(.copy, digit '1'), (.original, digit '2')] := by
  obtain ⟨copied, hcopied, hiff⟩ := runs_copy_independent Nat.zero_ne_one noReaders [digit '1']
    [(.copy, digit '1'), (.original, digit '2')]
  have hcopy : Repeats 0 1 (.copy, digit '1') (copyAfter 0 1 noReaders [digit '1']) := by
    rintro - ⟨_ | _, hlt⟩ value hindex hr side
    · cases hr
      cases side <;> rfl
    · cases hindex
  have horiginal (s : Store bytes) : Repeats 0 1 (.original, digit '2') s := by
    rintro ⟨⟩
  exact ⟨copied, hcopied, hiff.mpr ⟨hcopy, horiginal _, trivial⟩⟩

def readThroughCopy : Store bytes :=
  (run (stepOn 0 1) [(.copy, digit '2')] (copyAfter 0 1 noReaders [digit '1'])).2

/-- The value read through the copy arrives in the original, and the copy keeps its own. -/
theorem copy_writes_original :
    (outcome (DynamicReader.get 0 slot) readThroughCopy).1 = .ok (some ⟨2, by decide⟩) ∧
      (outcome (DynamicReader.get 1 slot) readThroughCopy).1 = .ok (some ⟨1, by decide⟩) ∧
      ∀ copied, Shows 0 (readFrom 0 noReaders [digit '1']) copied →
        ¬Independent 0 1 copied (copyAfter 0 1 noReaders [digit '1']) [(.copy, digit '2')] := by
  have hkept : (outcome (DynamicReader.get 1 slot) readThroughCopy).1 =
      .ok (some ⟨1, by decide⟩) := rfl
  refine ⟨rfl, hkept, fun copied _ hind => ?_⟩
  have hcopy := hind.last [(.copy, digit '2')] (List.prefix_refl _) .copy slot
  cases hkept.symm.trans hcopy

end Bytes

end Lzhlib.ReaderCopies
