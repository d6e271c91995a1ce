import Lzhlib.UndirectedRuns

namespace Lzhlib.SelfLoops

open Programs Machine GraphRecords GraphMaps UndirectedGraph Incidence UndirectedEffects Runs
  UndirectedRuns

variable {VV EV : Type} {g : GraphBase VV EV} {vs : Nat → Option (Vertex VV)}
  {es : Nat → Option (Edge EV)} {v e : Nat}

/-- `add_edge` is given live vertices, the same one twice if the caller likes,
and the call does nothing that the language leaves undefined. -/
def Meaningful (o : Op VV EV) (g : GraphBase VV EV) : Prop :=
  LiveEnds o g ∧ (step o g).1 ≠ .error .undefined

def Recorded (g : GraphBase VV EV) : Prop := ∃ vs es, Holds g vs es ∧ Linked joins vs es

theorem step_recorded (o : Op VV EV) (g : GraphBase VV EV) (hg : Recorded g) (ho : Meaningful o g) :
    Recorded (step o g).2 := by
  obtain ⟨vs, es, h, hl⟩ := hg
  have hloop : ¬RemovesLoop es o := by
    intro hloop
    obtain ⟨g', hrun⟩ := exec_undefined h hl hloop
    exact ho.2 (congrArg Prod.fst hrun)
  obtain ⟨res, g', vs', es', hrun, h', heffect⟩ := exec_effect h hl ho.1 hloop
  rw [step, hrun]
  exact ⟨vs', es', h', heffect.linked hl⟩

theorem run_recorded (os : List (Op VV EV)) (ho : Along step Meaningful os {}) :
    Recorded (run step os {}).2 :=
  (run_invariant Recorded (fun _ => True) (fun o g hg ha => ⟨trivial, step_recorded o g hg ha⟩) os {}
    ⟨_, _, holds_empty, linked_empty⟩ ho).2

theorem defined_iff (h : Holds g vs es) (hl : Linked joins vs es) {o : Op VV EV}
    (ho : LiveEnds o g) : (step o g).1 ≠ .error .undefined ↔ ¬RemovesLoop es o := by
  constructor
  · intro hdef hloop
    obtain ⟨g', hrun⟩ := exec_undefined h hl hloop
    exact hdef (congrArg Prod.fst hrun)
  · intro hloop
    obtain ⟨res, g', vs', es', hrun, -, heffect⟩ := exec_effect h hl ho hloop
    rw [step, hrun]
    exact heffect.ne_undefined

/-- The removals find what they erase, and `remove_vertex` leaves the set it
walks over alone, except for loops. -/
structure RemovalsDefined (g : GraphBase VV EV) : Prop where
  edge : ∀ e a b, LiveEdge g e a b → ((step (.removeEdge e) g).1 ≠ .error .undefined ↔ a ≠ b)
  vertex : ∀ v, LiveVertex g v →
    ((step (.removeVertex v) g).1 ≠ .error .undefined ↔ ∀ e, ¬LiveEdge g e v v)

/-- In every state that a run reaches, loops are what the removals cannot do. -/
theorem runs_removals_defined (os : List (Op VV EV)) (ho : Along step Meaningful os {}) :
    RemovalsDefined (run step os {}).2 := by
  obtain ⟨vs, es, h, hl⟩ := run_recorded os ho
  refine ⟨?_, ?_⟩
  · intro e a b he
    obtain ⟨y, hy, hv⟩ := (liveEdge_iff h).mp he
    rw [defined_iff h hl (o := .removeEdge e) trivial]
    refine not_congr ?_
    simp [RemovesLoop, hy, hv]
  · intro v _
    rw [defined_iff h hl (o := .removeVertex v) trivial, ← not_exists]
    refine not_congr (exists_congr fun e => ?_)
    rw [liveEdge_iff h]

def loopOps : List (Op Nat Nat) :=
  [.addVertex (fun _ => true) 7, .addVertex (fun _ => true) 8, .addEdge (fun _ => true) 0 0 5,
    .addEdge (fun _ => true) 0 1 6]

theorem loopOps_meaningful : Along step Meaningful loopOps {} :=
  ⟨⟨trivial, by decide⟩, ⟨trivial, by decide⟩, ⟨⟨rfl, rfl⟩, by decide⟩, ⟨⟨rfl, rfl⟩, by decide⟩,
    trivial⟩

theorem runs_removals_defined_loop : RemovalsDefined (run step loopOps {}).2 :=
  runs_removals_defined loopOps loopOps_meaningful

/-- Neither the loop nor the vertex at it can be removed. -/
theorem loop_undefined :
    (step (.removeEdge 0) (run step loopOps {}).2).1 = .error .undefined ∧
      (step (.removeVertex 0) (run step loopOps {}).2).1 = .error .undefined ∧
      ¬∀ os : List (Op Nat Nat), Along step Meaningful os {} →
        (∀ e a b, LiveEdge (run step os {}).2 e a b →
          (step (.removeEdge e) (run step os {}).2).1 ≠ .error .undefined) ∧
        ∀ v, LiveVertex (run step os {}).2 v →
          (step (.removeVertex v) (run step os {}).2).1 ≠ .error .undefined :=
  ⟨rfl, rfl, fun h => (h loopOps loopOps_meaningful).1 0 0 0 rfl rfl⟩

end Lzhlib.SelfLoops
