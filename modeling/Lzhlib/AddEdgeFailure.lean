import Lzhlib.DirectedRuns
import Lzhlib.UndirectedRuns

namespace Lzhlib.AddEdgeFailure

open Programs Machine ValueRepo GraphRecords GraphMaps RepoMaps Runs

variable {VV EV α : Type} {g g' : GraphBase VV EV} {vs : Nat → Option (Vertex VV)}
  {es : Nat → Option (Edge EV)}

/-- All that is left of a graph's invariants when calls may fail midway: the
two repositories are maps, but their contents need not agree. -/
def Stored (g : GraphBase VV EV) : Prop := ∃ vs es, Holds g vs es

section Stored

theorem stored_ok {p : Prog (GraphBase VV EV) α} {a : α} (hrun : p g = .ok a g')
    (h : Holds g' vs es) : Stored (outcome p g).2 := by
  rw [outcome_ok hrun]
  exact ⟨vs, es, h⟩

theorem stored_error {p : Prog (GraphBase VV EV) α} {ex : Exc} (hrun : p g = .error ex g')
    (h : Holds g' vs es) : Stored (outcome p g).2 := by
  rw [outcome_error hrun]
  exact ⟨vs, es, h⟩

theorem getVertex_stored (v : Nat) : Preserves Stored (getVertex v : Prog (GraphBase VV EV) _) := by
  rintro g ⟨vs, es, h⟩
  cases hv : vs v with
  | none =>
      obtain ⟨ex, hex, -⟩ := getVertex_rejects h hv
      exact stored_error hex h
  | some x => exact stored_ok (getVertex_holds h hv) h

theorem getEdge_stored (e : Nat) :
    Preserves Stored (GraphRecords.getEdge e : Prog (GraphBase VV EV) _) := by
  rintro g ⟨vs, es, h⟩
  cases he : es e with
  | none =>
      obtain ⟨ex, hex, -⟩ := getEdge_rejects h he
      exact stored_error hex h
  | some y => exact stored_ok (getEdge_holds h he) h

theorem atVertex_stored (v : Nat) (p : Prog (Vertex VV) α) :
    Preserves Stored (atVertex v p : Prog (GraphBase VV EV) α) := by
  rintro g ⟨vs, es, h⟩
  cases hv : vs v with
  | none =>
      obtain ⟨ex, hex, -⟩ := atVertex_rejects h hv p
      exact stored_error hex h
  | some x =>
      cases hp : p x with
      | ok a w =>
          obtain ⟨g', hrun, h'⟩ := atVertex_holds h hv hp
          exact stored_ok hrun h'
      | error ex w =>
          obtain ⟨g', hrun, h'⟩ := atVertex_throws h hv hp
          exact stored_error hrun h'

theorem setAssociatedVertices_stored (e a b : Nat) :
    Preserves Stored (atEdge e (setAssociatedVertices a b) : Prog (GraphBase VV EV) _) := by
  rintro g ⟨vs, es, h⟩
  cases he : es e with
  | none =>
      obtain ⟨ex, hex, -⟩ := withObject_rejects h.edges he (setAssociatedVertices a b)
      exact stored_error (zoom_error edgePart hex) h
  | some y =>
      obtain ⟨g', hrun, h'⟩ := atEdge_holds h he
        (modify_apply (fun y : Edge EV => { y with vertices := (a, b) }) y)
      exact stored_ok hrun h'

theorem removeVertexObject_stored (v : Nat) :
    Preserves Stored (zoom vertexPart (removeObject v) : Prog (GraphBase VV EV) PUnit) := by
  rintro g ⟨vs, es, h⟩
  cases hv : vs v with
  | none =>
      obtain ⟨ex, t, ht, hm⟩ := removeObject_rejects h.vertices hv
      exact stored_error (zoom_error vertexPart ht) ⟨hm, h.edges⟩
  | some x =>
      obtain ⟨g', hrun, h'⟩ := removeVertexObject_holds h hv
      exact stored_ok hrun h'

theorem removeEdgeObject_stored (e : Nat) :
    Preserves Stored (zoom edgePart (removeObject e) : Prog (GraphBase VV EV) PUnit) := by
  rintro g ⟨vs, es, h⟩
  cases he : es e with
  | none =>
      obtain ⟨ex, t, ht, hm⟩ := removeObject_rejects h.edges he
      exact stored_error (zoom_error edgePart ht) ⟨h.vertices, hm⟩
  | some y =>
      obtain ⟨g', hrun, h'⟩ := removeEdgeObject_holds h he
      exact stored_ok hrun h'

theorem addVertex_stored (fits : Nat → Bool) (value : VV) :
    Preserves Stored (addVertex fits value : Prog (GraphBase VV EV) Nat) := by
  rintro g ⟨vs, es, h⟩
  obtain ⟨ex, g', hrun, -, h'⟩ | ⟨i, g', hrun, -, h'⟩ := addVertex_holds h fits value
  · exact stored_error hrun h'
  · exact stored_ok hrun h'

theorem assignEdge_stored (fits : Nat → Bool) (value : EV) :
    Preserves Stored (zoom edgePart (assignObject edgeType fits value) :
      Prog (GraphBase VV EV) Nat) := by
  rintro g ⟨vs, es, h⟩
  obtain ⟨ex, g', hrun, -, h'⟩ | ⟨i, g', hrun, -, h'⟩ := assignEdge_holds h fits value
  · exact stored_error hrun h'
  · exact stored_ok hrun h'

theorem associatedEdges_stored (v : Nat) :
    Preserves Stored (associatedEdges v : Prog (GraphBase VV EV) _) :=
  (getVertex_stored v).bind fun _ => .pure _

theorem associatedVertices_stored (e : Nat) :
    Preserves Stored (associatedVertices e : Prog (GraphBase VV EV) _) :=
  (getEdge_stored e).bind fun _ => .pure _

theorem associatedEdge_stored (x : Vertex VV) (w : Nat) :
    Preserves Stored (ofExcept (x.associatedEdge w) : Prog (GraphBase VV EV) Nat) := by
  cases x.associatedEdge w with
  | ok k => exact .pure k
  | error ex => exact .throw ex

end Stored

section Undirected

open UndirectedGraph

theorem stepPast_stored (v e : Nat) : Preserves Stored (stepPast v e : Prog (GraphBase VV EV) _) := by
  refine .bind (.bind (getVertex_stored v) fun _ => .pure _) fun b => ?_
  cases b with
  | true => exact .pure _
  | false => exact .throw _

theorem undirected_removeEdge_stored (e : Nat) :
    Preserves Stored (removeEdge e : Prog (GraphBase VV EV) _) :=
  .bind (associatedVertices_stored e) fun _ => .bind (atVertex_stored _ _) fun _ =>
    .bind (atVertex_stored _ _) fun _ => removeEdgeObject_stored e

theorem undirected_getEdge_stored (x y : Nat) :
    Preserves Stored (UndirectedGraph.getEdge x y : Prog (GraphBase VV EV) Nat) := by
  refine .bind (getVertex_stored x) fun vx => .bind (getVertex_stored y) fun vy => ?_
  split_ifs
  · exact associatedEdge_stored vx y
  · exact associatedEdge_stored vy x

theorem undirected_exec_stored (o : Op VV EV) : Preserves Stored (exec o) := by
  cases o with
  | addVertex fits value => exact .bind (addVertex_stored fits value) fun _ => .pure _
  | addEdge fits x y value =>
      refine .bind (.bind (assignEdge_stored fits value) fun i => ?_) fun _ => .pure _
      exact .bind (setAssociatedVertices_stored i x y) fun _ => .bind (atVertex_stored x _) fun _ =>
        .bind (atVertex_stored y _) fun _ => .pure _
  | removeEdge e => exact .bind (undirected_removeEdge_stored e) fun _ => .pure _
  | removeEdgeBetween x y =>
      exact .bind (.bind (undirected_getEdge_stored x y) undirected_removeEdge_stored) fun _ => .pure _
  | removeVertex v =>
      refine .bind (.bind (associatedEdges_stored v) fun l => ?_) fun _ => .pure _
      refine .bind (.forEach (fun r => ?_) l) fun _ => removeVertexObject_stored v
      exact .bind (atVertex_stored _ _) fun _ => .bind (removeEdgeObject_stored _) fun _ =>
        stepPast_stored v _

end Undirected

section Directed

open DirectedGraph

theorem directed_removeEdge_stored (e : Nat) :
    Preserves Stored (removeEdge e : Prog (GraphBase VV EV) _) :=
  .bind (associatedVertices_stored e) fun _ => .bind (atVertex_stored _ _) fun _ =>
    removeEdgeObject_stored e

theorem directed_exec_stored (o : Op VV EV) : Preserves Stored (exec o) := by
  cases o with
  | addVertex fits value => exact .bind (addVertex_stored fits value) fun _ => .pure _
  | addEdge fits x y value =>
      refine .bind (.bind (assignEdge_stored fits value) fun i => ?_) fun _ => .pure _
      exact .bind (setAssociatedVertices_stored i x y) fun _ => .bind (atVertex_stored x _) fun _ =>
        .pure _
  | removeEdge e => exact .bind (directed_removeEdge_stored e) fun _ => .pure _
  | removeEdgeBetween x y =>
      refine .bind (.bind ?_ directed_removeEdge_stored) fun _ => .pure _
      exact .bind (getVertex_stored x) fun vx => associatedEdge_stored vx y
  | removeVertex v =>
      refine .bind (.bind (associatedEdges_stored v) fun l => ?_) fun _ => .pure _
      refine .bind (.forEach (fun r => ?_) l) fun _ => removeVertexObject_stored v
      exact removeEdgeObject_stored r.edge

end Directed

structure Unchanged (g g' : GraphBase VV EV) : Prop where
  edges : ∀ e a b, LiveEdge g' e a b ↔ LiveEdge g e a b
  sets : ∀ v l, outcome (associatedEdges v) g' = (.ok l, g') ↔ outcome (associatedEdges v) g = (.ok l, g)

theorem not_unchanged (h : Holds g vs es) {i x y : Nat} (hi : es i = none)
    (he : LiveEdge g' i x y) : ¬Unchanged g g' := by
  intro hsame
  obtain ⟨z, hz, -⟩ := (liveEdge_iff h).mp ((hsame.edges i x y).mp he)
  cases hi.symm.trans hz

section Halfway

variable {fits : Nat → Bool} {x y : Nat} {value : EV} {ex : Exc}

theorem newEdge_live {i : Nat} (h : Holds g vs (Function.update es i (some ⟨value, (x, y)⟩))) :
    LiveEdge g i x y :=
  (liveEdge_iff h).mpr ⟨_, Function.update_self _ _ _, rfl⟩

theorem attach_cases (h : Holds g vs es) (v : Nat) (r : EdgeRef) :
    (∃ ex, atVertex v (addAssociatedEdge r) g = .error ex g) ∨
      ∃ g' vs', atVertex v (addAssociatedEdge r) g = .ok ⟨⟩ g' ∧ Holds g' vs' es := by
  cases hv : vs v with
  | none =>
      obtain ⟨ex, hex, -⟩ := atVertex_rejects h hv (addAssociatedEdge r)
      exact Or.inl ⟨ex, hex⟩
  | some x =>
      obtain ⟨g', hrun, h'⟩ := attachAt_holds h hv r
      exact Or.inr ⟨g', _, hrun, h'⟩

theorem halfway {rest : Nat → Prog (GraphBase VV EV) Nat} (h : Holds g vs es)
    (hrest : ∀ i g2, Holds g2 vs (Function.update es i (some ⟨value, (x, y)⟩)) →
      rest i g2 = .error ex g' → LiveEdge g' i x y)
    (hrun : (do
      let i ← zoom edgePart (assignObject edgeType fits value)
      atEdge i (setAssociatedVertices x y)
      rest i) g = .error ex g')
    (hr : ex.RejectsId x ∨ ex.RejectsId y) : ∃ i, es i = none ∧ LiveEdge g' i x y := by
  obtain ⟨ex', t, ht, hroom, -⟩ | ⟨i, t, t1, ht, ht1, hi, h1⟩ := newEdge_holds h fits x y value
  · rw [bind_error ht] at hrun
    cases hrun
    exact absurd hr (not_or.mpr ⟨hroom.not_rejectsId x, hroom.not_rejectsId y⟩)
  · rw [bind_ok ht, bind_ok ht1] at hrun
    exact ⟨i, hi, hrest i t1 h1 hrun⟩

theorem undirected_halfway (h : Holds g vs es)
    (hrun : UndirectedGraph.addEdge fits x y value g = .error ex g')
    (hr : ex.RejectsId x ∨ ex.RejectsId y) : ∃ i, es i = none ∧ LiveEdge g' i x y := by
  refine halfway h ?_ hrun hr
  intro i g2 h2 hrest
  obtain ⟨ex', hex⟩ | ⟨g3, vs3, hg3, h3⟩ := attach_cases h2 x ⟨i, y⟩
  · rw [bind_error hex] at hrest
    cases hrest
    exact newEdge_live h2
  · rw [bind_ok hg3] at hrest
    obtain ⟨ex', hex⟩ | ⟨g4, vs4, hg4, -⟩ := attach_cases h3 y ⟨i, x⟩
    · rw [bind_error hex] at hrest
      cases hrest
      exact newEdge_live h3
    · rw [bind_ok hg4] at hrest
      cases hrest

theorem directed_halfway (h : Holds g vs es)
    (hrun : DirectedGraph.addEdge fits x y value g = .error ex g')
    (hr : ex.RejectsId x ∨ ex.RejectsId y) : ∃ i, es i = none ∧ LiveEdge g' i x y := by
  refine halfway h ?_ hrun hr
  intro i g2 h2 hrest
  obtain ⟨ex', hex⟩ | ⟨g3, vs3, hg3, -⟩ := attach_cases h2 x ⟨i, y⟩
  · rw [bind_error hex] at hrest
    cases hrest
    exact newEdge_live h2
  · rw [bind_ok hg3] at hrest
    cases hrest

end Halfway

/-- Whatever calls came before, an `add_edge` that throws because a vertex is
not there has changed the graph. -/
theorem addEdge_not_atomic (VV EV : Type) :
    (∀ (os : List (UndirectedGraph.Op VV EV)) g, (run UndirectedRuns.step os {}).2 = g →
      ∀ fits x y value ex g', UndirectedRuns.step (.addEdge fits x y value) g = (.error ex, g') →
        ex.RejectsId x ∨ ex.RejectsId y → ¬Unchanged g g') ∧
    (∀ (os : List (DirectedGraph.Op VV EV)) g, (run DirectedRuns.step os {}).2 = g →
      ∀ fits x y value ex g', DirectedRuns.step (.addEdge fits x y value) g = (.error ex, g') →
        ex.RejectsId x ∨ ex.RejectsId y → ¬Unchanged g g') := by
  have hempty : Stored ({} : GraphBase VV EV) := ⟨_, _, holds_empty⟩
  constructor
  · rintro os _ rfl fits x y value ex g' hstep hr
    obtain ⟨vs, es, h⟩ := (run_invariant Stored (fun _ => True)
      (fun o g hg _ => ⟨trivial, undirected_exec_stored o g hg⟩) os {} hempty
      (along_true UndirectedRuns.step os {})).2
    obtain ⟨i, hi, he⟩ := undirected_halfway h (error_of_bind_pure (error_of_outcome hstep)) hr
    exact not_unchanged h hi he
  · rintro os _ rfl fits x y value ex g' hstep hr
    obtain ⟨vs, es, h⟩ := (run_invariant Stored (fun _ => True)
      (fun o g hg _ => ⟨trivial, directed_exec_stored o g hg⟩) os {} hempty
      (along_true DirectedRuns.step os {})).2
    obtain ⟨i, hi, he⟩ := directed_halfway h (error_of_bind_pure (error_of_outcome hstep)) hr
    exact not_unchanged h hi he

section Lone

def loneUndirected : List (UndirectedGraph.Op Nat Nat) := [.addVertex (fun _ => true) 7]

def loneDirected : List (DirectedGraph.Op Nat Nat) := [.addVertex (fun _ => true) 7]

theorem addEdge_not_atomic_lone :
    ¬Unchanged (run UndirectedRuns.step loneUndirected {}).2 (UndirectedRuns.step
        (.addEdge (fun _ => true) 0 5 6) (run UndirectedRuns.step loneUndirected {}).2).2 ∧
      ¬Unchanged (run DirectedRuns.step loneDirected {}).2 (DirectedRuns.step
        (.addEdge (fun _ => true) 5 0 6) (run DirectedRuns.step loneDirected {}).2).2 :=
  ⟨(addEdge_not_atomic Nat Nat).1 loneUndirected _ rfl (fun _ => true) 0 5 6 (.indexOutOfRange 5) _ rfl
      (Or.inr (Or.inl rfl)),
    (addEdge_not_atomic Nat Nat).2 loneDirected _ rfl (fun _ => true) 5 0 6 (.indexOutOfRange 5) _ rfl
      (Or.inl (Or.inl rfl))⟩

/-- The call throws, and leaves an edge to vertex 5 in the repository and in
the set of vertex 0. -/
theorem addEdge_leaves_half :
    ∃ g g', (run UndirectedRuns.step loneUndirected {}).2 = g ∧
      UndirectedRuns.step (.addEdge (fun _ => true) 0 5 6) g = (.error (.indexOutOfRange 5), g') ∧
      outcome (associatedEdges 0) g = (.ok [], g) ∧
      outcome (associatedEdges 0) g' = (.ok [⟨0, 5⟩], g') ∧ LiveEdge g' 0 0 5 ∧
      ¬Unchanged g g' := by
  refine ⟨_, _, rfl, rfl, rfl, rfl, rfl, fun h => ?_⟩
  have hold := congrArg Prod.fst ((h.edges 0 0 5).mp rfl)
  exact absurd hold (by decide)

end Lone

end Lzhlib.AddEdgeFailure
