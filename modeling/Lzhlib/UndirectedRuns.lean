import Lzhlib.UndirectedEffects
import Lzhlib.Runs

namespace Lzhlib.UndirectedRuns

open Programs Machine KeyedSets GraphRecords GraphMaps UndirectedGraph Incidence UndirectedEffects
  Runs

variable {VV EV : Type} {g : GraphBase VV EV} {vs : Nat → Option (Vertex VV)}
  {es : Nat → Option (Edge EV)} {v e : Nat} {x : Vertex VV} {y : Edge EV}

def step (o : Op VV EV) (g : GraphBase VV EV) : Except Exc (Option Nat) × GraphBase VV EV :=
  outcome (exec o) g

def Allowed : Op VV EV → GraphBase VV EV → Prop
  | .addVertex _ _, _ => True
  | .addEdge _ x y _, g => x ≠ y ∧ LiveVertex g x ∧ LiveVertex g y
  | .removeEdge e, g => ∃ a b, LiveEdge g e a b
  | .removeEdgeBetween x y, g => ∃ e, LiveEdge g e x y ∨ LiveEdge g e y x
  | .removeVertex v, g => LiveVertex g v

/-- New edges join two different vertices that are there; nothing else is asked. -/
def ProperEnds : Op VV EV → GraphBase VV EV → Prop
  | .addEdge _ x y _, g => x ≠ y ∧ LiveVertex g x ∧ LiveVertex g y
  | _, _ => True

theorem Allowed.properEnds {o : Op VV EV} (h : Allowed o g) : ProperEnds o g := by
  cases o with
  | addEdge => exact h
  | addVertex | removeEdge | removeEdgeBetween | removeVertex => trivial

theorem ProperEnds.liveEnds {o : Op VV EV} (h : ProperEnds o g) : LiveEnds o g := by
  cases o with
  | addEdge => exact h.2
  | addVertex | removeEdge | removeEdgeBetween | removeVertex => trivial

def Sound (g : GraphBase VV EV) : Prop := ∃ vs es, Holds g vs es ∧ Incident vs es

theorem sound_empty : Sound ({} : GraphBase VV EV) :=
  ⟨_, _, holds_empty, linked_empty, fun _ _ h => absurd h (by simp)⟩

theorem liveEdge_or_iff (h : Holds g vs es) {u w : Nat} :
    LiveEdge g e u w ∨ LiveEdge g e w u ↔ ∃ y, es e = some y ∧ joins y.vertices u w := by
  rw [liveEdge_iff h, liveEdge_iff h, ← exists_or]
  simp only [← and_or_left]
  rfl

theorem not_removesLoop (hinc : Incident vs es) (o : Op VV EV) : ¬RemovesLoop es o := by
  have hloop (v : Nat) : ¬HasLoop es v := by
    rintro ⟨e, y, hy, hv⟩
    exact hinc.loopFree e y hy (by rw [hv])
  cases o with
  | addVertex | addEdge => exact id
  | removeEdge e =>
      rintro ⟨y, hy, hv⟩
      exact hinc.loopFree e y hy hv
  | removeEdgeBetween u w => exact fun h => hloop u h.2
  | removeVertex v => exact hloop v

theorem step_effect (h : Holds g vs es) (hinc : Incident vs es) {o : Op VV EV}
    (ho : ProperEnds o g) : ∃ vs' es', Holds (step o g).2 vs' es' ∧
      Effect vs es o (step o g).1 vs' es' ∧ Incident vs' es' := by
  obtain ⟨res, g', vs', es', hrun, h', heffect⟩ :=
    exec_effect h hinc.toLinked ho.liveEnds (not_removesLoop hinc o)
  rw [step, hrun]
  refine ⟨vs', es', h', heffect, ?_⟩
  cases heffect with
  | refused => exact hinc
  | vertex hi => exact ⟨hinc.toLinked.addVertex hi _, hinc.loopFree⟩
  | edge ha hb hi => exact hinc.enter ha hb ho.1 hi _
  | removeEdge | removeBetween => exact hinc.prune _
  | removeVertex hu => exact hinc.isolate hu

theorem step_sound (o : Op VV EV) (g : GraphBase VV EV) (hg : Sound g) (ho : ProperEnds o g) :
    (step o g).1 ≠ .error .undefined ∧ Sound (step o g).2 := by
  obtain ⟨vs, es, h, hinc⟩ := hg
  obtain ⟨vs', es', h', heffect, hinc'⟩ := step_effect h hinc ho
  exact ⟨heffect.ne_undefined, vs', es', h', hinc'⟩

theorem run_sound (os : List (Op VV EV)) (ho : Along step ProperEnds os {}) :
    (∀ reply ∈ (run step os {}).1, reply ≠ .error .undefined) ∧ Sound (run step os {}).2 :=
  run_invariant Sound (· ≠ .error .undefined) step_sound os {} sound_empty ho

/-- The three records of every edge agree, as far as callers can see. -/
structure Consistent (g : GraphBase VV EV) : Prop where
  ends : ∀ e a b, LiveEdge g e a b →
    LiveVertex g a ∧ LiveVertex g b ∧ Entry g a ⟨e, b⟩ ∧ Entry g b ⟨e, a⟩
  entries : ∀ v r, Entry g v r →
    LiveEdge g r.edge v r.oppositeVertex ∨ LiveEdge g r.edge r.oppositeVertex v
  associated : ∀ v e, LiveVertex g v → ∃ b, outcome (associated v e) g = (.ok b, g) ∧
    (b = true ↔ ∃ w, LiveEdge g e v w ∨ LiveEdge g e w v)
  neighbors : ∀ v w l m, outcome (neighbors v) g = (.ok l, g) →
    outcome (neighbors w) g = (.ok m, g) → l.count w = m.count v
  fresh : ∀ fits value i g', outcome (addVertex fits value) g = (.ok i, g') →
    outcome (associatedEdges i) g' = (.ok [], g')

theorem count_neighbors (x : Vertex VV) (w : Nat) :
    (x.edges.toList.map EdgeRef.oppositeVertex).count w =
      ((x.edges.toList.filter fun r => r.oppositeVertex == w).map EdgeRef.edge).length := by
  rw [List.length_map, ← List.countP_eq_length_filter, List.count, List.countP_map]
  rfl

theorem count_symm (hinc : Incident vs es) {u w : Nat} {xu xw : Vertex VV} (hu : vs u = some xu)
    (hw : vs w = some xw) : (xu.edges.toList.map EdgeRef.oppositeVertex).count w =
      (xw.edges.toList.map EdgeRef.oppositeVertex).count u := by
  have hmem {u w : Nat} {x : Vertex VV} (hu : vs u = some x) (e : Nat) :
      e ∈ (x.edges.toList.filter fun r => r.oppositeVertex == w).map EdgeRef.edge ↔
        ∃ y, es e = some y ∧ joins y.vertices u w := by
    rw [List.mem_map]
    constructor
    · rintro ⟨r, hr, rfl⟩
      obtain ⟨hr, ho⟩ := List.mem_filter.mp hr
      obtain ⟨y, hy, hj⟩ := (hinc.entries u x hu r).mp hr
      exact ⟨y, hy, (beq_iff_eq.mp ho) ▸ hj⟩
    · rintro ⟨y, hy, hj⟩
      exact ⟨⟨e, w⟩, List.mem_filter.mpr ⟨(hinc.entries u x hu ⟨e, w⟩).mpr ⟨y, hy, hj⟩, by simp⟩, rfl⟩
  have hnodup (x : Vertex VV) (w : Nat) :
      ((x.edges.toList.filter fun r => r.oppositeVertex == w).map EdgeRef.edge).Nodup :=
    x.edges.nodup_keys.sublist (List.filter_sublist.map _)
  rw [count_neighbors, count_neighbors]
  refine ((List.perm_ext_iff_of_nodup (hnodup xu w) (hnodup xw u)).mpr fun e => ?_).length_eq
  rw [hmem hu, hmem hw]
  exact exists_congr fun y => and_congr_right fun _ => or_comm

theorem Sound.consistent (hg : Sound g) : Consistent g := by
  obtain ⟨vs, es, h, hinc⟩ := hg
  refine ⟨?_, ?_, ?_, ?_, ?_⟩
  · intro e a b he
    obtain ⟨y, hy, hv⟩ := (liveEdge_iff h).mp he
    obtain ⟨xa, ha⟩ := hinc.live e y a b hy (Or.inl hv)
    obtain ⟨xb, hb⟩ := hinc.live e y b a hy (Or.inr hv)
    refine ⟨(liveVertex_iff h).mpr ⟨xa, ha⟩, (liveVertex_iff h).mpr ⟨xb, hb⟩, ?_, ?_⟩
    · exact (entry_iff h).mpr ⟨xa, ha, (hinc.entries a xa ha ⟨e, b⟩).mpr ⟨y, hy, Or.inl hv⟩⟩
    · exact (entry_iff h).mpr ⟨xb, hb, (hinc.entries b xb hb ⟨e, a⟩).mpr ⟨y, hy, Or.inr hv⟩⟩
  · intro v r hr
    obtain ⟨x, hx, hr⟩ := (entry_iff h).mp hr
    exact (liveEdge_or_iff h).mpr ((hinc.entries v x hx r).mp hr)
  · intro v e hv
    obtain ⟨x, hx⟩ := (liveVertex_iff h).mp hv
    refine ⟨_, outcome_ok (associated_holds h hx e), ?_⟩
    simp only [liveEdge_or_iff h]
    rw [Vertex.associated, KeyedSet.find?_isSome]
    constructor
    · rintro ⟨r, hr, rfl⟩
      exact ⟨_, (hinc.entries v x hx r).mp hr⟩
    · rintro ⟨w, hw⟩
      exact ⟨⟨e, w⟩, (hinc.entries v x hx ⟨e, w⟩).mpr hw, rfl⟩
  · intro v w l m hl hm
    obtain ⟨xv, hv, rfl⟩ := neighbors_live h hl
    obtain ⟨xw, hw, rfl⟩ := neighbors_live h hm
    exact count_symm hinc hv hw
  · intro fits value i g' hrun
    obtain ⟨ex, t, ht, -⟩ | ⟨j, t, ht, -, h'⟩ := addVertex_holds h fits value
    · rw [outcome_error ht] at hrun
      cases hrun
    · rw [outcome_ok ht] at hrun
      cases hrun
      exact outcome_ok (associatedEdges_holds h' (Function.update_self _ _ _))

/-- Every run of operations on the vertices and edges they ask for. -/
theorem runs_consistent (os : List (Op VV EV)) (ho : Along step Allowed os {}) :
    (∀ reply ∈ (run step os {}).1, reply ≠ .error .undefined) ∧ Consistent (run step os {}).2 := by
  obtain ⟨hreply, hsound⟩ := run_sound os (ho.imp fun _ _ => Allowed.properEnds)
  exact ⟨hreply, hsound.consistent⟩

def parallelOps : List (Op Nat Nat) :=
  [.addVertex (fun _ => true) 7, .addVertex (fun _ => true) 8,
    .addEdge (fun _ => true) 0 1 5, .addEdge (fun _ => true) 1 0 6, .removeEdgeBetween 0 1,
    .removeVertex 0, .addVertex (fun _ => true) 9]

theorem runs_consistent_parallel :
    (∀ reply ∈ (run step parallelOps {}).1, reply ≠ .error .undefined) ∧
      Consistent (run step parallelOps {}).2 :=
  runs_consistent parallelOps ⟨trivial, trivial, ⟨by decide, rfl, rfl⟩, ⟨by decide, rfl, rfl⟩,
    ⟨0, Or.inl rfl⟩, rfl, trivial, trivial⟩

end Lzhlib.UndirectedRuns
