import Lzhlib.DirectedRuns

namespace Lzhlib.OutIncidence

open Programs Machine GraphRecords GraphMaps DirectedGraph Dangling Runs DirectedRuns

variable {VV EV : Type} {g : GraphBase VV EV} {vs vs' : Nat → Option (Vertex VV)}
  {es : Nat → Option (Edge EV)} {v e : Nat} {x : Vertex VV} {y : Edge EV}

def EdgeAt (g : GraphBase VV EV) (e : Nat) (y : Edge EV) : Prop :=
  outcome (GraphRecords.getEdge e) g = (.ok y, g)

theorem edgeAt_iff (h : Holds g vs es) : EdgeAt g e y ↔ es e = some y := by
  rw [EdgeAt]
  cases he : es e with
  | some z =>
      rw [outcome_ok (getEdge_holds h he)]
      simp
  | none =>
      obtain ⟨ex, hex, -⟩ := getEdge_rejects h he
      rw [outcome_error hex]
      simp

def FindsLeast (g : GraphBase VV EV) (u w k : Nat) : Prop :=
  outcome (DirectedGraph.getEdge u w) g = (.ok k, g) ∧ LiveEdge g k u w ∧
    ∀ e, LiveEdge g e u w → k ≤ e

/-- The sets of the vertices hold the edges that leave them, whatever became
of the vertices these lead to. -/
structure OutIncident (g : GraphBase VV EV) : Prop where
  entries : ∀ u, LiveVertex g u → ∀ r, Entry g u r ↔ LiveEdge g r.edge u r.oppositeVertex
  sources : ∀ e u w, LiveEdge g e u w → LiveVertex g u
  least : ∀ e u w, LiveEdge g e u w → ∃ k, FindsLeast g u w k

theorem getEdge_finds (h : Holds g vs es) (hl : Linked leads vs es) {u w : Nat}
    (he : LiveEdge g e u w) : ∃ k, FindsLeast g u w k := by
  obtain ⟨y, hy, hyv⟩ := (liveEdge_iff h).mp he
  obtain ⟨k, z, hget, hz⟩ := getEdge_leads h hl hy hyv
  refine ⟨k, outcome_ok hget, (liveEdge_iff h).mpr ⟨z, hz.here, hz.ends⟩, ?_⟩
  intro e' he'
  obtain ⟨y', hy', hyv'⟩ := (liveEdge_iff h).mp he'
  exact hz.le e' y' hy' hyv'

theorem outIncident (h : Holds g vs es) (hl : Linked leads vs es) : OutIncident g := by
  refine ⟨?_, ?_, fun e u w he => getEdge_finds h hl he⟩
  · intro u hu r
    obtain ⟨x, hx⟩ := (liveVertex_iff h).mp hu
    rw [entry_iff h, liveEdge_iff h]
    constructor
    · rintro ⟨z, hz, hr⟩
      exact (hl.entries u z hz r).mp hr
    · intro hr
      exact ⟨x, hx, (hl.entries u x hx r).mpr hr⟩
  · intro e u w he
    obtain ⟨y, hy, hyv⟩ := (liveEdge_iff h).mp he
    exact (liveVertex_iff h).mpr (hl.live e y u w hy hyv)

def RemovesEdges (o : Op VV EV) (gone : Nat → Edge EV → Prop) (g : GraphBase VV EV) : Prop :=
  (step o g).1 = .ok none ∧ ∀ e y, EdgeAt (step o g).2 e y ↔ EdgeAt g e y ∧ ¬gone e y

theorem removesEdges_of_drop {o : Op VV EV} {gone : Nat → Edge EV → Prop} {d : List Nat}
    (h : Holds g vs es) (hres : (step o g).1 = .ok none) (h' : Holds (step o g).2 vs' (drop d es))
    (hgone : ∀ e y, es e = some y → (e ∈ d ↔ gone e y)) : RemovesEdges o gone g := by
  refine ⟨hres, fun e y => ?_⟩
  rw [edgeAt_iff h', edgeAt_iff h, drop]
  split_ifs with hmem
  · apply iff_of_false (by simp)
    rintro ⟨hy, hnot⟩
    exact hnot ((hgone e y hy).mp hmem)
  · exact (and_iff_left_of_imp fun hy hg => hmem ((hgone e y hy).mpr hg)).symm

structure Removals (g : GraphBase VV EV) : Prop where
  edge : ∀ e u w, LiveEdge g e u w → RemovesEdges (.removeEdge e) (fun k _ => k = e) g
  between : ∀ e u w, LiveEdge g e u w → ∃ k, FindsLeast g u w k ∧
    RemovesEdges (.removeEdgeBetween u w) (fun k' _ => k' = k) g
  vertex : ∀ v, LiveVertex g v → RemovesEdges (.removeVertex v) (fun _ y => y.vertices.1 = v) g

theorem removeEdge_removes (h : Holds g vs es) (hl : Linked leads vs es) {u w : Nat}
    (he : LiveEdge g e u w) : RemovesEdges (.removeEdge e) (fun k _ => k = e) g := by
  obtain ⟨vs', es', h', heffect⟩ := step_effect h hl (o := .removeEdge e) ⟨u, w, he⟩
  generalize hres : (step (.removeEdge e) g).1 = res at heffect
  cases heffect with
  | removeEdge => exact removesEdges_of_drop h hres h' fun k y _ => List.mem_singleton

theorem removeEdgeBetween_removes (h : Holds g vs es) (hl : Linked leads vs es) {u w : Nat}
    (he : LiveEdge g e u w) : ∃ k, FindsLeast g u w k ∧
      RemovesEdges (.removeEdgeBetween u w) (fun k' _ => k' = k) g := by
  obtain ⟨k, hk⟩ := getEdge_finds h hl he
  obtain ⟨y, hy, hyv⟩ := (liveEdge_iff h).mp hk.2.1
  obtain ⟨vs', es', h', heffect⟩ := step_effect h hl (o := .removeEdgeBetween u w) ⟨e, he⟩
  generalize hres : (step (.removeEdgeBetween u w) g).1 = res at heffect
  cases heffect with
  | @removeBetween _ _ k' z hz hzv hleast =>
      have hkk : k' = k :=
        Nat.le_antisymm (hleast k y hy hyv) (hk.2.2 k' ((liveEdge_iff h).mpr ⟨z, hz, hzv⟩))
      subst hkk
      exact ⟨k', hk, removesEdges_of_drop h hres h' fun j t _ => List.mem_singleton⟩

theorem removeVertex_removes (h : Holds g vs es) (hl : Linked leads vs es) (hv : LiveVertex g v) :
    RemovesEdges (.removeVertex v) (fun _ y => y.vertices.1 = v) g := by
  obtain ⟨vs', es', h', heffect⟩ := step_effect h hl (o := .removeVertex v) hv
  generalize hres : (step (.removeVertex v) g).1 = res at heffect
  cases heffect with
  | removeVertex hu =>
      apply removesEdges_of_drop h hres h'
      intro e y hy
      rw [mem_edgeIds hl hu]
      constructor
      · rintro ⟨z, w, hz, hj⟩
        cases hy.symm.trans hz
        exact (Prod.ext_iff.mp hj).1
      · intro hs
        exact ⟨y, y.vertices.2, hy, Prod.ext hs rfl⟩

theorem removals (h : Holds g vs es) (hl : Linked leads vs es) : Removals g where
  edge _ _ _ he := removeEdge_removes h hl he
  between _ _ _ he := removeEdgeBetween_removes h hl he
  vertex _ hv := removeVertex_removes h hl hv

theorem run_represented (os : List (Op VV EV)) (ho : Along step Allowed os {}) :
    Represented (run step os {}).2 :=
  (run_invariant Represented (fun _ => True)
    (fun o g hg ha => ⟨trivial, step_represented o g hg ha⟩) os {} represented_empty ho).2

/-- In every state a run reaches the sets list the edges that leave the live
vertices, and the removals return and take out what they name. -/
theorem runs_outIncident (os : List (Op VV EV)) (ho : Along step Allowed os {}) :
    OutIncident (run step os {}).2 ∧ Removals (run step os {}).2 := by
  obtain ⟨vs, es, h, hl⟩ := run_represented os ho
  exact ⟨outIncident h hl, removals h hl⟩

def lingeringOps : List (Op Nat Nat) :=
  [.addVertex (fun _ => true) 7, .addVertex (fun _ => true) 8, .addEdge (fun _ => true) 0 1 5,
    .addEdge (fun _ => true) 0 1 6, .addEdge (fun _ => true) 0 0 4, .removeVertex 1,
    .removeEdgeBetween 0 1, .addVertex (fun _ => true) 9, .addEdge (fun _ => true) 1 0 3]

theorem runs_outIncident_lingering :
    OutIncident (run step lingeringOps {}).2 ∧ Removals (run step lingeringOps {}).2 :=
  runs_outIncident lingeringOps
    ⟨trivial, trivial, ⟨rfl, rfl⟩, ⟨rfl, rfl⟩, ⟨rfl, rfl⟩, rfl, ⟨0, rfl⟩, trivial, ⟨rfl, rfl⟩,
      trivial⟩

end Lzhlib.OutIncidence
