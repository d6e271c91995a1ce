import Lzhlib.GraphRefinement
import Lzhlib.Incidence

namespace Lzhlib.GraphSimulation

open Programs Machine ValueRepo KeyedSets GraphRecords ObjectPool RepoRefinement GraphMaps GraphCalls
  Multigraphs Multigraph GraphRefinement Runs

variable {VV EV : Type} {o : Orientation} {g : GraphBase VV EV} {m : Multigraph VV EV} {v e : Nat}
  {a : VV} {y : Edge EV}

theorem follows_changed (h : Represents o g m) {α : Type} {p : Prog (GraphBase VV EV) PUnit}
    {res : Except Exc α} {f : α → Multigraph VV EV}
    (hok : ∀ a, res = .ok a → ∃ g', p g = .ok ⟨⟩ g' ∧ Represents o g' (f a))
    (herror : ∀ ex, res = .error ex → p g = .error ex g) :
    Follows o (do
      p
      return (.done : Reply VV EV)) g (m.changed res f) := by
  cases res with
  | error ex => exact follows_error (bind_error (herror ex rfl) _) h
  | ok a =>
      obtain ⟨g', hrun, h'⟩ := hok a rfl
      exact follows_ok (bind_ok hrun _) h'

section Values

theorem atVertex_fails (h : Represents o g m) {ex : Exc} (hv : m.vertexAt v = .error ex)
    {α : Type} (p : Prog (Vertex VV) α) : atVertex v p g = .error ex g := by
  have hget : ((layout o m).get v).1 = .error ex := by
    rw [layout, Pool.mapValues_get h.sound.vertices, ← vertexAt, hv]
    rfl
  exact zoom_error vertexPart (withObject_fails h.stores.vertices hget p)

theorem atEdge_fails (h : Represents o g m) {ex : Exc} (he : m.edgeAt e = .error ex)
    {α : Type} (p : Prog (Edge EV) α) : atEdge e p g = .error ex g :=
  zoom_error edgePart (withObject_fails h.stores.edges he p)

theorem setVertexValue_follows (h : Represents o g m) (v : Nat) (b : VV) :
    Follows o (GraphCalls.exec o (.setVertexValue v b)) g (respond o (.setVertexValue v b) m) := by
  refine follows_changed h (fun a hv => ?_) fun ex hv => atVertex_fails h hv _
  have ha := Pool.value_of_get h.sound.vertices hv
  have hlive := h.sound.vertices.live ha
  obtain ⟨g', hrun, h'⟩ := atVertex_stores h.stores (v := v) hlive (layout_value o ha)
    (modify_apply (fun x : Vertex VV => { x with value := b }) _)
  refine ⟨g', hrun, ⟨?_, h'.edges⟩, h.sound.setVertexValue hlive b⟩
  have hpool : (layout o m).setValue v (some ⟨b, incident o m.edges v⟩) =
      layout o { m with vertices := m.vertices.setValue v (some b) } := by
    refine Pool.ext rfl rfl fun u => ?_
    by_cases hu : u = v <;> simp [layout, hu]
  exact hpool ▸ h'.vertices

theorem setEdgeValue_follows (h : Represents o g m) (e : Nat) (b : EV) :
    Follows o (GraphCalls.exec o (.setEdgeValue e b)) g (respond o (.setEdgeValue e b) m) := by
  refine follows_changed h (fun y he => ?_) fun ex he => atEdge_fails h he _
  have hy := Pool.value_of_get h.sound.edges he
  obtain ⟨g', hrun, h'⟩ := atEdge_stores h.stores (h.sound.edges.live hy) hy
    (modify_apply (fun y : Edge EV => { y with value := b }) _)
  refine ⟨g', hrun, ⟨?_, h'.edges⟩, h.sound.setEdgeValue hy b⟩
  rw [layout_congr fun u => incident_setValue h.sound.edges hy b]
  exact h'.vertices

end Values

section RemoveEdge

theorem associatedVertices_ok (h : Represents o g m) (hy : m.edges.value e = some y) :
    associatedVertices e g = .ok y.vertices g := by
  apply ok_of_outcome
  rw [associatedVertices, outcome_edge h, edgeAt, Pool.get_live h.sound.edges hy]
  rfl

theorem removeDirected_stores (h : Represents .directed g m) (hy : m.edges.value e = some y) :
    ∃ g', DirectedGraph.removeEdge e g = .ok ⟨⟩ g' ∧ Represents .directed g' (m.withoutEdge e) := by
  have hends : leadsTo .directed y.vertices y.vertices.1 = some y.vertices.2 := if_pos rfl
  obtain ⟨a, ha⟩ := (h.sound.vertices _).mp (h.sound.ends e y _ _ hy hends)
  obtain ⟨g1, hg1, h1⟩ := atVertex_stores h.stores (v := y.vertices.1) (h.sound.vertices.live ha)
    (layout_value _ ha) (removeAssociatedEdge_ok (find_incident h.sound.edges hy hends))
  obtain ⟨g2, hg2, h2⟩ := removeEdgeObject_stores h1 (h.sound.edges.live hy)
  refine ⟨g2, ?_, ⟨?_, h2.edges⟩, h.sound.withoutEdge e⟩
  · rw [DirectedGraph.removeEdge, bind_ok (associatedVertices_ok h hy), bind_ok hg1]
    exact hg2
  · have hpool : (layout .directed m).setValue y.vertices.1
        (some ⟨a, (incident .directed m.edges y.vertices.1).erase e⟩) =
        layout .directed (m.withoutEdge e) := by
      refine Pool.ext rfl rfl fun u => ?_
      by_cases hu : u = y.vertices.1
      · simp [layout, withoutEdge, incident_discard h.sound.edges, hu, ha]
      · have hold := erase_incident (o := .directed) (v := u) h.sound.edges hy (if_neg hu)
        simp [layout, withoutEdge, incident_discard h.sound.edges, hu, hold]
    exact hpool ▸ h2.vertices

theorem removeUndirected_stores (h : Represents .undirected g m) (hy : m.edges.value e = some y) :
    ∃ g', UndirectedGraph.removeEdge e g = .ok ⟨⟩ g' ∧ Represents .undirected g' (m.withoutEdge e) := by
  have hapart := h.sound.apart rfl e y hy
  have hfirst : leadsTo .undirected y.vertices y.vertices.1 = some y.vertices.2 := if_pos rfl
  have hsecond := leadsTo_symm hfirst
  obtain ⟨a, ha⟩ := (h.sound.vertices _).mp (h.sound.ends e y _ _ hy hfirst)
  obtain ⟨c, hc⟩ := (h.sound.vertices _).mp (h.sound.ends e y _ _ hy hsecond)
  obtain ⟨g1, hg1, h1⟩ := atVertex_stores h.stores (v := y.vertices.1) (h.sound.vertices.live ha)
    (layout_value _ ha) (removeAssociatedEdge_ok (find_incident h.sound.edges hy hfirst))
  obtain ⟨g2, hg2, h2⟩ := atVertex_stores h1 (v := y.vertices.2) (h.sound.vertices.live hc)
    ((Function.update_of_ne hapart.symm _ _).trans (layout_value _ hc))
    (removeAssociatedEdge_ok (find_incident h.sound.edges hy hsecond))
  obtain ⟨g3, hg3, h3⟩ := removeEdgeObject_stores h2 (h.sound.edges.live hy)
  refine ⟨g3, ?_, ⟨?_, h3.edges⟩, h.sound.withoutEdge e⟩
  · rw [UndirectedGraph.removeEdge, bind_ok (associatedVertices_ok h hy), bind_ok hg1, bind_ok hg2]
    exact hg3
  · have hpool : ((layout .undirected m).setValue y.vertices.1
        (some ⟨a, (incident .undirected m.edges y.vertices.1).erase e⟩)).setValue y.vertices.2
        (some ⟨c, (incident .undirected m.edges y.vertices.2).erase e⟩) =
        layout .undirected (m.withoutEdge e) := by
      refine Pool.ext rfl rfl fun u => ?_
      by_cases hu2 : u = y.vertices.2
      · simp [layout, withoutEdge, incident_discard h.sound.edges, hu2, hc]
      · by_cases hu1 : u = y.vertices.1
        · simp [layout, withoutEdge, incident_discard h.sound.edges, hu1, ha, hapart]
        · have hold := erase_incident (o := .undirected) (v := u) h.sound.edges hy
            ((if_neg hu1).trans (if_neg hu2))
          simp [layout, withoutEdge, incident_discard h.sound.edges, hu1, hu2, hold]
    exact hpool ▸ h3.vertices

theorem removeEdge_stores (h : Represents o g m) (hy : m.edges.value e = some y) :
    ∃ g', removeEdge o e g = .ok ⟨⟩ g' ∧ Represents o g' (m.withoutEdge e) := by
  cases o with
  | undirected => exact removeUndirected_stores h hy
  | directed => exact removeDirected_stores h hy

theorem removeEdge_fails (h : Represents o g m) {ex : Exc} (he : m.edgeAt e = .error ex) :
    removeEdge o e g = .error ex g := by
  have hread : associatedVertices e g = .error ex g := by
    apply error_of_outcome
    rw [associatedVertices, outcome_edge h, he]
    rfl
  cases o <;> exact bind_error hread _

theorem removeEdge_follows (h : Represents o g m) (e : Nat) :
    Follows o (GraphCalls.exec o (.removeEdge e)) g (respond o (.removeEdge e) m) :=
  follows_changed h (fun _ he => removeEdge_stores h (Pool.value_of_get h.sound.edges he))
    fun _ he => removeEdge_fails h he

theorem removeEdgeBetween_follows (h : Represents o g m) (x y : Nat) :
    Follows o (GraphCalls.exec o (.removeEdgeBetween x y)) g (respond o (.removeEdgeBetween x y) m) := by
  have hget := outcome_edgeBetween h x y
  refine follows_changed h (fun e he => ?_) fun ex he => ?_
  · obtain ⟨z, hz⟩ := edgeBetween_value h.sound.edges he
    obtain ⟨g', hrun, h'⟩ := removeEdge_stores h hz
    rw [he] at hget
    refine ⟨g', ?_, h'⟩
    cases o <;> exact (bind_ok (ok_of_outcome hget) _).trans hrun
  · rw [he] at hget
    cases o <;> exact bind_error (error_of_outcome hget) _

end RemoveEdge

section RemoveVertex

/-- The vertices while `remove_vertex` walks over the set of `v`: the edges of
`d` are gone from every other set. -/
def walked (o : Orientation) (m : Multigraph VV EV) (v : Nat) (a : VV) (d : List Nat) : Pool (Vertex VV) :=
  (layout o { m with edges := m.edges.discards d }).setValue v (some ⟨a, incident o m.edges v⟩)

theorem walked_nil (hv : m.vertices.value v = some a) : walked o m v a [] = layout o m :=
  Pool.setValue_same (layout_value o hv)

theorem walked_self (o : Orientation) (m : Multigraph VV EV) (v : Nat) (a : VV) (d : List Nat) :
    (walked o m v a d).value v = some ⟨a, incident o m.edges v⟩ :=
  Function.update_self _ _ _

theorem walked_value {w : Nat} {c : VV} (hw : m.vertices.value w = some c) (hwv : w ≠ v) (d : List Nat) :
    (walked o m v a d).value w = some ⟨c, incident o (m.edges.discards d) w⟩ := by
  simp [walked, layout, hwv, hw]

theorem walked_append (h : Sound o m) {d : List Nat} {p : Pool (Vertex VV)}
    (hl : p.live = m.vertices.live) (hf : p.free = m.vertices.free)
    (hself : p.value v = some ⟨a, incident o m.edges v⟩)
    (hothers : ∀ u, u ≠ v → p.value u = (m.vertices.value u).map fun c =>
      ⟨c, (incident o (m.edges.discards d) u).erase e⟩) :
    p = walked o m v a (d ++ [e]) := by
  refine Pool.ext hl hf fun u => ?_
  by_cases hu : u = v
  · rw [hu, hself, walked_self]
  · rw [hothers u hu, walked, Pool.setValue_value, Function.update_of_ne hu, layout,
      Pool.mapValues_value, Pool.discards_append, incident_discard (Pool.discards_full h.edges d)]

theorem discard_layout (hv : v ∈ m.vertices.live) (z : Option (Vertex VV)) :
    ((layout o m).setValue v z).discard v =
      layout o { m with vertices := m.vertices.discard v } := by
  have hlive : v ∈ (layout o m).live := hv
  rw [Pool.setValue_discard hlive, layout, Pool.mapValues_discard]
  rfl

theorem walk_stores (h : Represents o g m) (hv : m.vertices.value v = some a)
    {f : EdgeRef → Prog (GraphBase VV EV) PUnit}
    (hf : ∀ r y d g, m.edges.value r.edge = some y → leadsTo o y.vertices v = some r.oppositeVertex →
      r.edge ∉ d → Stores g (walked o m v a d) (m.edges.discards d) → ∃ g', f r g = .ok ⟨⟩ g' ∧
        Stores g' (walked o m v a (d ++ [r.edge])) (m.edges.discards (d ++ [r.edge]))) :
    ∃ g', (do
      forEach f (incident o m.edges v).toList
      zoom vertexPart (removeObject v)) g = .ok ⟨⟩ g' ∧ Represents o g' (withoutVertex o m v) := by
  have hlive := h.sound.vertices.live hv
  have hstart : Stores g (walked o m v a []) (m.edges.discards []) := by
    rw [walked_nil hv]
    exact h.stores
  obtain ⟨g1, hg1, h1⟩ := forEach_ok EdgeRef.edge
    (fun d g => Stores g (walked o m v a d) (m.edges.discards d)) (incident o m.edges v).toList
    (incident o m.edges v).nodup_keys (fun r hr d g hd hg => by
      obtain ⟨y, hy, hr⟩ := (mem_incident h.sound.edges).mp hr
      exact hf r y d g hy hr hd hg) hstart
  obtain ⟨g2, hg2, h2⟩ := removeVertexObject_stores h1 (v := v) hlive
  have hpool := discard_layout (o := o) (m := { m with edges := m.edges.discards ((incident o m.edges v).toList.map EdgeRef.edge) }) hlive
  rw [walked, hpool] at h2
  exact ⟨g2, (bind_ok hg1 _).trans hg2, h2, h.sound.withoutVertex v⟩

theorem removeDirectedVertex_stores (h : Represents .directed g m) (hv : m.vertices.value v = some a) :
    ∃ g', DirectedGraph.removeVertex v g = .ok ⟨⟩ g' ∧
      Represents .directed g' (withoutVertex .directed m v) := by
  have hread : associatedEdges v g = .ok (incident .directed m.edges v).toList g := by
    apply ok_of_outcome
    rw [outcome_associatedEdges h, vertexAt, Pool.get_live h.sound.vertices hv]
    rfl
  rw [DirectedGraph.removeVertex, bind_ok hread]
  refine walk_stores h hv fun r y d g hy hr hd hg => ?_
  have hgone : (m.edges.discards d).value r.edge = some y := by
    rw [Pool.discards_value h.sound.edges, if_neg hd, hy]
  obtain ⟨g1, hg1, h1⟩ := removeEdgeObject_stores hg ((Pool.discards_full h.sound.edges d).live hgone)
  rw [← Pool.discards_append] at h1
  refine ⟨g1, hg1, ?_, h1.edges⟩
  have hpool : walked .directed m v a d = walked .directed m v a (d ++ [r.edge]) := by
    refine walked_append h.sound rfl rfl (walked_self _ _ _ _ _) fun u hu => ?_
    have hfrom : v = y.vertices.1 := by
      rw [leadsTo] at hr
      split_ifs at hr with hv
      exact hv
    rw [erase_incident (o := .directed) (Pool.discards_full h.sound.edges d) hgone
      (if_neg (hfrom ▸ hu))]
    simp [walked, layout, hu]
  exact hpool ▸ h1.vertices

theorem removeUndirectedVertex_stores (h : Represents .undirected g m)
    (hv : m.vertices.value v = some a) : ∃ g', UndirectedGraph.removeVertex v g = .ok ⟨⟩ g' ∧
      Represents .undirected g' (withoutVertex .undirected m v) := by
  have hread : associatedEdges v g = .ok (incident .undirected m.edges v).toList g := by
    apply ok_of_outcome
    rw [outcome_associatedEdges h, vertexAt, Pool.get_live h.sound.vertices hv]
    rfl
  rw [UndirectedGraph.removeVertex, bind_ok hread]
  refine walk_stores h hv (f := Incidence.removeIncident v) fun r y d g hy hr hd hg => ?_
  have hfull := Pool.discards_full h.sound.edges d
  have hgone : (m.edges.discards d).value r.edge = some y := by
    rw [Pool.discards_value h.sound.edges, if_neg hd, hy]
  have hback := leadsTo_symm hr
  have hne : r.oppositeVertex ≠ v := leadsTo_ne (h.sound.apart rfl r.edge y hy) hr
  obtain ⟨c, hc⟩ := (h.sound.vertices _).mp (h.sound.ends r.edge y _ _ hy hback)
  obtain ⟨g1, hg1, h1⟩ := atVertex_stores hg (v := r.oppositeVertex) (h.sound.vertices.live hc)
    (walked_value hc hne d) (removeAssociatedEdge_ok (find_incident hfull hgone hback))
  obtain ⟨g2, hg2, h2⟩ := removeEdgeObject_stores h1 (hfull.live hgone)
  rw [← Pool.discards_append] at h2
  have hpool : (walked .undirected m v a d).setValue r.oppositeVertex (some ⟨c, (incident .undirected
      (m.edges.discards d) r.oppositeVertex).erase r.edge⟩) =
      walked .undirected m v a (d ++ [r.edge]) := by
    refine walked_append h.sound rfl rfl ?_ fun u hu => ?_
    · rw [Pool.setValue_value, Function.update_of_ne hne.symm, walked_self]
    · by_cases hur : u = r.oppositeVertex
      · subst u
        rw [Pool.setValue_value, Function.update_self, hc, Option.map_some]
      · rw [erase_incident hfull hgone (leadsTo_elsewhere hr hu hur)]
        simp [walked, layout, hu, hur]
  rw [hpool] at h2
  have hpast : UndirectedGraph.stepPast v r.edge g2 = .ok ⟨⟩ g2 := by
    have hget := getVertex_stores h2 (v := v) (h.sound.vertices.live hv) (walked_self _ _ _ _ _)
    have hassociated : associated v r.edge g2 = .ok true g2 := by
      rw [associated, bind_ok hget, Vertex.associated, find_incident h.sound.edges hy hr]
      rfl
    rw [UndirectedGraph.stepPast, bind_ok hassociated]
    rfl
  refine ⟨g2, ?_, h2⟩
  rw [Incidence.removeIncident, bind_ok hg1, bind_ok hg2]
  exact hpast

theorem removeVertex_follows (h : Represents o g m) (v : Nat) :
    Follows o (GraphCalls.exec o (.removeVertex v)) g (respond o (.removeVertex v) m) := by
  refine follows_changed h (fun a hv => ?_) fun ex hv => ?_
  · have ha := Pool.value_of_get h.sound.vertices hv
    cases o with
    | undirected => exact removeUndirectedVertex_stores h ha
    | directed => exact removeDirectedVertex_stores h ha
  · have hread : associatedEdges v g = .error ex g := by
      apply error_of_outcome
      rw [outcome_associatedEdges h, hv]
      rfl
    cases o <;> exact bind_error hread _

end RemoveVertex

section Run

theorem follows_asked (h : Represents o g m) {α β : Type} {q : Prog (GraphBase VV EV) β}
    {res : Except Exc α} {f : α → β} (hq : outcome q g = (res.map f, g)) (k : β → Reply VV EV) :
    Follows o (do return k (← q)) g (m.asked res fun a => k (f a)) := by
  refine ⟨g, ?_, h⟩
  rw [outcome_map, hq, asked]
  cases res <;> rfl

theorem follows_id {q : Prog (GraphBase VV EV) Nat} {m' : Multigraph VV EV}
    {res : Except Exc Nat} (hq : Follows o q g (res, m')) :
    Follows o (do return (.id (← q) : Reply VV EV)) g (res.map .id, m') := by
  obtain ⟨g', hrun, h'⟩ := hq
  exact ⟨g', by rw [outcome_map, hrun], h'⟩

theorem exec_follows (h : Represents o g m) (c : Call VV EV) (hc : Allowed o c m) :
    Follows o (GraphCalls.exec o c) g (respond o c m) := by
  cases c with
  | addVertex fits a => exact follows_id (addVertex_follows h fits a)
  | addEdge fits x y b =>
      cases o with
      | undirected => exact follows_id (addUndirected_follows h hc.1 hc.2.1 hc.2.2 fits b)
      | directed => exact follows_id (addDirected_follows h hc fits y b)
  | removeEdge e => exact removeEdge_follows h e
  | removeEdgeBetween x y => exact removeEdgeBetween_follows h x y
  | removeVertex v => exact removeVertex_follows h v
  | setVertexValue v a => exact setVertexValue_follows h v a
  | setEdgeValue e b => exact setEdgeValue_follows h e b
  | vertexValue v => exact follows_asked h (outcome_vertex h v Vertex.value) .vertexValue
  | edgeValue e => exact follows_asked h (outcome_edge h e Edge.value) .edgeValue
  | associated v e => exact follows_asked h (outcome_vertex h v fun x => x.associated e) .flag
  | associatedEdges v => exact follows_asked h (outcome_associatedEdges h v) .edges
  | neighbors v => exact follows_asked h (outcome_neighbors h v) .vertices
  | associatedVertices e => exact follows_asked h (outcome_edge h e Edge.vertices) .ends
  | edgeBetween x y => exact ⟨g, by rw [GraphCalls.exec, outcome_map, outcome_edgeBetween h]; rfl, h⟩
  | firstVertex => exact ⟨g, by rw [GraphCalls.exec, outcome_map, outcome_firstVertex h]; rfl, h⟩
  | endVertex => exact ⟨g, rfl, h⟩
  | nextVertex i => exact ⟨g, by rw [GraphCalls.exec, outcome_map, outcome_nextVertex h]; rfl, h⟩
  | isIdValid i => exact ⟨g, by rw [GraphCalls.exec, outcome_map, outcome_isIdValid h]; rfl, h⟩

theorem represents_empty : Represents o ({} : GraphBase VV EV) {} :=
  ⟨⟨RepoRuns.refines_empty, RepoRuns.refines_empty⟩, sound_empty⟩

theorem step_follows (c : Call VV EV) (g : GraphBase VV EV) (m : Multigraph VV EV)
    (h : Represents o g m) (hc : Allowed o c m) : (GraphCalls.step o c g).1 = (respond o c m).1 ∧
      Represents o (GraphCalls.step o c g).2 (respond o c m).2 := by
  obtain ⟨g', hrun, h'⟩ := exec_follows h c hc
  rw [GraphCalls.step, hrun]
  exact ⟨rfl, h'⟩

/-- A graph of either kind is, call by call of every run, the multigraph that
keeps no sets of edges: the ids it hands out, the values, the edges at a vertex
and their order, and every refusal are those of the multigraph. -/
theorem run_multigraph (o : Orientation) (cs : List (Call VV EV))
    (hcs : Along (respond o) (Allowed o) cs {}) :
    (run (GraphCalls.step o) cs {}).1 = (run (respond o) cs {}).1 ∧
      Represents o (run (GraphCalls.step o) cs {}).2 (run (respond o) cs {}).2 :=
  run_simulation (Allowed o) (Represents o) step_follows cs {} {} represents_empty hcs

def recyclingCalls : List (Call Nat Nat) :=
  [.addVertex (fun _ => true) 7, .addVertex (fun _ => true) 8, .addVertex (fun _ => true) 9,
    .addEdge (fun _ => true) 0 1 5, .addEdge (fun _ => true) 2 1 6, .addEdge (fun _ => true) 0 1 4,
    .removeEdgeBetween 1 0, .associatedEdges 1, .removeVertex 2, .neighbors 1,
    .addEdge (fun _ => true) 1 0 3, .addVertex (fun _ => true) 1, .associatedEdges 0, .edgeValue 1,
    .removeEdge 0, .firstVertex, .nextVertex 2, .vertexValue 3]

theorem recyclingCalls_allowed : Along (respond .undirected) (Allowed .undirected) recyclingCalls {} :=
  ⟨trivial, trivial, trivial, ⟨by decide, by decide, by decide⟩, ⟨by decide, by decide, by decide⟩,
    ⟨by decide, by decide, by decide⟩, trivial, trivial, trivial, trivial,
    ⟨by decide, by decide, by decide⟩, trivial, trivial, trivial, trivial, trivial, trivial, trivial,
    trivial⟩

theorem run_multigraph_recycling :
    (run (GraphCalls.step .undirected) recyclingCalls {}).1 =
      [.ok (.id 0), .ok (.id 1), .ok (.id 2), .ok (.id 0), .ok (.id 1), .ok (.id 2), .ok .done,
        .ok (.edges [⟨1, 2⟩, ⟨2, 0⟩]), .ok .done, .ok (.vertices [0]), .ok (.id 1), .ok (.id 2),
        .ok (.edges [⟨1, 1⟩, ⟨2, 1⟩]), .ok (.edgeValue 3), .error (.attemptToUseUnusedStock 0),
        .ok (.id 2), .ok (.id 1), .error (.attemptToUseUnusedStock 3)] :=
  (run_multigraph .undirected recyclingCalls recyclingCalls_allowed).1.trans rfl

end Run

end Lzhlib.GraphSimulation
