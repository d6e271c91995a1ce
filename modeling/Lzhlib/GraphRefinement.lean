import Lzhlib.GraphMaps
import Lzhlib.Multigraphs
import Lzhlib.RepoRuns

namespace Lzhlib.GraphRefinement

open Programs Machine ValueRepo KeyedSets GraphRecords ObjectPool RepoRefinement GraphMaps GraphCalls
  Multigraphs Multigraph

variable {V VV EV α β : Type} {o : Orientation} {g : GraphBase VV EV} {m : Multigraph VV EV}
  {pv : Pool (Vertex VV)} {pe : Pool (Edge EV)} {v e : Nat} {x : Vertex VV} {y : Edge EV}

structure Stores (g : GraphBase VV EV) (pv : Pool (Vertex VV)) (pe : Pool (Edge EV)) : Prop where
  vertices : Refines g.vertexRepository pv
  edges : Refines g.edgeRepository pe

def layout (o : Orientation) (m : Multigraph VV EV) : Pool (Vertex VV) :=
  m.vertices.mapValues fun v a => ⟨a, incident o m.edges v⟩

/-- The graph stores the multigraph, and beside it the sets that follow from it. -/
structure Represents (o : Orientation) (g : GraphBase VV EV) (m : Multigraph VV EV) : Prop where
  stores : Stores g (layout o m) m.edges
  sound : Sound o m

section Steps

theorem getObject_refines {r : Repo V} {p : Pool V} {i : Nat} {a : V} (hr : Refines r p)
    (hi : i ∈ p.live) (ha : p.value i = some a) : getObject i r = .ok a r := by
  apply ok_of_outcome
  rw [getObject_eq hr, Pool.get, Pool.demandLive_live hi, ha]
  rfl

theorem withObject_refines {r : Repo V} {p : Pool V} {i : Nat} {a b : V} {c : α} {f : Prog V α}
    (hr : Refines r p) (hi : i ∈ p.live) (ha : p.value i = some a) (hf : f a = .ok c b) :
    ∃ t, withObject i f r = .ok c t ∧ Refines t (p.setValue i (some b)) := by
  obtain ⟨t, ht, hrt⟩ := setObject_simulates hr (p.mem_slots.mp (Or.inl hi)) (some b)
  refine ⟨t, ?_, hrt⟩
  rw [withObject, bind_ok (getObject_refines hr hi ha), hf]
  exact bind_ok (ok_of_outcome ht) _

theorem withObject_fails {r : Repo V} {p : Pool V} {i : Nat} {ex : Exc} (hr : Refines r p)
    (hget : (p.get i).1 = .error ex) (f : Prog V α) : withObject i f r = .error ex r := by
  have hrun : getObject i r = .error ex r := by
    apply error_of_outcome
    rw [getObject_eq hr, hget]
  exact bind_error hrun _

theorem getVertex_stores (h : Stores g pv pe) (hv : v ∈ pv.live) (hx : pv.value v = some x) :
    getVertex v g = .ok x g :=
  zoom_ok vertexPart (getObject_refines h.vertices hv hx)

theorem atVertex_stores (h : Stores g pv pe) (hv : v ∈ pv.live) (hx : pv.value v = some x)
    {p : Prog (Vertex VV) α} {a : α} {w : Vertex VV} (hp : p x = .ok a w) :
    ∃ g', atVertex v p g = .ok a g' ∧ Stores g' (pv.setValue v (some w)) pe := by
  obtain ⟨t, ht, hr⟩ := withObject_refines h.vertices hv hx hp
  exact ⟨_, zoom_ok vertexPart ht, hr, h.edges⟩

theorem atEdge_stores (h : Stores g pv pe) (he : e ∈ pe.live) (hy : pe.value e = some y)
    {p : Prog (Edge EV) α} {a : α} {w : Edge EV} (hp : p y = .ok a w) :
    ∃ g', atEdge e p g = .ok a g' ∧ Stores g' pv (pe.setValue e (some w)) := by
  obtain ⟨t, ht, hr⟩ := withObject_refines h.edges he hy hp
  exact ⟨_, zoom_ok edgePart ht, h.vertices, hr⟩

theorem removeVertexObject_stores (h : Stores g pv pe) (hv : v ∈ pv.live) :
    ∃ g', zoom vertexPart (removeObject v) g = .ok ⟨⟩ g' ∧ Stores g' (pv.discard v) pe := by
  obtain ⟨t, ht, hr⟩ := removeObject_simulates h.vertices v
  rw [Pool.remove_live hv] at ht hr
  exact ⟨_, zoom_ok vertexPart (ok_of_outcome ht), hr, h.edges⟩

theorem removeEdgeObject_stores (h : Stores g pv pe) (he : e ∈ pe.live) :
    ∃ g', zoom edgePart (removeObject e) g = .ok ⟨⟩ g' ∧ Stores g' pv (pe.discard e) := by
  obtain ⟨t, ht, hr⟩ := removeObject_simulates h.edges e
  rw [Pool.remove_live he] at ht hr
  exact ⟨_, zoom_ok edgePart (ok_of_outcome ht), h.vertices, hr⟩

end Steps

section Reads

theorem outcome_getVertex (h : Represents o g m) (v : Nat) : outcome (getVertex v) g =
    ((m.vertexAt v).map fun a => ⟨a, incident o m.edges v⟩, g) := by
  have hget : outcome (getObject v) (vertexPart.get g) = _ := getObject_eq h.stores.vertices v
  rw [getVertex, outcome_zoom, hget, layout, Pool.mapValues_get h.sound.vertices]
  rfl

theorem outcome_getEdge (h : Represents o g m) (e : Nat) :
    outcome (GraphRecords.getEdge e) g = (m.edgeAt e, g) := by
  have hget : outcome (getObject e) (edgePart.get g) = _ := getObject_eq h.stores.edges e
  rw [GraphRecords.getEdge, outcome_zoom, hget]
  rfl

theorem outcome_vertex (h : Represents o g m) (v : Nat) (f : Vertex VV → α) :
    outcome (do return f (← getVertex v)) g =
      ((m.vertexAt v).map fun a => f ⟨a, incident o m.edges v⟩, g) := by
  rw [outcome_map, outcome_getVertex h]
  cases m.vertexAt v <;> rfl

theorem outcome_edge (h : Represents o g m) (e : Nat) (f : Edge EV → α) :
    outcome (do return f (← GraphRecords.getEdge e)) g = ((m.edgeAt e).map f, g) := by
  rw [outcome_map, outcome_getEdge h]

theorem outcome_associatedEdges (h : Represents o g m) (v : Nat) : outcome (associatedEdges v) g =
    ((m.vertexAt v).map fun _ => (incident o m.edges v).toList, g) :=
  outcome_vertex h v fun x => x.edges.toList

theorem outcome_neighbors (h : Represents o g m) (v : Nat) : outcome (neighbors v) g =
    ((m.vertexAt v).map fun _ => (incident o m.edges v).toList.map EdgeRef.oppositeVertex, g) := by
  rw [neighbors, outcome_map, outcome_associatedEdges h]
  cases m.vertexAt v <;> rfl

theorem outcome_firstVertex (h : Represents o g m) :
    outcome firstVertex g = (.ok (m.vertices.live.head?.getD nullIndex), g) := by
  have hhead : g.vertexRepository.usedHead = m.vertices.live.head?.getD nullIndex :=
    h.stores.vertices.holds.rings.head .used
  rw [← hhead]
  rfl

theorem outcome_nextVertex (h : Represents o g m) (i : Nat) :
    outcome (nextVertex i) g = (m.vertices.next i, g) := by
  have hnext : outcome (nextId i) (vertexPart.get g) = _ := nextId_eq h.stores.vertices i
  rw [nextVertex, outcome_zoom, hnext]
  rfl

theorem outcome_isIdValid (h : Represents o g m) (i : Nat) :
    outcome (isIdValid i) g = (.ok (decide (i ∈ m.vertices.live)), g) := by
  have hused : outcome (isIdUsed i) (vertexPart.get g) = _ := isIdUsed_eq h.stores.vertices i
  rw [isIdValid, outcome_zoom, hused]
  rfl

theorem outcome_associatedEdge (g : GraphBase VV EV) (o : Orientation) (m : Multigraph VV EV) (a : VV)
    (x y : Nat) : outcome (ofExcept ((⟨a, incident o m.edges x⟩ : Vertex VV).associatedEdge y)) g =
      (find o m x y, g) := by
  have hfind : (⟨a, incident o m.edges x⟩ : Vertex VV).associatedEdge y = find o m x y := rfl
  rw [hfind]
  cases find o m x y <;> rfl

theorem outcome_getBetween (h : Represents .undirected g m) (x y : Nat) :
    outcome (UndirectedGraph.getEdge x y) g = (Multigraph.edgeBetween .undirected m x y, g) := by
  have hx := outcome_getVertex h x
  have hy := outcome_getVertex h y
  rw [UndirectedGraph.getEdge, Multigraph.edgeBetween]
  cases hvx : m.vertexAt x with
  | error ex =>
      rw [hvx] at hx
      exact outcome_bind_error hx _
  | ok a =>
      rw [hvx] at hx
      rw [outcome_bind_ok hx]
      cases hvy : m.vertexAt y with
      | error ex =>
          rw [hvy] at hy
          exact outcome_bind_error hy _
      | ok b =>
          rw [hvy] at hy
          rw [outcome_bind_ok hy]
          split_ifs
          · exact outcome_associatedEdge g _ m a x y
          · exact (outcome_associatedEdge g _ m b y x).trans (by rw [find_symm h.sound.edges]; rfl)

theorem outcome_edgeBetween (h : Represents o g m) (x y : Nat) :
    outcome (GraphCalls.edgeBetween o x y) g = (Multigraph.edgeBetween o m x y, g) := by
  cases o with
  | undirected => exact outcome_getBetween h x y
  | directed =>
      have hx := outcome_getVertex h x
      rw [GraphCalls.edgeBetween, DirectedGraph.getEdge, Multigraph.edgeBetween]
      cases hvx : m.vertexAt x with
      | error ex =>
          rw [hvx] at hx
          exact outcome_bind_error hx _
      | ok a =>
          rw [hvx] at hx
          rw [outcome_bind_ok hx]
          exact outcome_associatedEdge g _ m a x y

end Reads

/-- The call answers as it does on the multigraph and leaves a graph that represents
what it makes of the multigraph. -/
def Follows (o : Orientation) (p : Prog (GraphBase VV EV) α) (g : GraphBase VV EV)
    (res : Except Exc α × Multigraph VV EV) : Prop :=
  ∃ g', outcome p g = (res.1, g') ∧ Represents o g' res.2

theorem follows_ok {p : Prog (GraphBase VV EV) α} {a : α} {g' : GraphBase VV EV}
    {m' : Multigraph VV EV} (hrun : p g = .ok a g') (h : Represents o g' m') :
    Follows o p g (.ok a, m') :=
  ⟨g', outcome_ok hrun, h⟩

theorem follows_error {p : Prog (GraphBase VV EV) α} {ex : Exc} {g' : GraphBase VV EV}
    {m' : Multigraph VV EV} (hrun : p g = .error ex g') (h : Represents o g' m') :
    Follows o p g (.error ex, m') :=
  ⟨g', outcome_error hrun, h⟩

section Layout

variable {a : VV} {w : Nat}

theorem layout_value (o : Orientation) (hv : m.vertices.value v = some a) :
    (layout o m).value v = some ⟨a, incident o m.edges v⟩ := by
  rw [layout, Pool.mapValues_value, hv, Option.map_some]

theorem layout_congr {es : Pool (Edge EV)} (h : ∀ u, incident o es u = incident o m.edges u) :
    layout o { m with edges := es } = layout o m := by
  refine Pool.ext rfl rfl fun u => ?_
  rw [layout, layout, Pool.mapValues_value, Pool.mapValues_value, h]

end Layout

section Additions

variable {fits : Nat → Bool} {i : Nat}

theorem addVertex_follows (h : Represents o g m) (fits : Nat → Bool) (a : VV) :
    Follows o (GraphRecords.addVertex fits a) g (m.addVertex fits a) := by
  have hrun := assignObject_simulates vertexType fits a h.stores.vertices
  rw [RepoRuns.settle_eq_store (fun _ => rfl) (fun _ _ => rfl)] at hrun
  obtain ⟨t, ht, hr⟩ := hrun
  rcases hq : m.vertices.reuse fits with ⟨ex | i, q⟩
  · have hreuse : (layout o m).reuse fits = (.error ex, layout o m) := by
      rw [layout, Pool.mapValues_reuse, hq, (Pool.reuse_error hq).1]
    rw [Pool.assign_error hreuse] at ht hr
    rw [addVertex_error hq]
    exact follows_error (zoom_error vertexPart (error_of_outcome ht)) ⟨⟨hr, h.stores.edges⟩, h.sound⟩
  · have hreuse : (layout o m).reuse fits = (.ok i, q.mapValues fun v a => ⟨a, incident o m.edges v⟩) := by
      rw [layout, Pool.mapValues_reuse, hq]
    rw [Pool.assign_ok hreuse] at ht hr
    rw [addVertex_ok hq]
    refine follows_ok (zoom_ok vertexPart (ok_of_outcome ht)) ⟨⟨?_, h.stores.edges⟩, h.sound.newVertex hq a⟩
    -- the edges at a new vertex are none
    have hpool : (Pool.store (fun a => ({ value := a } : Vertex VV)) a i
        (q.mapValues fun v a => ⟨a, incident o m.edges v⟩)).2 =
        layout o { m with vertices := q.setValue i (some a) } := by
      refine Pool.ext rfl rfl fun u => ?_
      by_cases hu : u = i
      · subst u
        simp [Pool.store, layout, h.sound.incident_dead (reuse_live hq).2.1]
      · simp [Pool.store, layout, hu]
    exact hpool ▸ hr

theorem newEdge_stores (h : Stores g pv pe) (fits : Nat → Bool) (x y : Nat) (b : EV) :
    (∃ ex q g', pe.reuse fits = (.error ex, q) ∧
      zoom edgePart (assignObject edgeType fits b) g = .error ex g' ∧ Stores g' pv pe) ∨
    (∃ i q g1 g2, pe.reuse fits = (.ok i, q) ∧
      zoom edgePart (assignObject edgeType fits b) g = .ok i g1 ∧
      atEdge i (setAssociatedVertices x y) g1 = .ok ⟨⟩ g2 ∧
      Stores g2 pv (q.setValue i (some ⟨b, (x, y)⟩))) := by
  have hrun := assignObject_simulates edgeType fits b h.edges
  rw [RepoRuns.settle_eq_store (fun _ => rfl) (fun _ _ => rfl)] at hrun
  obtain ⟨t, ht, hr⟩ := hrun
  rcases hq : pe.reuse fits with ⟨ex | i, q⟩
  · rw [Pool.assign_error hq] at ht hr
    rw [(Pool.reuse_error hq).1] at hr
    exact Or.inl ⟨ex, q, _, rfl, zoom_error edgePart (error_of_outcome ht), h.vertices, hr⟩
  · rw [Pool.assign_ok hq] at ht hr
    have h1 : Stores (edgePart.set t g) pv (q.setValue i (some { value := b })) := ⟨h.vertices, hr⟩
    obtain ⟨g2, hg2, h2⟩ := atEdge_stores (e := i) h1 (reuse_live hq).1 (Function.update_self _ _ _)
      (modify_apply (fun y' : Edge EV => { y' with vertices := (x, y) }) _)
    rw [Pool.setValue_setValue] at h2
    exact Or.inr ⟨i, q, _, g2, rfl, zoom_ok edgePart (ok_of_outcome ht), hg2, h2⟩

theorem attachAt_stores (h : Stores g pv pe) {z : Vertex VV} (hv : v ∈ pv.live)
    (hz : pv.value v = some z) (r : EdgeRef) :
    ∃ g', atVertex v (addAssociatedEdge r) g = .ok ⟨⟩ g' ∧
      Stores g' (pv.setValue v (some (attach r z))) pe :=
  atVertex_stores h hv hz (modify_apply (attach r) z)

theorem addDirected_follows (h : Represents .directed g m) {x : Nat} (hx : x ∈ m.vertices.live)
    (fits : Nat → Bool) (y : Nat) (b : EV) :
    Follows .directed (DirectedGraph.addEdge fits x y b) g (m.addEdge fits x y b) := by
  obtain ⟨a, ha⟩ := (h.sound.vertices x).mp hx
  obtain ⟨ex, q, g', hq, hrun, h'⟩ | ⟨i, q, g1, g2, hq, hg1, hg2, h2⟩ :=
    newEdge_stores h.stores fits x y b
  · rw [addEdge_error hq]
    exact follows_error (bind_error hrun _) ⟨h', h.sound⟩
  · obtain ⟨g3, hg3, h3⟩ := attachAt_stores h2 (v := x) hx (layout_value _ ha) ⟨i, y⟩
    rw [addEdge_ok hq]
    have hrun : DirectedGraph.addEdge fits x y b g = .ok i g3 := by
      rw [DirectedGraph.addEdge, bind_ok hg1, bind_ok hg2, bind_ok hg3]
      rfl
    refine follows_ok hrun ⟨⟨?_, h3.edges⟩, h.sound.newEdge hq ?_ nofun⟩
    · have hpool : (layout .directed m).setValue x (some (attach ⟨i, y⟩ ⟨a, incident .directed m.edges x⟩)) =
          layout .directed { m with edges := q.setValue i (some ⟨b, (x, y)⟩) } := by
        refine Pool.ext rfl rfl fun u => ?_
        by_cases hu : u = x
        · subst u
          have hnew := incident_new (o := .directed) (v := x) (w := y) (y := ⟨b, (x, y)⟩) h.sound.edges
            hq (if_pos rfl)
          simp [layout, ha, hnew, attach]
        · have hold := incident_new_elsewhere (o := .directed) (v := u) (y := ⟨b, (x, y)⟩) h.sound.edges
            hq (if_neg hu)
          simp [layout, hu, hold]
      exact hpool ▸ h3.vertices
    · intro u w hw
      rw [leadsTo] at hw
      split_ifs at hw with hu
      exact hu ▸ hx

theorem addUndirected_follows (h : Represents .undirected g m) {x y : Nat} (hx : x ∈ m.vertices.live)
    (hy : y ∈ m.vertices.live) (hxy : x ≠ y) (fits : Nat → Bool) (b : EV) :
    Follows .undirected (UndirectedGraph.addEdge fits x y b) g (m.addEdge fits x y b) := by
  obtain ⟨a, ha⟩ := (h.sound.vertices x).mp hx
  obtain ⟨c, hc⟩ := (h.sound.vertices y).mp hy
  obtain ⟨ex, q, g', hq, hrun, h'⟩ | ⟨i, q, g1, g2, hq, hg1, hg2, h2⟩ :=
    newEdge_stores h.stores fits x y b
  · rw [addEdge_error hq]
    exact follows_error (bind_error hrun _) ⟨h', h.sound⟩
  · obtain ⟨g3, hg3, h3⟩ := attachAt_stores h2 (v := x) hx (layout_value _ ha) ⟨i, y⟩
    obtain ⟨g4, hg4, h4⟩ := attachAt_stores h3 (v := y) hy
      ((Function.update_of_ne hxy.symm _ _).trans (layout_value _ hc)) ⟨i, x⟩
    rw [addEdge_ok hq]
    have hrun : UndirectedGraph.addEdge fits x y b g = .ok i g4 := by
      rw [UndirectedGraph.addEdge, bind_ok hg1, bind_ok hg2, bind_ok hg3, bind_ok hg4]
      rfl
    have hleft : leadsTo .undirected (x, y) x = some y := if_pos rfl
    refine follows_ok hrun ⟨⟨?_, h4.edges⟩, h.sound.newEdge hq ?_ fun _ => hxy⟩
    · have hpool : ((layout .undirected m).setValue x
          (some (attach ⟨i, y⟩ ⟨a, incident .undirected m.edges x⟩))).setValue y
          (some (attach ⟨i, x⟩ ⟨c, incident .undirected m.edges y⟩)) =
          layout .undirected { m with edges := q.setValue i (some ⟨b, (x, y)⟩) } := by
        refine Pool.ext rfl rfl fun u => ?_
        by_cases huy : u = y
        · subst u
          have hnew := incident_new (v := y) (w := x) (y := ⟨b, (x, y)⟩) h.sound.edges hq
            (leadsTo_symm hleft)
          simp [layout, hc, hnew, attach]
        · by_cases hux : u = x
          · subst u
            have hnew := incident_new (v := x) (w := y) (y := ⟨b, (x, y)⟩) h.sound.edges hq hleft
            simp [layout, ha, hnew, attach, huy]
          · have hold := incident_new_elsewhere (o := .undirected) (v := u) (y := ⟨b, (x, y)⟩)
              h.sound.edges hq ((if_neg hux).trans (if_neg huy))
            simp [layout, hux, huy, hold]
      exact hpool ▸ h4.vertices
    · intro u w hw
      rw [leadsTo] at hw
      split_ifs at hw with hux huy
      · exact hux ▸ hx
      · exact huy ▸ hy

end Additions

end Lzhlib.GraphRefinement
