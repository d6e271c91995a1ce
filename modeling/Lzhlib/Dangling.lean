import Lzhlib.DirectedGraph
import Lzhlib.GraphMaps
import Lzhlib.Runs

namespace Lzhlib.Dangling

open Programs Machine ValueRepo KeyedSets GraphRecords GraphMaps DirectedGraph Runs

variable {VV EV : Type} {g : GraphBase VV EV} {vs : Nat → Option (Vertex VV)}
  {es : Nat → Option (Edge EV)} {v e : Nat} {x : Vertex VV} {y : Edge EV}

def leads (p : Nat × Nat) (u w : Nat) : Prop := p = (u, w)

section Steps

theorem other_source (hl : Linked leads vs es) {a b u : Nat} {z : Vertex VV} (he : es e = some y)
    (hy : y.vertices = (a, b)) (hu : vs u = some z) (ha : u ≠ a) : ∀ r ∈ z.edges, r.edge ≠ e := by
  rintro r hr rfl
  obtain ⟨y', hy', hj⟩ := (hl.entries u z hu r).mp hr
  rw [he] at hy'
  cases hy'
  rw [leads, hy] at hj
  exact ha (Prod.mk.inj hj).1.symm

/-- Only the source of an edge is looked up, the target is taken as it comes. -/
theorem addEdge_holds (h : Holds g vs es) {a : Nat} {xa : Vertex VV} (ha : vs a = some xa) (b : Nat)
    (fits : Nat → Bool) (value : EV) :
    (∃ ex g', addEdge fits a b value g = .error ex g' ∧ Holds g' vs es) ∨
    (∃ i g', addEdge fits a b value g = .ok i g' ∧ es i = none ∧
      Holds g' (Function.update vs a (some (attach ⟨i, b⟩ xa)))
        (Function.update es i (some ⟨value, (a, b)⟩))) := by
  obtain ⟨ex, t, ht, -, hm⟩ | ⟨i, t, t1, ht, ht1, hi, hm1⟩ := newEdge_holds h fits a b value
  · exact Or.inl ⟨ex, t, bind_error ht _, hm⟩
  · obtain ⟨t2, ht2, hm2⟩ := atVertex_holds hm1 ha (modify_apply (attach ⟨i, b⟩) _)
    refine Or.inr ⟨i, t2, ?_, hi, hm2⟩
    rw [addEdge, bind_ok ht]
    exact (bind_ok ht1 _).trans (bind_ok ht2 _)

theorem addEdge_linked (hl : Linked leads vs es) {a b : Nat} {xa : Vertex VV} (ha : vs a = some xa)
    (hi : es e = none) (value : EV) :
    Linked leads (Function.update vs a (some (attach ⟨e, b⟩ xa)))
      (Function.update es e (some ⟨value, (a, b)⟩)) := by
  refine hl.addEdge hi ?_ ?_ ?_ value
  · intro u
    by_cases hua : u = a <;> simp [hua, ha]
  · intro u w hj
    exact ⟨xa, (Prod.mk.inj hj).1 ▸ ha⟩
  · intro u z z' hu hu' r
    by_cases hua : u = a
    · subst u
      rw [Function.update_self] at hu'
      cases hu'
      cases ha.symm.trans hu
      rw [mem_attach (hl.fresh_key ha hi)]
      simp [leads, eq_comm]
    · rw [Function.update_of_ne hua] at hu'
      cases hu.symm.trans hu'
      simp [leads, Ne.symm hua]

theorem removeEdge_holds (h : Holds g vs es) (hl : Linked leads vs es) (he : es e = some y) :
    ∃ g', removeEdge e g = .ok ⟨⟩ g' ∧ Holds g' (prune [e] vs) (drop [e] es) := by
  obtain ⟨xa, ha⟩ := hl.live e y y.vertices.1 y.vertices.2 he rfl
  obtain ⟨g1, hg1, h1⟩ := atVertex_holds h ha (removeAssociatedEdge_ok (hl.find? ha he rfl))
  obtain ⟨g2, hg2, h2⟩ := removeEdgeObject_holds h1 he
  refine ⟨g2, ?_, ?_⟩
  · rw [removeEdge, bind_ok (associatedVertices_holds h he)]
    exact (bind_ok hg1 _).trans hg2
  · have hvs : Function.update vs y.vertices.1 (some ⟨xa.value, xa.edges.erase e⟩) =
        prune [e] vs := by
      funext u
      by_cases hua : u = y.vertices.1
      · rw [hua, Function.update_self, prune_singleton ha]
      · rw [Function.update_of_ne hua, prune_of_disjoint]
        intro z hu
        simpa using other_source hl he rfl hu hua
    rw [hvs, drop_singleton] at h2
    exact h2

theorem removeOut_holds (hl : Linked leads vs es) (hv : vs v = some x) {r : EdgeRef}
    (hr : r ∈ x.edges) {d : List Nat} (hd : r.edge ∉ d) (h : Holds g vs (drop d es)) :
    ∃ g', zoom edgePart (removeObject r.edge) g = .ok ⟨⟩ g' ∧
      Holds g' vs (drop (d ++ [r.edge]) es) := by
  obtain ⟨y, hy, -⟩ := (hl.entries v x hv r).mp hr
  have hydrop : drop d es r.edge = some y := by rw [drop, if_neg hd, hy]
  obtain ⟨g1, hg1, h1⟩ := removeEdgeObject_holds h hydrop
  rw [drop_append] at h1
  exact ⟨g1, hg1, h1⟩

theorem removeVertex_holds (h : Holds g vs es) (hl : Linked leads vs es) (hv : vs v = some x) :
    ∃ g', removeVertex v g = .ok ⟨⟩ g' ∧
      Holds g' (Function.update (prune (edgeIds x) vs) v none) (drop (edgeIds x) es) := by
  obtain ⟨g1, hg1, h1⟩ := forEach_ok EdgeRef.edge (fun d g => Holds g vs (drop d es))
    x.edges.toList x.edges.nodup_keys (fun r hr d g hd h => removeOut_holds hl hv hr hd h)
    (by rwa [drop_nil])
  obtain ⟨g2, hg2, h2⟩ := removeVertexObject_holds h1 hv
  have hvs : Function.update vs v none = Function.update (prune (edgeIds x) vs) v none := by
    funext u
    by_cases huv : u = v
    · rw [huv, Function.update_self, Function.update_self]
    · rw [Function.update_of_ne huv, Function.update_of_ne huv, prune_of_disjoint]
      intro z hu r hr hmem
      obtain ⟨y, w, hy, hj⟩ := (mem_edgeIds hl hv).mp hmem
      exact other_source hl hy hj hu huv r hr rfl
  refine ⟨g2, ?_, hvs ▸ h2⟩
  rw [removeVertex, bind_ok (associatedEdges_holds h hv), bind_ok hg1]
  exact hg2

end Steps

end Lzhlib.Dangling
