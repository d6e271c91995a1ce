import Lzhlib.UndirectedGraph
import Lzhlib.GraphMaps

namespace Lzhlib.Incidence

open Programs Machine ValueRepo KeyedSets GraphRecords GraphMaps UndirectedGraph

variable {VV EV : Type} {g : GraphBase VV EV} {vs : Nat → Option (Vertex VV)}
  {es : Nat → Option (Edge EV)} {v e : Nat} {x : Vertex VV} {y : Edge EV}

def joins (p : Nat × Nat) (u w : Nat) : Prop := p = (u, w) ∨ p = (w, u)

/-- The edge repository and the sets of the vertices agree, and no edge is a loop. -/
structure Incident (vs : Nat → Option (Vertex VV)) (es : Nat → Option (Edge EV)) : Prop
    extends Linked joins vs es where
  loopFree : ∀ e y, es e = some y → y.vertices.1 ≠ y.vertices.2

theorem other_end (hl : Linked joins vs es) {a b u : Nat} {z : Vertex VV} (he : es e = some y)
    (hy : y.vertices = (a, b)) (hu : vs u = some z) (ha : u ≠ a) (hb : u ≠ b) :
    ∀ r ∈ z.edges, r.edge ≠ e := by
  rintro r hr rfl
  obtain ⟨y', hy', hj⟩ := (hl.entries u z hu r).mp hr
  rw [he] at hy'
  cases hy'
  rw [hy] at hj
  obtain hj | hj := hj
  · exact ha (Prod.mk.inj hj).1.symm
  · exact hb (Prod.mk.inj hj).2.symm

theorem Incident.prune (h : Incident vs es) (d : List Nat) :
    Incident (prune d vs) (drop d es) := by
  refine ⟨h.toLinked.prune d, fun e y he => ?_⟩
  rw [drop] at he
  split_ifs at he
  exact h.loopFree e y he

theorem Incident.isolate (h : Incident vs es) (hv : vs v = some x) :
    Incident (Function.update (GraphMaps.prune (edgeIds x) vs) v none) (drop (edgeIds x) es) :=
  ⟨h.toLinked.isolate hv, (h.prune (edgeIds x)).loopFree⟩

section AddEdge

theorem addEdge_holds (h : Holds g vs es) {a b : Nat} {xa xb : Vertex VV} (ha : vs a = some xa)
    (hb : vs b = some xb) (fits : Nat → Bool) (value : EV) :
    (∃ ex g', addEdge fits a b value g = .error ex g' ∧ ex.NoRoom ∧ Holds g' vs es) ∨
    (∃ i g', addEdge fits a b value g = .ok i g' ∧ es i = none ∧
      Holds g' (attachAt b ⟨i, a⟩ (attachAt a ⟨i, b⟩ vs))
        (Function.update es i (some ⟨value, (a, b)⟩))) := by
  obtain ⟨ex, t, ht, hroom, hm⟩ | ⟨i, t, t1, ht, ht1, hi, hm1⟩ := newEdge_holds h fits a b value
  · exact Or.inl ⟨ex, t, bind_error ht _, hroom, hm⟩
  · obtain ⟨t2, ht2, hm2⟩ := attachAt_holds hm1 ha ⟨i, b⟩
    obtain ⟨z, hz⟩ : ∃ z, attachAt a ⟨i, b⟩ vs b = some z := by
      by_cases hba : b = a
      · exact ⟨_, by rw [hba, attachAt_self ha]⟩
      · exact ⟨xb, (attachAt_of_ne hba).trans hb⟩
    obtain ⟨t3, ht3, hm3⟩ := attachAt_holds hm2 hz ⟨i, a⟩
    refine Or.inr ⟨i, t3, ?_, hi, hm3⟩
    rw [addEdge, bind_ok ht]
    exact (bind_ok ht1 _).trans ((bind_ok ht2 _).trans (bind_ok ht3 _))

theorem joins_left {a b : Nat} (hab : a ≠ b) (o : Nat) : joins (a, b) a o ↔ o = b := by
  simp only [joins, Prod.mk.injEq]
  grind

theorem joins_right {a b : Nat} (hab : a ≠ b) (o : Nat) : joins (a, b) b o ↔ o = a := by
  simp only [joins, Prod.mk.injEq]
  grind

theorem joins_other {a b u : Nat} (ha : u ≠ a) (hb : u ≠ b) (o : Nat) : ¬joins (a, b) u o := by
  simp only [joins, Prod.mk.injEq]
  grind

theorem enter_linked (hl : Linked joins vs es) {a b : Nat} {xa xb : Vertex VV} (ha : vs a = some xa)
    (hb : vs b = some xb) (hi : es e = none) (value : EV) :
    Linked joins (attachAt b ⟨e, a⟩ (attachAt a ⟨e, b⟩ vs))
      (Function.update es e (some ⟨value, (a, b)⟩)) := by
  refine hl.addEdge hi ?_ ?_ ?_ value
  · intro u
    by_cases hub : u = b
    · subst u
      by_cases hba : b = a
      · subst b
        simp [attachAt, ha]
      · simp [attachAt, hba, hb]
    · rw [attachAt_of_ne hub]
      by_cases hua : u = a
      · subst u
        simp [attachAt_self ha, ha]
      · rw [attachAt_of_ne hua]
  · rintro u w (hj | hj)
    · exact ⟨xa, (Prod.mk.inj hj).1 ▸ ha⟩
    · exact ⟨xb, (Prod.mk.inj hj).2 ▸ hb⟩
  · intro u z z' hu hu' r
    by_cases hub : u = b
    · subst u
      cases hb.symm.trans hu
      by_cases hba : b = a
      · subst b
        have hfirst : (⟨e, a⟩ : EdgeRef) ∈ (attach ⟨e, a⟩ xb).edges :=
          (mem_attach (hl.fresh_key hb hi)).mpr (Or.inl ⟨rfl, rfl⟩)
        rw [attachAt_self (attachAt_self hb), attach_of_mem hfirst rfl] at hu'
        cases hu'
        rw [mem_attach (hl.fresh_key hb hi)]
        simp [joins, eq_comm]
      · rw [attachAt_self ((attachAt_of_ne hba).trans hb)] at hu'
        cases hu'
        rw [mem_attach (hl.fresh_key hb hi), joins_right (Ne.symm hba)]
    · rw [attachAt_of_ne hub] at hu'
      by_cases hua : u = a
      · subst u
        cases ha.symm.trans hu
        rw [attachAt_self ha] at hu'
        cases hu'
        rw [mem_attach (hl.fresh_key ha hi), joins_left hub]
      · rw [attachAt_of_ne hua] at hu'
        cases hu.symm.trans hu'
        simp [joins_other hua hub]

theorem Incident.enter (h : Incident vs es) {a b : Nat} {xa xb : Vertex VV} (ha : vs a = some xa)
    (hb : vs b = some xb) (hab : a ≠ b) (hi : es e = none) (value : EV) :
    Incident (attachAt b ⟨e, a⟩ (attachAt a ⟨e, b⟩ vs))
      (Function.update es e (some ⟨value, (a, b)⟩)) := by
  refine ⟨enter_linked h.toLinked ha hb hi value, fun k y hk => ?_⟩
  by_cases hke : k = e
  · rw [hke, Function.update_self] at hk
    cases hk
    exact hab
  · rw [Function.update_of_ne hke] at hk
    exact h.loopFree k y hk

end AddEdge

section Removal

theorem ends_live (hl : Linked joins vs es) (he : es e = some y) :
    (∃ x, vs y.vertices.1 = some x) ∧ ∃ x, vs y.vertices.2 = some x :=
  ⟨hl.live e y _ y.vertices.2 he (Or.inl rfl), hl.live e y _ y.vertices.1 he (Or.inr rfl)⟩

theorem removeEdge_holds (h : Holds g vs es) (hl : Linked joins vs es) (he : es e = some y)
    (hloop : y.vertices.1 ≠ y.vertices.2) :
    ∃ g', removeEdge e g = .ok ⟨⟩ g' ∧ Holds g' (prune [e] vs) (drop [e] es) := by
  obtain ⟨⟨xa, ha⟩, xb, hb⟩ := ends_live hl he
  obtain ⟨g1, hg1, h1⟩ := atVertex_holds h ha
    (removeAssociatedEdge_ok (hl.find? ha he (Or.inl rfl)))
  obtain ⟨g2, hg2, h2⟩ := atVertex_holds h1 ((Function.update_of_ne hloop.symm _ _).trans hb)
    (removeAssociatedEdge_ok (hl.find? hb he (Or.inr rfl)))
  obtain ⟨g3, hg3, h3⟩ := removeEdgeObject_holds h2 he
  refine ⟨g3, ?_, ?_⟩
  · rw [removeEdge, bind_ok (associatedVertices_holds h he)]
    exact (bind_ok hg1 _).trans ((bind_ok hg2 _).trans hg3)
  · have hvs : Function.update (Function.update vs y.vertices.1
        (some ⟨xa.value, xa.edges.erase e⟩)) y.vertices.2 (some ⟨xb.value, xb.edges.erase e⟩) =
        prune [e] vs := by
      funext u
      by_cases hub : u = y.vertices.2
      · rw [hub, Function.update_self, prune_singleton hb]
      · rw [Function.update_of_ne hub]
        by_cases hua : u = y.vertices.1
        · rw [hua, Function.update_self, prune_singleton ha]
        · rw [Function.update_of_ne hua, prune_of_disjoint]
          intro z hu
          simpa using other_end hl he rfl hu hua hub
    rw [hvs, drop_singleton] at h3
    exact h3

/-- The loop of `remove_vertex` leaves the set it walks over as it is. -/
def pruneOthers (v : Nat) (d : List Nat) (vs : Nat → Option (Vertex VV)) :
    Nat → Option (Vertex VV) :=
  Function.update (prune d vs) v (vs v)

theorem pruneOthers_nil (v : Nat) (vs : Nat → Option (Vertex VV)) : pruneOthers v [] vs = vs := by
  rw [pruneOthers, prune_nil, Function.update_eq_self]

theorem pruneOthers_self (v : Nat) (d : List Nat) (vs : Nat → Option (Vertex VV)) :
    pruneOthers v d vs v = vs v :=
  Function.update_self _ _ _

theorem pruneOthers_append (hl : Linked joins vs es) (he : es e = some y) {w : Nat} {z : Vertex VV}
    (hj : joins y.vertices v w) (hw : vs w = some z) (hwv : w ≠ v) (d : List Nat) :
    Function.update (pruneOthers v d vs) w
      (some ⟨z.value, (pruneVertex d z).edges.erase e⟩) = pruneOthers v (d ++ [e]) vs := by
  funext u
  by_cases huw : u = w
  · subst u
    rw [Function.update_self, erase_pruneVertex, pruneOthers, Function.update_of_ne hwv, prune, hw,
      Option.map_some]
  · rw [Function.update_of_ne huw, pruneOthers, pruneOthers]
    by_cases huv : u = v
    · rw [huv, Function.update_self, Function.update_self]
    · rw [Function.update_of_ne huv, Function.update_of_ne huv, prune, prune]
      cases hu : vs u with
      | none => rfl
      | some x =>
          have hx : ∀ r ∈ x.edges, r.edge ≠ e := by
            obtain hj | hj := hj
            · exact other_end hl he hj hu huv huw
            · exact other_end hl he hj hu huw huv
          rw [Option.map_some, Option.map_some, pruneVertex_append_of_not_mem hx]

def removeIncident (v : Nat) (r : EdgeRef) : Prog (GraphBase VV EV) PUnit := do
  atVertex r.oppositeVertex (removeAssociatedEdge r.edge)
  zoom edgePart (removeObject r.edge)
  stepPast v r.edge

theorem removeIncident_holds (hl : Linked joins vs es) (hv : vs v = some x) {r : EdgeRef}
    (hr : r ∈ x.edges) (hne : r.oppositeVertex ≠ v) {d : List Nat} (hd : r.edge ∉ d)
    (h : Holds g (pruneOthers v d vs) (drop d es)) :
    ∃ g', removeIncident v r g = .ok ⟨⟩ g' ∧
      Holds g' (pruneOthers v (d ++ [r.edge]) vs) (drop (d ++ [r.edge]) es) := by
  obtain ⟨y, hy, hj⟩ := (hl.entries v x hv r).mp hr
  obtain ⟨z, hz⟩ := hl.live _ y _ _ hy hj.symm
  have hydrop : drop d es r.edge = some y := by rw [drop, if_neg hd, hy]
  have hzprune : prune d vs r.oppositeVertex = some (pruneVertex d z) := by
    rw [prune, hz, Option.map_some]
  have hzothers : pruneOthers v d vs r.oppositeVertex = some (pruneVertex d z) := by
    rw [pruneOthers, Function.update_of_ne hne, hzprune]
  obtain ⟨g1, hg1, h1⟩ := atVertex_holds h hzothers
    (removeAssociatedEdge_ok ((hl.prune d).find? hzprune hydrop hj.symm))
  obtain ⟨g2, hg2, h2⟩ := removeEdgeObject_holds h1 hydrop
  have hvs := pruneOthers_append hl hy hj hz hne d
  simp only [pruneVertex] at hvs h2
  rw [hvs, drop_append] at h2
  refine ⟨g2, ?_, h2⟩
  have hvself : pruneOthers v (d ++ [r.edge]) vs v = some x := (pruneOthers_self v _ vs).trans hv
  have hassoc : x.associated r.edge = true := KeyedSet.find?_isSome.mpr ⟨r, hr, rfl⟩
  rw [removeIncident, bind_ok hg1, bind_ok hg2, stepPast, bind_ok (associated_holds h2 hvself r.edge),
    hassoc]
  rfl

theorem removeIncidents_holds (h : Holds g vs es) (hl : Linked joins vs es) (hv : vs v = some x)
    (l : List EdgeRef) (hkeys : (l.map EdgeRef.edge).Nodup)
    (hmem : ∀ r ∈ l, r ∈ x.edges ∧ r.oppositeVertex ≠ v) :
    ∃ g', forEach (removeIncident v) l g = .ok ⟨⟩ g' ∧
      Holds g' (pruneOthers v (l.map EdgeRef.edge) vs) (drop (l.map EdgeRef.edge) es) :=
  forEach_ok EdgeRef.edge (fun d g => Holds g (pruneOthers v d vs) (drop d es)) l hkeys
    (fun r hr _ _ hd h => removeIncident_holds hl hv (hmem r hr).1 (hmem r hr).2 hd h)
    (by rwa [pruneOthers_nil, drop_nil])

theorem removeVertex_holds (h : Holds g vs es) (hl : Linked joins vs es) (hv : vs v = some x)
    (hloop : ∀ r ∈ x.edges, r.oppositeVertex ≠ v) :
    ∃ g', removeVertex v g = .ok ⟨⟩ g' ∧
      Holds g' (Function.update (prune (edgeIds x) vs) v none) (drop (edgeIds x) es) := by
  obtain ⟨g1, hg1, h1⟩ := removeIncidents_holds h hl hv x.edges.toList x.edges.nodup_keys
    fun r hr => ⟨hr, hloop r hr⟩
  obtain ⟨g2, hg2, h2⟩ := removeVertexObject_holds h1 ((pruneOthers_self v _ vs).trans hv)
  refine ⟨g2, ?_, ?_⟩
  · rw [removeVertex, bind_ok (associatedEdges_holds h hv)]
    exact (bind_ok hg1 _).trans hg2
  · rw [pruneOthers, Function.update_idem] at h2
    exact h2

end Removal

end Lzhlib.Incidence
