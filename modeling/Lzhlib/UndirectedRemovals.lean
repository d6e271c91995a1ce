import Lzhlib.OutIncidence
import Lzhlib.UndirectedRuns

namespace Lzhlib.UndirectedRemovals

open Programs Machine KeyedSets GraphRecords GraphMaps UndirectedGraph Incidence UndirectedEffects
  Runs UndirectedRuns OutIncidence

variable {VV EV : Type} {g g' : GraphBase VV EV} {vs vs' : Nat → Option (Vertex VV)}
  {es es' : Nat → Option (Edge EV)} {v e : Nat} {x : Vertex VV} {y : Edge EV}

def VertexAt (g : GraphBase VV EV) (v : Nat) (x : Vertex VV) : Prop :=
  outcome (getVertex v) g = (.ok x, g)

theorem vertexAt_iff (h : Holds g vs es) : VertexAt g v x ↔ vs v = some x := by
  rw [VertexAt]
  cases hv : vs v with
  | some z =>
      rw [outcome_ok (getVertex_holds h hv)]
      simp
  | none =>
      obtain ⟨ex, hex, -⟩ := getVertex_rejects h hv
      rw [outcome_error hex]
      simp

def ValueAt (g : GraphBase VV EV) (v : Nat) (a : VV) : Prop := ∃ x, VertexAt g v x ∧ x.value = a

theorem valueAt_iff (h : Holds g vs es) {a : VV} : ValueAt g v a ↔ ∃ x, vs v = some x ∧ x.value = a := by
  simp only [ValueAt, vertexAt_iff h]

def Joins (g : GraphBase VV EV) (e u w : Nat) : Prop := LiveEdge g e u w ∨ LiveEdge g e w u

theorem joins_iff (h : Holds g vs es) {u w : Nat} :
    Joins g e u w ↔ ∃ y, es e = some y ∧ joins y.vertices u w :=
  liveEdge_or_iff h

section Prune

variable {d : List Nat}

theorem prune_some {u : Nat} {z : Vertex VV} :
    prune d vs u = some z ↔ ∃ x, vs u = some x ∧ pruneVertex d x = z :=
  Option.map_eq_some_iff

theorem drop_some : drop d es e = some y ↔ es e = some y ∧ e ∉ d := by
  rw [drop]
  by_cases he : e ∈ d <;> simp [he]

theorem prune_congr {c : List Nat} (h : ∀ e, e ∈ c ↔ e ∈ d) (vs : Nat → Option (Vertex VV)) :
    prune c vs = prune d vs := by
  funext u
  rw [prune, prune]
  congr 1
  funext x
  exact vertex_ext rfl fun r => by rw [mem_pruneVertex, mem_pruneVertex, h]

theorem drop_congr {c : List Nat} (h : ∀ e, e ∈ c ↔ e ∈ d) (es : Nat → Option (Edge EV)) :
    drop c es = drop d es := by
  funext e
  simp only [drop, h]

theorem entry_prune (h : Holds g vs es) (h' : Holds g' vs' es') {u : Nat}
    (hu : vs' u = prune d vs u) {r : EdgeRef} : Entry g' u r ↔ Entry g u r ∧ r.edge ∉ d := by
  rw [entry_iff h, entry_iff h', hu]
  constructor
  · rintro ⟨z, hz, hr⟩
    obtain ⟨x, hx, rfl⟩ := prune_some.mp hz
    obtain ⟨hr, hd⟩ := mem_pruneVertex.mp hr
    exact ⟨⟨x, hx, hr⟩, hd⟩
  · rintro ⟨⟨x, hx, hr⟩, hd⟩
    exact ⟨_, prune_some.mpr ⟨x, hx, rfl⟩, mem_pruneVertex.mpr ⟨hr, hd⟩⟩

theorem valueAt_prune (h : Holds g vs es) (h' : Holds g' vs' es') {u : Nat}
    (hu : vs' u = prune d vs u) {a : VV} : ValueAt g' u a ↔ ValueAt g u a := by
  rw [valueAt_iff h, valueAt_iff h', hu]
  constructor
  · rintro ⟨z, hz, ha⟩
    obtain ⟨x, hx, rfl⟩ := prune_some.mp hz
    exact ⟨x, hx, ha⟩
  · rintro ⟨x, hx, ha⟩
    exact ⟨_, prune_some.mpr ⟨x, hx, rfl⟩, ha⟩

end Prune

section Between

/-- `remove_edge(x, y)` takes the edge `k` out of the repository and out of the
sets of `x` and `y`, and leaves everything else as it is. -/
structure TakesOut (g : GraphBase VV EV) (x y k : Nat) : Prop where
  returns : (step (.removeEdgeBetween x y) g).1 = .ok none
  edges : ∀ e z, EdgeAt (step (.removeEdgeBetween x y) g).2 e z ↔ EdgeAt g e z ∧ e ≠ k
  entered : Entry g x ⟨k, y⟩ ∧ Entry g y ⟨k, x⟩
  entries : ∀ v r, Entry (step (.removeEdgeBetween x y) g).2 v r ↔
    Entry g v r ∧ ¬(r.edge = k ∧ (v = x ∨ v = y))
  values : ∀ v a, ValueAt (step (.removeEdgeBetween x y) g).2 v a ↔ ValueAt g v a

structure EitherSide (g : GraphBase VV EV) (x y : Nat) : Prop where
  found : ∀ e, Joins g e x y → ∃ k, Joins g k x y ∧ (∀ e', Joins g e' x y → k ≤ e') ∧
    outcome (UndirectedGraph.getEdge x y) g = (.ok k, g) ∧
    outcome (UndirectedGraph.getEdge y x) g = (.ok k, g) ∧ TakesOut g x y k
  missing : (∀ e, ¬Joins g e x y) →
    outcome (UndirectedGraph.getEdge x y) g = (.error .requireEdgeThatDoesNotExist, g) ∧
    outcome (UndirectedGraph.getEdge y x) g = (.error .requireEdgeThatDoesNotExist, g)

theorem end_of_joins {p : Nat × Nat} {u w a b : Nat} (h : joins p u w) (h' : joins p a b) :
    a = u ∨ a = w := by
  obtain rfl | rfl := h <;> obtain h' | h' := h' <;> cases h'
  · exact Or.inl rfl
  · exact Or.inr rfl
  · exact Or.inr rfl
  · exact Or.inl rfl

theorem least_unique {u w k k' : Nat} {z z' : Edge EV} (h : Least joins es u w k z)
    (h' : Least joins es u w k' z') : k = k' :=
  Nat.le_antisymm (h.le k' z' h'.here h'.ends) (h'.le k z h.here h.ends)

theorem takesOut (h : Holds g vs es) (hinc : Incident vs es) {u w k : Nat} {z : Edge EV}
    (hk : Least joins es u w k z) : TakesOut g u w k := by
  obtain ⟨vs', es', h', heffect, -⟩ := step_effect h hinc (o := .removeEdgeBetween u w) trivial
  obtain ⟨xu, hu⟩ := hinc.live k z u w hk.here hk.ends
  obtain ⟨xw, hw⟩ := hinc.live k z w u hk.here hk.ends.symm
  generalize hres : (step (.removeEdgeBetween u w) g).1 = res at heffect
  cases heffect with
  | refused hr =>
      cases hr with
      | deadEnd ht hdead =>
          obtain rfl | rfl := ht
          · cases hdead.symm.trans hu
          · cases hdead.symm.trans hw
      | noEdge hnone => exact absurd hk.ends (hnone k z hk.here)
  | removeBetween hk' =>
      obtain rfl := least_unique hk hk'
      refine ⟨hres, ?_, ⟨?_, ?_⟩, ?_, ?_⟩
      · intro e y
        rw [edgeAt_iff h', edgeAt_iff h, drop_some, List.mem_singleton]
      · exact (entry_iff h).mpr ⟨xu, hu, (hinc.entries u xu hu _).mpr ⟨z, hk.here, hk.ends⟩⟩
      · exact (entry_iff h).mpr ⟨xw, hw, (hinc.entries w xw hw _).mpr ⟨z, hk.here, hk.ends.symm⟩⟩
      · intro v r
        rw [entry_prune h h' rfl, List.mem_singleton]
        refine and_congr_right fun hr => not_congr ?_
        rw [iff_self_and]
        rintro rfl
        obtain ⟨x, hx, hr⟩ := (entry_iff h).mp hr
        obtain ⟨z', hz', hj⟩ := (hinc.entries v x hx r).mp hr
        cases hk.here.symm.trans hz'
        exact end_of_joins hk.ends hj
      · intro v a
        exact valueAt_prune h h' rfl

theorem eitherSide (h : Holds g vs es) (hinc : Incident vs es) {u w : Nat} {xu xw : Vertex VV}
    (hu : vs u = some xu) (hw : vs w = some xw) : EitherSide g u w := by
  obtain ⟨k, z, hget, hk⟩ | ⟨hget, hnone⟩ := getEdge_least h hinc.toLinked hu hw
  · have hback : UndirectedGraph.getEdge w u g = .ok k g := by
      obtain ⟨k', z', hget', hk'⟩ | ⟨-, hnone⟩ := getEdge_least h hinc.toLinked hw hu
      · rw [hget', least_unique hk (least_swap hk')]
      · exact absurd hk.ends.symm (hnone k z hk.here)
    refine ⟨fun e he => ⟨k, ?_, ?_, outcome_ok hget, outcome_ok hback, takesOut h hinc hk⟩, ?_⟩
    · exact (joins_iff h).mpr ⟨z, hk.here, hk.ends⟩
    · intro e' he'
      obtain ⟨y, hy, hj⟩ := (joins_iff h).mp he'
      exact hk.le e' y hy hj
    · exact fun hn => absurd ((joins_iff h).mpr ⟨z, hk.here, hk.ends⟩) (hn k)
  · have hback : UndirectedGraph.getEdge w u g = .error .requireEdgeThatDoesNotExist g := by
      obtain ⟨k', z', -, hk'⟩ | ⟨hget', -⟩ := getEdge_least h hinc.toLinked hw hu
      · exact absurd hk'.ends.symm (hnone k' z' hk'.here)
      · exact hget'
    refine ⟨fun e he => ?_, fun _ => ⟨outcome_error hget, outcome_error hback⟩⟩
    obtain ⟨y, hy, hj⟩ := (joins_iff h).mp he
    exact absurd hj (hnone e y hy)

end Between

/-- `get_edge` returns the smallest of the edges between two live vertices,
from whichever side, and `remove_edge` takes out just that one. -/
theorem runs_eitherSide (os : List (Op VV EV)) (ho : Along step ProperEnds os {}) (u w : Nat)
    (hu : LiveVertex (run step os {}).2 u) (hw : LiveVertex (run step os {}).2 w) :
    EitherSide (run step os {}).2 u w := by
  obtain ⟨vs, es, h, hinc⟩ := (run_sound os ho).2
  obtain ⟨xu, hxu⟩ := (liveVertex_iff h).mp hu
  obtain ⟨xw, hxw⟩ := (liveVertex_iff h).mp hw
  exact eitherSide h hinc hxu hxw

def recycledOps : List (Op Nat Nat) :=
  [.addVertex (fun _ => true) 7, .addVertex (fun _ => true) 8, .addVertex (fun _ => true) 9,
    .addEdge (fun _ => true) 0 1 5, .addEdge (fun _ => true) 1 0 6, .removeEdge 0,
    .addEdge (fun _ => true) 1 2 4, .addEdge (fun _ => true) 0 1 3]

theorem recycledOps_proper : Along step ProperEnds recycledOps {} :=
  ⟨trivial, trivial, trivial, ⟨by decide, rfl, rfl⟩, ⟨by decide, rfl, rfl⟩, trivial,
    ⟨by decide, rfl, rfl⟩, ⟨by decide, rfl, rfl⟩, trivial⟩

theorem runs_eitherSide_recycled : EitherSide (run step recycledOps {}).2 0 1 :=
  runs_eitherSide recycledOps recycledOps_proper 0 1 rfl rfl

section Vertices

/-- The same vertices, with their values and sets, and the same edges, under the
same ids. The order of the vertices and the ids that come next are not compared. -/
structure SameGraph (g g' : GraphBase VV EV) : Prop where
  vertices : ∀ v x, VertexAt g' v x ↔ VertexAt g v x
  edges : ∀ e y, EdgeAt g' e y ↔ EdgeAt g e y

def removeEach (l : List Nat) : List (Op VV EV) := l.map .removeEdge

/-- `remove_vertex(v)` takes out `v` and the edges at it, and nothing else. It
comes to the same as removing these edges first, in any order. -/
structure TakesOutVertex (g : GraphBase VV EV) (v : Nat) : Prop where
  returns : (step (.removeVertex v) g).1 = .ok none
  vertices : ∀ u, LiveVertex (step (.removeVertex v) g).2 u ↔ LiveVertex g u ∧ u ≠ v
  values : ∀ u a, u ≠ v → (ValueAt (step (.removeVertex v) g).2 u a ↔ ValueAt g u a)
  entries : ∀ u r, u ≠ v →
    (Entry (step (.removeVertex v) g).2 u r ↔ Entry g u r ∧ r.oppositeVertex ≠ v)
  edges : ∀ e y, EdgeAt (step (.removeVertex v) g).2 e y ↔
    EdgeAt g e y ∧ y.vertices.1 ≠ v ∧ y.vertices.2 ≠ v
  oneByOne : ∀ l : List Nat, l.Nodup → (∀ e, e ∈ l ↔ ∃ w, Joins g e v w) →
    ∀ h, (run step (removeEach l) g).2 = h →
      (∀ reply ∈ (run step (removeEach l) g).1, reply = .ok none) ∧
      outcome (associatedEdges v) h = (.ok [], h) ∧
      (step (.removeVertex v) h).1 = .ok none ∧
      SameGraph (step (.removeVertex v) g).2 (step (.removeVertex v) h).2

theorem prune_prune (c d : List Nat) (vs : Nat → Option (Vertex VV)) :
    prune d (prune c vs) = prune (c ++ d) vs := by
  funext u
  rw [prune, prune, prune, Option.map_map]
  congr 1
  funext x
  refine vertex_ext rfl fun r => ?_
  rw [Function.comp, mem_pruneVertex, mem_pruneVertex, mem_pruneVertex, List.mem_append, not_or,
    and_assoc]

theorem drop_drop (c d : List Nat) (es : Nat → Option (Edge EV)) :
    drop d (drop c es) = drop (c ++ d) es := by
  funext e
  by_cases hc : e ∈ c <;> by_cases hd : e ∈ d <;> simp [drop, hc, hd]

theorem removeEach_holds (h : Holds g vs es) (hinc : Incident vs es) {l : List Nat} (hl : l.Nodup)
    (hlive : ∀ e ∈ l, ∃ y, es e = some y) :
    (∀ reply ∈ (run step (removeEach l) g).1, reply = .ok none) ∧
      Holds (run step (removeEach l) g).2 (prune l vs) (drop l es) := by
  induction l generalizing g vs es with
  | nil => exact ⟨fun reply hr => absurd hr List.not_mem_nil, by rwa [prune_nil, drop_nil]⟩
  | cons e l ih =>
      obtain ⟨hnot, hl⟩ := List.nodup_cons.mp hl
      obtain ⟨y, hy⟩ := hlive e List.mem_cons_self
      obtain ⟨g1, hg1, h1⟩ := removeEdge_holds h hinc.toLinked hy (hinc.loopFree e y hy)
      have hstep : step (.removeEdge e) g = (.ok none, g1) := outcome_ok (bind_ok hg1 _)
      obtain ⟨hreplies, h2⟩ := ih h1 (hinc.prune [e]) hl fun k hk => by
        obtain ⟨z, hz⟩ := hlive k (List.mem_cons_of_mem e hk)
        refine ⟨z, drop_some.mpr ⟨hz, ?_⟩⟩
        rintro hke
        exact hnot (List.mem_singleton.mp hke ▸ hk)
      rw [prune_prune, drop_drop] at h2
      rw [removeEach, List.map_cons, run, hstep]
      refine ⟨?_, h2⟩
      intro reply hr
      obtain rfl | hr := List.mem_cons.mp hr
      · rfl
      · exact hreplies reply hr

theorem joins_some {p : Nat × Nat} : (∃ w, joins p v w) ↔ p.1 = v ∨ p.2 = v := by
  constructor
  · rintro ⟨w, rfl | rfl⟩
    · exact Or.inl rfl
    · exact Or.inr rfl
  · rintro (rfl | rfl)
    · exact ⟨p.2, Or.inl rfl⟩
    · exact ⟨p.1, Or.inr rfl⟩

theorem mem_edgeIds_iff (hinc : Incident vs es) (hv : vs v = some x) (he : es e = some y) :
    e ∈ edgeIds x ↔ y.vertices.1 = v ∨ y.vertices.2 = v := by
  rw [mem_edgeIds hinc.toLinked hv, ← joins_some]
  constructor
  · rintro ⟨z, w, hz, hj⟩
    cases he.symm.trans hz
    exact ⟨w, hj⟩
  · rintro ⟨w, hj⟩
    exact ⟨y, w, he, hj⟩

theorem sameGraph_of_holds (h : Holds g vs es) (h' : Holds g' vs es) : SameGraph g g' :=
  ⟨fun _ _ => (vertexAt_iff h').trans (vertexAt_iff h).symm,
    fun _ _ => (edgeAt_iff h').trans (edgeAt_iff h).symm⟩

theorem isolated (hx : ∀ r, r ∉ x.edges) : x.edges.toList = [] ∧ edgeIds x = [] := by
  have hlist : x.edges.toList = [] := List.eq_nil_iff_forall_not_mem.mpr hx
  exact ⟨hlist, by rw [edgeIds, hlist, List.map_nil]⟩

theorem removeVertex_oneByOne (h : Holds g vs es) (hinc : Incident vs es) (hv : vs v = some x)
    (h' : Holds g' (Function.update (prune (edgeIds x) vs) v none) (drop (edgeIds x) es))
    {l : List Nat} (hl : l.Nodup) (hmem : ∀ e, e ∈ l ↔ ∃ w, Joins g e v w)
    {k : GraphBase VV EV} (hk : (run step (removeEach l) g).2 = k) :
    (∀ reply ∈ (run step (removeEach l) g).1, reply = .ok none) ∧
      outcome (associatedEdges v) k = (.ok [], k) ∧
      (step (.removeVertex v) k).1 = .ok none ∧ SameGraph g' (step (.removeVertex v) k).2 := by
  have hsame (e : Nat) : e ∈ l ↔ e ∈ edgeIds x := by
    rw [hmem, mem_edgeIds hinc.toLinked hv, exists_comm]
    exact exists_congr fun w => (joins_iff h).trans (by simp)
  obtain ⟨hreplies, h1⟩ := removeEach_holds h hinc hl fun e he => by
    obtain ⟨w, hw⟩ := (hmem e).mp he
    obtain ⟨y, hy, -⟩ := (joins_iff h).mp hw
    exact ⟨y, hy⟩
  rw [hk, prune_congr hsame, drop_congr hsame] at h1
  have hv1 : prune (edgeIds x) vs v = some (pruneVertex (edgeIds x) x) :=
    prune_some.mpr ⟨x, hv, rfl⟩
  obtain ⟨hnil, hids⟩ := isolated (x := pruneVertex (edgeIds x) x) fun r hr =>
    (mem_pruneVertex.mp hr).2 (List.mem_map_of_mem (mem_pruneVertex.mp hr).1)
  obtain ⟨k', hk', h2⟩ := removeVertex_holds h1 (hinc.prune _).toLinked hv1 fun r hr =>
    absurd hr (List.eq_nil_iff_forall_not_mem.mp hnil r)
  have hstep : step (.removeVertex v) k = (.ok none, k') := outcome_ok (bind_ok hk' _)
  rw [hids, prune_nil, drop_nil] at h2
  rw [hstep]
  refine ⟨hreplies, ?_, rfl, sameGraph_of_holds h' h2⟩
  rw [← hnil]
  exact outcome_ok (associatedEdges_holds h1 hv1)

theorem takesOutVertex (h : Holds g vs es) (hinc : Incident vs es) (hv : vs v = some x) :
    TakesOutVertex g v := by
  obtain ⟨vs', es', h', heffect, -⟩ := step_effect h hinc (o := .removeVertex v) trivial
  generalize hres : (step (.removeVertex v) g).1 = res at heffect
  cases heffect with
  | refused hr =>
      cases hr with
      | deadVertex hu => cases hu.symm.trans hv
  | removeVertex hu =>
      cases hv.symm.trans hu
      have hother {u : Nat} (huv : u ≠ v) :
          Function.update (prune (edgeIds x) vs) v none u = prune (edgeIds x) vs u :=
        Function.update_of_ne huv _ _
      refine ⟨hres, ?_, ?_, ?_, ?_, ?_⟩
      · intro u
        rw [liveVertex_iff h', liveVertex_iff h]
        by_cases huv : u = v
        · simp [huv]
        · simp [prune, huv]
      · exact fun u a huv => valueAt_prune h h' (hother huv)
      · intro u r huv
        rw [entry_prune h h' (hother huv)]
        refine and_congr_right fun hr => not_congr ?_
        obtain ⟨z, hz, hr⟩ := (entry_iff h).mp hr
        obtain ⟨y, hy, hj⟩ := (hinc.entries u z hz r).mp hr
        rw [mem_edgeIds_iff hinc hv hy]
        obtain hj | hj := hj <;> simp [hj, huv]
      · intro e y
        rw [edgeAt_iff h', edgeAt_iff h, drop_some]
        refine and_congr_right fun he => ?_
        rw [mem_edgeIds_iff hinc hv he, not_or]
      · exact fun l hl hmem k hk => removeVertex_oneByOne h hinc hv h' hl hmem hk

end Vertices

/-- `remove_vertex` of a live vertex returns and takes out what it should. -/
theorem runs_takesOutVertex (os : List (Op VV EV)) (ho : Along step ProperEnds os {}) (v : Nat)
    (hv : LiveVertex (run step os {}).2 v) : TakesOutVertex (run step os {}).2 v := by
  obtain ⟨vs, es, h, hinc⟩ := (run_sound os ho).2
  obtain ⟨x, hx⟩ := (liveVertex_iff h).mp hv
  exact takesOutVertex h hinc hx

theorem runs_takesOutVertex_recycled : TakesOutVertex (run step recycledOps {}).2 1 :=
  runs_takesOutVertex recycledOps recycledOps_proper 1 rfl

end Lzhlib.UndirectedRemovals
