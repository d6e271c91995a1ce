import Lzhlib.GraphRecords
import Lzhlib.RepoMaps

namespace Lzhlib.GraphMaps

open Programs Machine ValueRepo KeyedSets GraphRecords RepoMaps

variable {VV EV α : Type} {g : GraphBase VV EV} {vs : Nat → Option (Vertex VV)}
  {es : Nat → Option (Edge EV)} {v e : Nat} {x : Vertex VV} {y : Edge EV}

structure Holds (g : GraphBase VV EV) (vs : Nat → Option (Vertex VV)) (es : Nat → Option (Edge EV)) :
    Prop where
  vertices : Maps g.vertexRepository vs
  edges : Maps g.edgeRepository es

theorem holds_empty : Holds ({} : GraphBase VV EV) (fun _ => none) (fun _ => none) :=
  ⟨maps_empty, maps_empty⟩

theorem getVertex_holds (h : Holds g vs es) (hv : vs v = some x) : getVertex v g = .ok x g :=
  zoom_ok vertexPart (getObject_maps h.vertices hv)

theorem getVertex_rejects (h : Holds g vs es) (hv : vs v = none) :
    ∃ e, getVertex v g = .error e g ∧ e.RejectsId v := by
  obtain ⟨e, he, hr⟩ := getObject_rejects h.vertices hv
  exact ⟨e, zoom_error vertexPart he, hr⟩

theorem getEdge_holds (h : Holds g vs es) (he : es e = some y) : getEdge e g = .ok y g :=
  zoom_ok edgePart (getObject_maps h.edges he)

theorem getEdge_rejects (h : Holds g vs es) (he : es e = none) :
    ∃ ex, getEdge e g = .error ex g ∧ ex.RejectsId e := by
  obtain ⟨ex, hex, hr⟩ := getObject_rejects h.edges he
  exact ⟨ex, zoom_error edgePart hex, hr⟩

theorem atVertex_holds (h : Holds g vs es) (hv : vs v = some x) {p : Prog (Vertex VV) α} {a : α}
    {w : Vertex VV} (hp : p x = .ok a w) :
    ∃ g', atVertex v p g = .ok a g' ∧ Holds g' (Function.update vs v (some w)) es := by
  obtain ⟨t, ht, hm⟩ := withObject_maps h.vertices hv hp
  exact ⟨_, zoom_ok vertexPart ht, hm, h.edges⟩

theorem atVertex_throws (h : Holds g vs es) (hv : vs v = some x) {p : Prog (Vertex VV) α} {ex : Exc}
    {w : Vertex VV} (hp : p x = .error ex w) :
    ∃ g', atVertex v p g = .error ex g' ∧ Holds g' (Function.update vs v (some w)) es := by
  obtain ⟨t, ht, hm⟩ := withObject_throws h.vertices hv hp
  exact ⟨_, zoom_error vertexPart ht, hm, h.edges⟩

theorem atVertex_rejects (h : Holds g vs es) (hv : vs v = none) (p : Prog (Vertex VV) α) :
    ∃ ex, atVertex v p g = .error ex g ∧ ex.RejectsId v := by
  obtain ⟨ex, hex, hr⟩ := withObject_rejects h.vertices hv p
  exact ⟨ex, zoom_error vertexPart hex, hr⟩

theorem atEdge_holds (h : Holds g vs es) (he : es e = some y) {p : Prog (Edge EV) α} {a : α}
    {w : Edge EV} (hp : p y = .ok a w) :
    ∃ g', atEdge e p g = .ok a g' ∧ Holds g' vs (Function.update es e (some w)) := by
  obtain ⟨t, ht, hm⟩ := withObject_maps h.edges he hp
  exact ⟨_, zoom_ok edgePart ht, h.vertices, hm⟩

theorem removeVertexObject_holds (h : Holds g vs es) (hv : vs v = some x) :
    ∃ g', zoom vertexPart (removeObject v) g = .ok ⟨⟩ g' ∧
      Holds g' (Function.update vs v none) es := by
  obtain ⟨t, ht, hm⟩ := removeObject_maps h.vertices hv
  exact ⟨_, zoom_ok vertexPart ht, hm, h.edges⟩

theorem removeEdgeObject_holds (h : Holds g vs es) (he : es e = some y) :
    ∃ g', zoom edgePart (removeObject e) g = .ok ⟨⟩ g' ∧
      Holds g' vs (Function.update es e none) := by
  obtain ⟨t, ht, hm⟩ := removeObject_maps h.edges he
  exact ⟨_, zoom_ok edgePart ht, h.vertices, hm⟩

theorem addVertex_holds (h : Holds g vs es) (fits : Nat → Bool) (value : VV) :
    (∃ ex g', addVertex fits value g = .error ex g' ∧ ex.NoRoom ∧ Holds g' vs es) ∨
    (∃ i g', addVertex fits value g = .ok i g' ∧ vs i = none ∧
      Holds g' (Function.update vs i (some { value := value })) es) := by
  obtain ⟨ex, t, ht, hroom, hm⟩ | ⟨i, t, ht, hi, hm⟩ :=
    assignObject_maps vertexType (fun _ => rfl) (fun _ _ => rfl) fits value h.vertices
  · exact Or.inl ⟨ex, _, zoom_error vertexPart ht, hroom, hm, h.edges⟩
  · exact Or.inr ⟨i, _, zoom_ok vertexPart ht, hi, hm, h.edges⟩

theorem assignEdge_holds (h : Holds g vs es) (fits : Nat → Bool) (value : EV) :
    (∃ ex g', zoom edgePart (assignObject edgeType fits value) g = .error ex g' ∧
      ex.NoRoom ∧ Holds g' vs es) ∨
    (∃ i g', zoom edgePart (assignObject edgeType fits value) g = .ok i g' ∧ es i = none ∧
      Holds g' vs (Function.update es i (some { value := value }))) := by
  obtain ⟨ex, t, ht, hroom, hm⟩ | ⟨i, t, ht, hi, hm⟩ :=
    assignObject_maps edgeType (fun _ => rfl) (fun _ _ => rfl) fits value h.edges
  · exact Or.inl ⟨ex, _, zoom_error edgePart ht, hroom, h.vertices, hm⟩
  · exact Or.inr ⟨i, _, zoom_ok edgePart ht, hi, h.vertices, hm⟩

theorem newEdge_holds (h : Holds g vs es) (fits : Nat → Bool) (a b : Nat) (value : EV) :
    (∃ ex g', zoom edgePart (assignObject edgeType fits value) g = .error ex g' ∧
      ex.NoRoom ∧ Holds g' vs es) ∨
    (∃ i g1 g2, zoom edgePart (assignObject edgeType fits value) g = .ok i g1 ∧
      atEdge i (setAssociatedVertices a b) g1 = .ok ⟨⟩ g2 ∧ es i = none ∧
      Holds g2 vs (Function.update es i (some ⟨value, (a, b)⟩))) := by
  obtain ⟨ex, t, ht, hroom, hm⟩ | ⟨i, g1, hg1, hi, h1⟩ := assignEdge_holds h fits value
  · exact Or.inl ⟨ex, t, ht, hroom, hm⟩
  · obtain ⟨g2, hg2, h2⟩ := atEdge_holds (e := i) h1 (Function.update_self _ _ _)
      (modify_apply (fun y : Edge EV => { y with vertices := (a, b) }) _)
    rw [Function.update_idem] at h2
    exact Or.inr ⟨i, g1, g2, hg1, hg2, hi, h2⟩

section Observations

theorem liveVertex_iff (h : Holds g vs es) : LiveVertex g v ↔ ∃ x, vs v = some x := by
  have hrun : isIdValid v g = .ok (vs v).isSome g :=
    zoom_ok vertexPart (isIdUsed_maps h.vertices v)
  rw [LiveVertex, outcome_ok hrun, ← Option.isSome_iff_exists]
  simp

theorem associatedVertices_holds (h : Holds g vs es) (he : es e = some y) :
    associatedVertices e g = .ok y.vertices g := by
  rw [associatedVertices, bind_ok (getEdge_holds h he)]
  rfl

theorem associatedEdges_holds (h : Holds g vs es) (hv : vs v = some x) :
    associatedEdges v g = .ok x.edges.toList g := by
  rw [associatedEdges, bind_ok (getVertex_holds h hv)]
  rfl

theorem neighbors_holds (h : Holds g vs es) (hv : vs v = some x) :
    neighbors v g = .ok (x.edges.toList.map EdgeRef.oppositeVertex) g := by
  rw [neighbors, bind_ok (associatedEdges_holds h hv)]
  rfl

theorem neighbors_live (h : Holds g vs es) {l : List Nat} (hl : outcome (neighbors v) g = (.ok l, g)) :
    ∃ x, vs v = some x ∧ l = x.edges.toList.map EdgeRef.oppositeVertex := by
  cases hv : vs v with
  | some x =>
      rw [outcome_ok (neighbors_holds h hv)] at hl
      cases hl
      exact ⟨x, rfl, rfl⟩
  | none =>
      obtain ⟨ex, hex, -⟩ := getVertex_rejects h hv
      have hrun : neighbors v g = .error ex g := bind_error (bind_error hex _) _
      rw [outcome_error hrun] at hl
      cases hl

theorem associated_holds (h : Holds g vs es) (hv : vs v = some x) (e : Nat) :
    associated v e g = .ok (x.associated e) g := by
  rw [associated, bind_ok (getVertex_holds h hv)]
  rfl

theorem liveEdge_iff (h : Holds g vs es) {a b : Nat} :
    LiveEdge g e a b ↔ ∃ y, es e = some y ∧ y.vertices = (a, b) := by
  rw [LiveEdge]
  cases he : es e with
  | some y =>
      rw [outcome_ok (associatedVertices_holds h he)]
      simp
  | none =>
      obtain ⟨ex, hex, -⟩ := getEdge_rejects h he
      have hrun : associatedVertices e g = .error ex g := bind_error hex _
      rw [outcome_error hrun]
      simp

theorem entry_iff (h : Holds g vs es) {r : EdgeRef} :
    Entry g v r ↔ ∃ x, vs v = some x ∧ r ∈ x.edges := by
  rw [Entry]
  cases hv : vs v with
  | some x =>
      rw [outcome_ok (associatedEdges_holds h hv)]
      simp [KeyedSet.mem_toList]
  | none =>
      obtain ⟨ex, hex, -⟩ := getVertex_rejects h hv
      have hrun : associatedEdges v g = .error ex g := bind_error hex _
      rw [outcome_error hrun]
      simp

end Observations

/-- The set of every vertex is exactly the edges that join it to others. -/
structure Linked (joins : Nat × Nat → Nat → Nat → Prop) (vs : Nat → Option (Vertex VV))
    (es : Nat → Option (Edge EV)) : Prop where
  live : ∀ e y u w, es e = some y → joins y.vertices u w → ∃ x, vs u = some x
  entries : ∀ v x, vs v = some x → ∀ r, r ∈ x.edges ↔
    ∃ y, es r.edge = some y ∧ joins y.vertices v r.oppositeVertex

section Linked

variable {joins : Nat × Nat → Nat → Nat → Prop}

theorem linked_empty :
    Linked joins (fun _ => none : Nat → Option (Vertex VV)) (fun _ => none : Nat → Option (Edge EV)) :=
  ⟨fun _ _ _ _ h => absurd h (by simp), fun _ _ h => absurd h (by simp)⟩

theorem Linked.fresh_key (h : Linked joins vs es) (hv : vs v = some x) (he : es e = none) :
    ∀ r ∈ x.edges, r.edge ≠ e := by
  intro r hr hre
  obtain ⟨y, hy, -⟩ := (h.entries v x hv r).mp hr
  rw [hre, he] at hy
  cases hy

theorem Linked.addVertex (h : Linked joins vs es) (hv : vs v = none) (value : VV) :
    Linked joins (Function.update vs v (some { value := value })) es := by
  refine ⟨?_, ?_⟩
  · intro e y u w he hj
    by_cases huv : u = v
    · exact ⟨_, by rw [huv, Function.update_self]⟩
    · rw [Function.update_of_ne huv]
      exact h.live e y u w he hj
  · intro u x hu r
    by_cases huv : u = v
    · subst u
      rw [Function.update_self] at hu
      cases hu
      apply iff_of_false (KeyedSet.not_mem_empty r)
      rintro ⟨y, hy, hj⟩
      obtain ⟨x, hx⟩ := h.live _ y v _ hy hj
      rw [hv] at hx
      cases hx
    · rw [Function.update_of_ne huv] at hu
      exact h.entries u x hu r

theorem Linked.find? (h : Linked joins vs es) (hv : vs v = some x) (he : es e = some y) {w : Nat}
    (hj : joins y.vertices v w) : x.edges.find? e = some ⟨e, w⟩ :=
  KeyedSet.find?_eq_some ((h.entries v x hv ⟨e, w⟩).mpr ⟨y, he, hj⟩)

end Linked

section AddEdge

def attach (r : EdgeRef) (x : Vertex VV) : Vertex VV := ⟨x.value, x.edges.insert r⟩

theorem mem_attach {w : Nat} {r : EdgeRef} (h : ∀ t ∈ x.edges, t.edge ≠ e) :
    r ∈ (attach ⟨e, w⟩ x).edges ↔ (r.edge = e ∧ r.oppositeVertex = w) ∨ r ∈ x.edges := by
  have hinsert : r ∈ (attach ⟨e, w⟩ x).edges ↔ r = ⟨e, w⟩ ∨ r ∈ x.edges := KeyedSet.mem_insert h
  rw [hinsert]
  cases r
  simp

theorem attach_of_mem {r t : EdgeRef} (h : t ∈ x.edges) (hr : t.edge = r.edge) : attach r x = x := by
  rw [attach, KeyedSet.insert_of_mem h hr]

def attachAt (v : Nat) (r : EdgeRef) (vs : Nat → Option (Vertex VV)) : Nat → Option (Vertex VV) :=
  Function.update vs v ((vs v).map (attach r))

theorem attachAt_self {r : EdgeRef} (hv : vs v = some x) : attachAt v r vs v = some (attach r x) := by
  rw [attachAt, Function.update_self, hv, Option.map_some]

theorem attachAt_of_ne {r : EdgeRef} {u : Nat} (h : u ≠ v) : attachAt v r vs u = vs u :=
  Function.update_of_ne h _ _

theorem attachAt_holds (h : Holds g vs es) (hv : vs v = some x) (r : EdgeRef) :
    ∃ g', atVertex v (addAssociatedEdge r) g = .ok ⟨⟩ g' ∧ Holds g' (attachAt v r vs) es := by
  obtain ⟨g', hrun, h'⟩ := atVertex_holds h hv (modify_apply (attach r) x)
  refine ⟨g', hrun, ?_⟩
  rwa [attachAt, hv, Option.map_some]

variable {joins : Nat × Nat → Nat → Nat → Prop}

theorem Linked.addEdge (h : Linked joins vs es) (hi : es e = none) {p : Nat × Nat}
    {vs' : Nat → Option (Vertex VV)} (hdom : ∀ u, (∃ x, vs' u = some x) ↔ ∃ x, vs u = some x)
    (hends : ∀ u w, joins p u w → ∃ x, vs u = some x)
    (hsets : ∀ u z z', vs u = some z → vs' u = some z' → ∀ r, r ∈ z'.edges ↔
      (r.edge = e ∧ joins p u r.oppositeVertex) ∨ r ∈ z.edges) (value : EV) :
    Linked joins vs' (Function.update es e (some ⟨value, p⟩)) := by
  refine ⟨?_, ?_⟩
  · intro k y u w hk hj
    apply (hdom u).mpr
    by_cases hke : k = e
    · rw [hke, Function.update_self] at hk
      cases hk
      exact hends u w hj
    · rw [Function.update_of_ne hke] at hk
      exact h.live k y u w hk hj
  · intro u z' hu' r
    obtain ⟨z, hu⟩ := (hdom u).mp ⟨z', hu'⟩
    rw [hsets u z z' hu hu' r]
    by_cases hr : r.edge = e
    · have hnot : r ∉ z.edges := fun hm => h.fresh_key hu hi r hm hr
      rw [or_iff_left hnot, hr, Function.update_self]
      simp
    · rw [Function.update_of_ne hr, ← h.entries u z hu r]
      simp [hr]

end AddEdge

section Prune

def pruneVertex (d : List Nat) (x : Vertex VV) : Vertex VV :=
  { x with edges := x.edges.filter fun r => r.edge ∉ d }

def prune (d : List Nat) (vs : Nat → Option (Vertex VV)) (u : Nat) : Option (Vertex VV) :=
  (vs u).map (pruneVertex d)

def drop (d : List Nat) (es : Nat → Option (Edge EV)) (e : Nat) : Option (Edge EV) :=
  if e ∈ d then none else es e

theorem mem_pruneVertex {d : List Nat} {r : EdgeRef} :
    r ∈ (pruneVertex d x).edges ↔ r ∈ x.edges ∧ r.edge ∉ d := by
  rw [pruneVertex, KeyedSet.mem_filter, decide_eq_true_eq]

theorem vertex_ext {x z : Vertex VV} (hv : x.value = z.value) (he : ∀ r, r ∈ x.edges ↔ r ∈ z.edges) :
    x = z := by
  obtain ⟨a, s⟩ := x
  obtain ⟨b, t⟩ := z
  obtain rfl : s = t := KeyedSet.ext_mem he
  obtain rfl : a = b := hv
  rfl

theorem pruneVertex_of_disjoint {d : List Nat} (h : ∀ r ∈ x.edges, r.edge ∉ d) :
    pruneVertex d x = x := by
  refine vertex_ext rfl fun r => ?_
  rw [mem_pruneVertex]
  exact and_iff_left_of_imp (h r)

theorem pruneVertex_append_of_not_mem {d : List Nat} (h : ∀ r ∈ x.edges, r.edge ≠ e) :
    pruneVertex (d ++ [e]) x = pruneVertex d x := by
  refine vertex_ext rfl fun r => ?_
  simp only [mem_pruneVertex, List.mem_append, List.mem_singleton, not_or]
  exact and_congr_right fun hr => and_iff_left (h r hr)

theorem erase_pruneVertex (d : List Nat) (e : Nat) (x : Vertex VV) :
    (⟨x.value, (pruneVertex d x).edges.erase e⟩ : Vertex VV) =
      pruneVertex (d ++ [e]) x := by
  refine vertex_ext rfl fun r => ?_
  simp only [KeyedSet.mem_erase, mem_pruneVertex, List.mem_append, List.mem_singleton, not_or,
    and_assoc]

theorem pruneVertex_singleton (e : Nat) (x : Vertex VV) :
    pruneVertex [e] x = ⟨x.value, x.edges.erase e⟩ := by
  have h := erase_pruneVertex [] e x
  rw [pruneVertex_of_disjoint fun _ _ => List.not_mem_nil] at h
  exact h.symm

theorem prune_of_disjoint {d : List Nat} {u : Nat}
    (h : ∀ z, vs u = some z → ∀ r ∈ z.edges, r.edge ∉ d) : prune d vs u = vs u := by
  rw [prune]
  cases hu : vs u with
  | none => rfl
  | some z => rw [Option.map_some, pruneVertex_of_disjoint (h z hu)]

theorem prune_singleton {u : Nat} (hu : vs u = some x) :
    prune [e] vs u = some ⟨x.value, x.edges.erase e⟩ := by
  rw [prune, hu, Option.map_some, pruneVertex_singleton]

theorem prune_nil (vs : Nat → Option (Vertex VV)) : prune [] vs = vs := by
  funext u
  exact prune_of_disjoint fun _ _ _ _ => List.not_mem_nil

theorem drop_nil (es : Nat → Option (Edge EV)) : drop [] es = es := by
  funext e
  simp [drop]

theorem drop_append (d : List Nat) (e : Nat) (es : Nat → Option (Edge EV)) :
    Function.update (drop d es) e none = drop (d ++ [e]) es := by
  funext k
  by_cases hk : k = e <;> simp [drop, hk]

theorem drop_singleton (e : Nat) (es : Nat → Option (Edge EV)) :
    Function.update es e none = drop [e] es := by
  have h := drop_append [] e es
  rwa [drop_nil] at h

variable {joins : Nat × Nat → Nat → Nat → Prop}

theorem Linked.prune (h : Linked joins vs es) (d : List Nat) :
    Linked joins (prune d vs) (drop d es) := by
  refine ⟨?_, ?_⟩
  · intro e y u w he hj
    rw [drop] at he
    split_ifs at he
    obtain ⟨x, hx⟩ := h.live e y u w he hj
    exact ⟨_, by rw [GraphMaps.prune, hx, Option.map_some]⟩
  · intro v x hv r
    obtain ⟨z, hz, rfl⟩ := Option.map_eq_some_iff.mp hv
    rw [mem_pruneVertex, h.entries v z hz r, drop]
    by_cases hr : r.edge ∈ d <;> simp [hr]

theorem Linked.removeVertex (h : Linked joins vs es) (hv : vs v = some x) (hx : ∀ r, r ∉ x.edges) :
    Linked joins (Function.update vs v none) es := by
  refine ⟨?_, ?_⟩
  · intro e y u w he hj
    by_cases huv : u = v
    · subst u
      exact absurd ((h.entries v x hv ⟨e, w⟩).mpr ⟨y, he, hj⟩) (hx _)
    · rw [Function.update_of_ne huv]
      exact h.live e y u w he hj
  · intro u z hu r
    by_cases huv : u = v
    · subst u
      rw [Function.update_self] at hu
      cases hu
    · rw [Function.update_of_ne huv] at hu
      exact h.entries u z hu r

def edgeIds (x : Vertex VV) : List Nat := x.edges.toList.map EdgeRef.edge

theorem mem_edgeIds (h : Linked joins vs es) (hv : vs v = some x) :
    e ∈ edgeIds x ↔ ∃ y w, es e = some y ∧ joins y.vertices v w := by
  rw [edgeIds, List.mem_map]
  constructor
  · rintro ⟨r, hr, rfl⟩
    obtain ⟨y, hy, hj⟩ := (h.entries v x hv r).mp hr
    exact ⟨y, _, hy, hj⟩
  · rintro ⟨y, w, hy, hj⟩
    exact ⟨⟨e, w⟩, (h.entries v x hv ⟨e, w⟩).mpr ⟨y, hy, hj⟩, rfl⟩

theorem Linked.isolate (h : Linked joins vs es) (hv : vs v = some x) :
    Linked joins (Function.update (GraphMaps.prune (edgeIds x) vs) v none)
      (drop (edgeIds x) es) := by
  have hx : GraphMaps.prune (edgeIds x) vs v = some (pruneVertex (edgeIds x) x) := by
    rw [GraphMaps.prune, hv, Option.map_some]
  apply (h.prune (edgeIds x)).removeVertex hx
  intro r hr
  obtain ⟨hr, hn⟩ := mem_pruneVertex.mp hr
  exact hn (List.mem_map_of_mem hr)

end Prune

section Least

variable {joins : Nat × Nat → Nat → Nat → Prop}

structure Least (joins : Nat × Nat → Nat → Nat → Prop) (es : Nat → Option (Edge EV)) (u w k : Nat)
    (z : Edge EV) : Prop where
  here : es k = some z
  ends : joins z.vertices u w
  le : ∀ k' z', es k' = some z' → joins z'.vertices u w → k ≤ k'

def NoneJoins (joins : Nat × Nat → Nat → Nat → Prop) (es : Nat → Option (Edge EV)) (u w : Nat) : Prop :=
  ∀ e y, es e = some y → ¬joins y.vertices u w

theorem Linked.associatedEdge_least (hl : Linked joins vs es) (hv : vs v = some x) (w : Nat) :
    (∃ k z, x.associatedEdge w = .ok k ∧ Least joins es v w k z) ∨
      (x.associatedEdge w = .error .requireEdgeThatDoesNotExist ∧ NoneJoins joins es v w) := by
  rw [Vertex.associatedEdge]
  cases hf : x.edges.toList.find? fun e => e.oppositeVertex == w with
  | none =>
      refine Or.inr ⟨rfl, fun e y he hj => ?_⟩
      have hr : (⟨e, w⟩ : EdgeRef) ∈ x.edges := (hl.entries v x hv _).mpr ⟨y, he, hj⟩
      exact absurd (List.find?_eq_none.mp hf _ hr) (by simp)
  | some s =>
      have hw : s.oppositeVertex = w := by simpa using List.find?_some hf
      obtain ⟨z, hz, hj⟩ := (hl.entries v x hv s).mp (List.mem_of_find?_eq_some hf)
      refine Or.inl ⟨s.edge, z, rfl, hz, hw ▸ hj, fun k' z' hk' hj' => ?_⟩
      have hr : (⟨k', w⟩ : EdgeRef) ∈ x.edges := (hl.entries v x hv _).mpr ⟨z', hk', hj'⟩
      exact KeyedSet.find?_toList_le hf hr (by simp)

end Least

theorem removeAssociatedEdge_ok {r : EdgeRef} (h : x.edges.find? e = some r) :
    removeAssociatedEdge e x = .ok ⟨⟩ { x with edges := x.edges.erase e } := by
  rw [removeAssociatedEdge, get_bind_apply, h]
  rfl

theorem removeAssociatedEdge_undefined (h : x.edges.find? e = none) :
    removeAssociatedEdge e x = .error .undefined x := by
  rw [removeAssociatedEdge, get_bind_apply, h]
  rfl

end Lzhlib.GraphMaps
