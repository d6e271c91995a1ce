import Lzhlib.DirectedRuns
import Lzhlib.UndirectedRuns

namespace Lzhlib.Adjacency

open Programs Machine KeyedSets GraphRecords GraphMaps Dangling Incidence Runs

variable {VV EV : Type} {g : GraphBase VV EV} {vs : Nat → Option (Vertex VV)}
  {es : Nat → Option (Edge EV)}

/-- Entries in the order of their edges among which no search for `y` goes
astray: none before the others leads above `y`, none after them leads below,
and nowhere is an entry that leads below followed by one that leads above. -/
structure InReach (y : Nat) (l : List EdgeRef) : Prop where
  first : ∀ r ∈ l.head?, r.oppositeVertex ≤ y
  last : ∀ r ∈ l.getLast?, y ≤ r.oppositeVertex
  between : l.IsChain fun r s => r.oppositeVertex < y → s.oppositeVertex ≤ y

section Search

variable {x : Vertex VV} {y : Nat}

theorem inReach_iff {l : List EdgeRef} (hl : l ≠ []) : InReach y l ↔
    SearchTrees.Tree.Findable (fun r => r.oppositeVertex < y) (fun r => y < r.oppositeVertex) l := by
  constructor
  · intro h
    exact ⟨hl, by simpa using h.first, by simpa using h.last, by simpa using h.between⟩
  · intro h
    exact ⟨by simpa using h.first, by simpa using h.last, by simpa using h.between⟩

def shapeWith (x : Vertex VV) (t : SearchTrees.Tree EdgeRef) (ht : t.toList = x.edges.toList) :
    Shape where
  tree s := if s.toList = x.edges.toList then t else SearchTrees.Tree.ofList s.toList
  inorder s := by
    split_ifs with h
    · exact ht.trans h.symm
    · exact SearchTrees.Tree.toList_ofList _

theorem shapeWith_tree (t : SearchTrees.Tree EdgeRef) (ht : t.toList = x.edges.toList) :
    (shapeWith x t ht).tree x.edges = t :=
  if_pos rfl

theorem adjacent_sound {shape : Shape} (h : x.adjacent shape y = true) :
    ∃ r ∈ x.edges, r.oppositeVertex = y := by
  obtain ⟨r, hr⟩ := Option.isSome_iff_exists.mp h
  obtain ⟨hmem, hless, hgreater⟩ := SearchTrees.Tree.find?_sound hr
  rw [shape.inorder] at hmem
  refine ⟨r, hmem, ?_⟩
  simp only [decide_eq_false_iff_not, not_lt] at hless hgreater
  exact le_antisymm hgreater hless

/-- Some shape hides an entry exactly when the entries are not in reach. -/
theorem adjacent_complete {r : EdgeRef} (hr : r ∈ x.edges) :
    (∀ shape, x.adjacent shape y = true) ↔ InReach y x.edges.toList := by
  rw [inReach_iff (List.ne_nil_of_mem hr), ← SearchTrees.Tree.forall_found_iff (by simp; omega)]
  constructor
  · intro h t ht
    have hfound := h (shapeWith x t ht)
    rwa [Vertex.adjacent, shapeWith_tree] at hfound
  · exact fun h shape => h (shape.tree x.edges) (shape.inorder x.edges)

theorem forall_adjacent_iff :
    (∀ shape, x.adjacent shape y = true ↔ ∃ r ∈ x.edges, r.oppositeVertex = y) ↔
      ((∃ r ∈ x.edges, r.oppositeVertex = y) → InReach y x.edges.toList) := by
  by_cases hedge : ∃ r ∈ x.edges, r.oppositeVertex = y
  · obtain ⟨r, hr, hy⟩ := id hedge
    simp only [hedge, iff_true, forall_const]
    exact adjacent_complete hr
  · refine iff_of_true (fun shape => ⟨adjacent_sound, fun h => absurd h hedge⟩) ?_
    exact fun h => absurd h hedge

end Search

structure Agrees (g : GraphBase VV EV) (adjacent : Shape → Prog (GraphBase VV EV) Bool)
    (getEdge : Prog (GraphBase VV EV) Nat) (edge : Prop) : Prop where
  adjacent : ∀ shape, ∃ b, outcome (adjacent shape) g = (.ok b, g) ∧ (b = true ↔ edge)
  found : edge → ∃ k, outcome getEdge g = (.ok k, g)
  missing : ¬edge → outcome getEdge g = (.error .requireEdgeThatDoesNotExist, g)

theorem agrees_iff {adjacent : Shape → Prog (GraphBase VV EV) Bool}
    {getEdge : Prog (GraphBase VV EV) Nat} {edge : Prop} {x : Vertex VV} {y : Nat}
    (hadj : ∀ shape, adjacent shape g = .ok (x.adjacent shape y) g)
    (hedge : edge ↔ ∃ r ∈ x.edges, r.oppositeVertex = y)
    (hget : edge ∧ (∃ k, getEdge g = .ok k g) ∨
      ¬edge ∧ getEdge g = .error .requireEdgeThatDoesNotExist g) :
    Agrees g adjacent getEdge edge ↔ (edge → InReach y x.edges.toList) := by
  rw [hedge, ← forall_adjacent_iff, ← hedge]
  constructor
  · intro h shape
    obtain ⟨b, hb, hiff⟩ := h.adjacent shape
    rw [outcome_ok (hadj shape)] at hb
    cases hb
    exact hiff
  · intro h
    refine ⟨fun shape => ⟨_, outcome_ok (hadj shape), h shape⟩, ?_, ?_⟩
    · intro he
      obtain ⟨-, k, hk⟩ | ⟨hn, -⟩ := hget
      · exact ⟨k, outcome_ok hk⟩
      · exact absurd he hn
    · intro hn
      obtain ⟨he, -⟩ | ⟨-, hk⟩ := hget
      · exact absurd he hn
      · exact outcome_error hk

section Directed

def DirectedAgrees (g : GraphBase VV EV) (x y : Nat) : Prop :=
  Agrees g (DirectedGraph.adjacent · x y) (DirectedGraph.getEdge x y) (∃ e, LiveEdge g e x y)

/-- If an edge leads from `x` to `y`, the search in the set of `x` is bound to find one. -/
def DirectedInReach (g : GraphBase VV EV) (x y : Nat) : Prop :=
  (∃ e, LiveEdge g e x y) → ∃ l, outcome (associatedEdges x) g = (.ok l, g) ∧ InReach y l

theorem directedAgrees_iff (h : Holds g vs es) (hl : Linked leads vs es) {x y : Nat} {vx : Vertex VV}
    (hx : vs x = some vx) : DirectedAgrees g x y ↔ DirectedInReach g x y := by
  have hedge : (∃ e, LiveEdge g e x y) ↔ ∃ r ∈ vx.edges, r.oppositeVertex = y := by
    simp only [liveEdge_iff h]
    constructor
    · rintro ⟨e, z, hz, hv⟩
      exact ⟨⟨e, y⟩, (hl.entries x vx hx _).mpr ⟨z, hz, hv⟩, rfl⟩
    · rintro ⟨r, hr, rfl⟩
      obtain ⟨z, hz, hv⟩ := (hl.entries x vx hx r).mp hr
      exact ⟨r.edge, z, hz, hv⟩
  have hadj (shape : Shape) :
      DirectedGraph.adjacent shape x y g = .ok (vx.adjacent shape y) g := by
    rw [DirectedGraph.adjacent, bind_ok (getVertex_holds h hx)]
    rfl
  have hlist : outcome (associatedEdges x) g = (.ok vx.edges.toList, g) :=
    outcome_ok (associatedEdges_holds h hx)
  rw [DirectedAgrees, agrees_iff hadj hedge ?_, DirectedInReach, hlist]
  · simp
  · obtain ⟨k, z, hget, hk⟩ | ⟨hget, hnone⟩ := DirectedRuns.getEdge_least h hl hx y
    · exact Or.inl ⟨⟨k, (liveEdge_iff h).mpr ⟨z, hk.here, hk.ends⟩⟩, k, hget⟩
    · refine Or.inr ⟨?_, hget⟩
      rintro ⟨e, he⟩
      obtain ⟨z, hz, hv⟩ := (liveEdge_iff h).mp he
      exact hnone e z hz hv

end Directed

section Undirected

def UndirectedAgrees (g : GraphBase VV EV) (x y : Nat) : Prop :=
  Agrees g (UndirectedGraph.adjacent · x y) (UndirectedGraph.getEdge x y)
    (∃ e, LiveEdge g e x y ∨ LiveEdge g e y x)

/-- If an edge joins `x` and `y`, the search is bound to find one in the set
it looks into: that of `x` when it is the smaller one, else that of `y`. -/
def UndirectedInReach (g : GraphBase VV EV) (x y : Nat) : Prop :=
  (∃ e, LiveEdge g e x y ∨ LiveEdge g e y x) → ∃ l m,
    outcome (associatedEdges x) g = (.ok l, g) ∧ outcome (associatedEdges y) g = (.ok m, g) ∧
      if l.length < m.length then InReach y l else InReach x m

theorem edge_iff_entry (h : Holds g vs es) (hl : Linked joins vs es) {x y : Nat} {vx : Vertex VV}
    (hx : vs x = some vx) : (∃ e, LiveEdge g e x y ∨ LiveEdge g e y x) ↔
      ∃ r ∈ vx.edges, r.oppositeVertex = y := by
  simp only [UndirectedRuns.liveEdge_or_iff h]
  constructor
  · rintro ⟨e, z, hz, hj⟩
    exact ⟨⟨e, y⟩, (hl.entries x vx hx _).mpr ⟨z, hz, hj⟩, rfl⟩
  · rintro ⟨r, hr, rfl⟩
    obtain ⟨z, hz, hj⟩ := (hl.entries x vx hx r).mp hr
    exact ⟨r.edge, z, hz, hj⟩

theorem undirectedAgrees_iff (h : Holds g vs es) (hl : Linked joins vs es) {x y : Nat}
    {vx vy : Vertex VV} (hx : vs x = some vx) (hy : vs y = some vy) :
    UndirectedAgrees g x y ↔ UndirectedInReach g x y := by
  have hlistx : outcome (associatedEdges x) g = (.ok vx.edges.toList, g) :=
    outcome_ok (associatedEdges_holds h hx)
  have hlisty : outcome (associatedEdges y) g = (.ok vy.edges.toList, g) :=
    outcome_ok (associatedEdges_holds h hy)
  have hget : (∃ e, LiveEdge g e x y ∨ LiveEdge g e y x) ∧
        (∃ k, UndirectedGraph.getEdge x y g = .ok k g) ∨
      (¬∃ e, LiveEdge g e x y ∨ LiveEdge g e y x) ∧
        UndirectedGraph.getEdge x y g = .error .requireEdgeThatDoesNotExist g := by
    simp only [UndirectedRuns.liveEdge_or_iff h]
    obtain ⟨k, z, hget, hk⟩ | ⟨hget, hnone⟩ := UndirectedEffects.getEdge_least h hl hx hy
    · exact Or.inl ⟨⟨k, z, hk.here, hk.ends⟩, k, hget⟩
    · refine Or.inr ⟨?_, hget⟩
      rintro ⟨e, z, hz, hj⟩
      exact hnone e z hz hj
  have hadj (shape : Shape) : UndirectedGraph.adjacent shape x y g =
      if vx.edges.toList.length < vy.edges.toList.length then .ok (vx.adjacent shape y) g
      else .ok (vy.adjacent shape x) g := by
    rw [UndirectedGraph.adjacent, bind_ok (getVertex_holds h hx), bind_ok (getVertex_holds h hy)]
    split_ifs <;> rfl
  by_cases hsize : vx.edges.toList.length < vy.edges.toList.length
  · simp only [if_pos hsize] at hadj
    rw [UndirectedAgrees, agrees_iff hadj (edge_iff_entry h hl hx) hget, UndirectedInReach, hlistx,
      hlisty]
    simp [hsize]
  · simp only [if_neg hsize] at hadj
    have hedge : (∃ e, LiveEdge g e x y ∨ LiveEdge g e y x) ↔
        ∃ r ∈ vy.edges, r.oppositeVertex = x := by
      rw [← edge_iff_entry h hl hy]
      simp only [or_comm]
    rw [UndirectedAgrees, agrees_iff hadj hedge hget, UndirectedInReach, hlistx, hlisty]
    simp [hsize]

end Undirected

/-- In every state that a run reaches and for all live `x` and `y`, `adjacent`
agrees with the edges exactly when the search is bound to find them. -/
theorem runs_adjacent_iff (VV EV : Type) :
    (∀ os : List (DirectedGraph.Op VV EV), Along DirectedRuns.step DirectedRuns.LiveSource os {} →
      ∀ x y, LiveVertex (run DirectedRuns.step os {}).2 x →
        LiveVertex (run DirectedRuns.step os {}).2 y →
        (DirectedAgrees (run DirectedRuns.step os {}).2 x y ↔
          DirectedInReach (run DirectedRuns.step os {}).2 x y)) ∧
    (∀ os : List (UndirectedGraph.Op VV EV),
      Along UndirectedRuns.step UndirectedRuns.ProperEnds os {} →
      ∀ x y, LiveVertex (run UndirectedRuns.step os {}).2 x →
        LiveVertex (run UndirectedRuns.step os {}).2 y →
        (UndirectedAgrees (run UndirectedRuns.step os {}).2 x y ↔
          UndirectedInReach (run UndirectedRuns.step os {}).2 x y)) := by
  constructor
  · intro os ho x y hx hy
    obtain ⟨vs, es, h, hl⟩ := DirectedRuns.run_sourced os ho
    obtain ⟨vx, hvx⟩ := (liveVertex_iff h).mp hx
    exact directedAgrees_iff h hl hvx
  · intro os ho x y hx hy
    obtain ⟨vs, es, h, hinc⟩ := (UndirectedRuns.run_sound os ho).2
    obtain ⟨vx, hvx⟩ := (liveVertex_iff h).mp hx
    obtain ⟨vy, hvy⟩ := (liveVertex_iff h).mp hy
    exact undirectedAgrees_iff h hinc.toLinked hvx hvy

section Misses

def crossedOps : List (DirectedGraph.Op Nat Nat) :=
  [.addVertex (fun _ => true) 7, .addVertex (fun _ => true) 8, .addVertex (fun _ => true) 9,
    .addEdge (fun _ => true) 0 2 5, .addEdge (fun _ => true) 0 1 6]

def crossedPairs : List (UndirectedGraph.Op Nat Nat) :=
  [.addVertex (fun _ => true) 6, .addVertex (fun _ => true) 7, .addVertex (fun _ => true) 8,
    .addVertex (fun _ => true) 9, .addEdge (fun _ => true) 1 3 5, .addEdge (fun _ => true) 1 0 4,
    .addEdge (fun _ => true) 0 2 3]

theorem crossedOps_live : Along DirectedRuns.step DirectedRuns.LiveSource crossedOps {} :=
  ⟨trivial, trivial, trivial, rfl, rfl, trivial⟩

theorem crossedPairs_proper : Along UndirectedRuns.step UndirectedRuns.ProperEnds crossedPairs {} :=
  ⟨trivial, trivial, trivial, trivial, ⟨by decide, rfl, rfl⟩, ⟨by decide, rfl, rfl⟩,
    ⟨by decide, rfl, rfl⟩, trivial⟩

theorem runs_adjacent_iff_crossed :
    ¬DirectedAgrees (run DirectedRuns.step crossedOps {}).2 0 1 ∧
      ¬UndirectedAgrees (run UndirectedRuns.step crossedPairs {}).2 0 1 := by
  obtain ⟨hdirected, hundirected⟩ := runs_adjacent_iff Nat Nat
  constructor
  · rw [hdirected crossedOps crossedOps_live 0 1 rfl rfl]
    intro h
    obtain ⟨l, hl, hreach⟩ := h ⟨1, rfl⟩
    cases hl
    exact absurd (hreach.first _ rfl) (by decide)
  · rw [hundirected crossedPairs crossedPairs_proper 0 1 rfl rfl]
    intro h
    obtain ⟨l, m, hl, hm, hreach⟩ := h ⟨1, Or.inr rfl⟩
    cases hl
    cases hm
    exact absurd (hreach.first _ rfl) (by decide)

def ascending : Shape where
  tree s := SearchTrees.Tree.ofList s.toList
  inorder s := SearchTrees.Tree.toList_ofList s.toList

/-- `adjacent` denies the edge 1, which `get_edge` returns. -/
theorem adjacent_misses :
    outcome (DirectedGraph.adjacent ascending 0 1) (run DirectedRuns.step crossedOps {}).2 =
        (.ok false, (run DirectedRuns.step crossedOps {}).2) ∧
      LiveEdge (run DirectedRuns.step crossedOps {}).2 1 0 1 ∧
      outcome (DirectedGraph.getEdge 0 1) (run DirectedRuns.step crossedOps {}).2 =
        (.ok 1, (run DirectedRuns.step crossedOps {}).2) ∧
      ¬∀ os : List (DirectedGraph.Op Nat Nat), Along DirectedRuns.step DirectedRuns.Allowed os {} →
        ∀ x y, LiveVertex (run DirectedRuns.step os {}).2 x →
          LiveVertex (run DirectedRuns.step os {}).2 y →
          DirectedAgrees (run DirectedRuns.step os {}).2 x y := by
  have hmiss : outcome (DirectedGraph.adjacent ascending 0 1) (run DirectedRuns.step crossedOps {}).2 =
      (.ok false, (run DirectedRuns.step crossedOps {}).2) := rfl
  refine ⟨hmiss, rfl, rfl, fun h => ?_⟩
  have hagrees := h crossedOps ⟨trivial, trivial, trivial, ⟨rfl, rfl⟩, ⟨rfl, rfl⟩, trivial⟩ 0 1 rfl rfl
  obtain ⟨b, hb, hiff⟩ := hagrees.adjacent ascending
  rw [hmiss] at hb
  cases hb
  exact Bool.false_ne_true (hiff.mpr ⟨1, rfl⟩)

end Misses

end Lzhlib.Adjacency
