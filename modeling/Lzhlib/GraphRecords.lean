import Lzhlib.KeyedSets
import Lzhlib.SearchTrees
import Lzhlib.ValueRepo

namespace Lzhlib.GraphRecords

open Programs Machine ValueRepo KeyedSets

variable {VV EV α : Type}

/-- An edge as one of its ends sees it. -/
structure EdgeRef where
  edge : Nat
  oppositeVertex : Nat
  deriving DecidableEq

/-- `std::set<edge_ref, std::less<void>>`, in which the order looks at the edge only. -/
abbrev EdgeSet := KeyedSet EdgeRef.edge

structure Vertex (VV : Type) where
  value : VV
  edges : EdgeSet := KeyedSet.empty

structure Edge (EV : Type) where
  value : EV
  vertices : Nat × Nat := (maxSize, maxSize)

def addAssociatedEdge (i : EdgeRef) : Prog (Vertex VV) PUnit :=
  modify fun x => { x with edges := x.edges.insert i }

/-- Erasing what `find` did not find has no meaning. -/
def removeAssociatedEdge (i : Nat) : Prog (Vertex VV) PUnit := do
  let x ← get
  match x.edges.find? i with
  | some _ => set { x with edges := x.edges.erase i }
  | none => throw .undefined

def Vertex.associated (x : Vertex VV) (e : Nat) : Bool := (x.edges.find? e).isSome

/-- How a set keeps its elements in a search tree, about which the library says no more. -/
structure Shape where
  tree : EdgeSet → SearchTrees.Tree EdgeRef
  inorder : ∀ s, (tree s).toList = s.toList

/-- `edges.find(v)` goes by the opposite vertices, in a tree that is ordered by the edges. -/
def Vertex.adjacent (shape : Shape) (x : Vertex VV) (v : Nat) : Bool :=
  ((shape.tree x.edges).find? (fun r => r.oppositeVertex < v) fun r => v < r.oppositeVertex).isSome

def Vertex.associatedEdge (x : Vertex VV) (y : Nat) : Except Exc Nat :=
  match x.edges.toList.find? fun e => e.oppositeVertex == y with
  | some e => .ok e.edge
  | none => .error .requireEdgeThatDoesNotExist

def setAssociatedVertices (v1 v2 : Nat) : Prog (Edge EV) PUnit :=
  modify fun y => { y with vertices := (v1, v2) }

structure GraphBase (VV EV : Type) where
  vertexRepository : Repo (Vertex VV) := ValueRepo.empty
  edgeRepository : Repo (Edge EV) := ValueRepo.empty

def vertexPart : Part (GraphBase VV EV) (Repo (Vertex VV)) :=
  ⟨GraphBase.vertexRepository, fun r g => { g with vertexRepository := r }⟩

def edgePart : Part (GraphBase VV EV) (Repo (Edge EV)) :=
  ⟨GraphBase.edgeRepository, fun r g => { g with edgeRepository := r }⟩

def vertexType : ValueType VV (Vertex VV) :=
  ⟨fun v => .ok { value := v }, fun v => set { value := v : Vertex VV }⟩

def edgeType : ValueType EV (Edge EV) :=
  ⟨fun v => .ok { value := v }, fun v => set { value := v : Edge EV }⟩

def getVertex (v : Nat) : Prog (GraphBase VV EV) (Vertex VV) := zoom vertexPart (getObject v)

def getEdge (e : Nat) : Prog (GraphBase VV EV) (Edge EV) := zoom edgePart (getObject e)

def atVertex (v : Nat) (p : Prog (Vertex VV) α) : Prog (GraphBase VV EV) α :=
  zoom vertexPart (withObject v p)

def atEdge (e : Nat) (p : Prog (Edge EV) α) : Prog (GraphBase VV EV) α :=
  zoom edgePart (withObject e p)

def associated (v e : Nat) : Prog (GraphBase VV EV) Bool := do
  return (← getVertex v).associated e

def associatedEdges (v : Nat) : Prog (GraphBase VV EV) (List EdgeRef) := do
  return (← getVertex v).edges.toList

def neighbors (v : Nat) : Prog (GraphBase VV EV) (List Nat) := do
  let edges ← associatedEdges v
  return edges.map EdgeRef.oppositeVertex

def addVertex (fits : Nat → Bool) (value : VV) : Prog (GraphBase VV EV) Nat :=
  zoom vertexPart (assignObject vertexType fits value)

def associatedVertices (e : Nat) : Prog (GraphBase VV EV) (Nat × Nat) := do
  return (← getEdge e).vertices

def isIdValid (v : Nat) : Prog (GraphBase VV EV) Bool := zoom vertexPart (isIdUsed v)

def LiveVertex (g : GraphBase VV EV) (v : Nat) : Prop := outcome (isIdValid v) g = (.ok true, g)

def LiveEdge (g : GraphBase VV EV) (e a b : Nat) : Prop :=
  outcome (associatedVertices e) g = (.ok (a, b), g)

def Entry (g : GraphBase VV EV) (v : Nat) (r : EdgeRef) : Prop :=
  ∃ l, outcome (associatedEdges v) g = (.ok l, g) ∧ r ∈ l

end Lzhlib.GraphRecords
