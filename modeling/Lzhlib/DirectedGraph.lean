import Lzhlib.GraphRecords

namespace Lzhlib.DirectedGraph

open Programs Machine ValueRepo GraphRecords

variable {VV EV : Type}

def adjacent (shape : Shape) (x y : Nat) : Prog (GraphBase VV EV) Bool := do
  return (← getVertex x).adjacent shape y

def removeVertex (v : Nat) : Prog (GraphBase VV EV) PUnit := do
  let edges ← associatedEdges v
  forEach (fun e => zoom edgePart (removeObject e.edge)) edges
  zoom vertexPart (removeObject v)

def addEdge (fits : Nat → Bool) (x y : Nat) (value : EV) : Prog (GraphBase VV EV) Nat := do
  let newEdge ← zoom edgePart (assignObject edgeType fits value)
  atEdge newEdge (setAssociatedVertices x y)
  atVertex x (addAssociatedEdge ⟨newEdge, y⟩)
  return newEdge

/-- `remove_edge(edge_id)`. -/
def removeEdge (e : Nat) : Prog (GraphBase VV EV) PUnit := do
  let vertices ← associatedVertices e
  atVertex vertices.1 (removeAssociatedEdge e)
  zoom edgePart (removeObject e)

def getEdge (x y : Nat) : Prog (GraphBase VV EV) Nat := do
  let vx ← getVertex x
  ofExcept (vx.associatedEdge y)

/-- `remove_edge(vertex_id, vertex_id)`. -/
def removeEdgeBetween (x y : Nat) : Prog (GraphBase VV EV) PUnit := do
  removeEdge (← getEdge x y)

inductive Op (VV EV : Type)
  | addVertex (fits : Nat → Bool) (value : VV)
  | addEdge (fits : Nat → Bool) (x y : Nat) (value : EV)
  | removeEdge (e : Nat)
  | removeEdgeBetween (x y : Nat)
  | removeVertex (v : Nat)

def exec : Op VV EV → Prog (GraphBase VV EV) (Option Nat)
  | .addVertex fits value => do return some (← addVertex fits value)
  | .addEdge fits x y value => do return some (← addEdge fits x y value)
  | .removeEdge e => do
      removeEdge e
      return none
  | .removeEdgeBetween x y => do
      removeEdgeBetween x y
      return none
  | .removeVertex v => do
      removeVertex v
      return none

end Lzhlib.DirectedGraph
