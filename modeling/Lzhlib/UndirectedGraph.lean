import Lzhlib.GraphRecords

namespace Lzhlib.UndirectedGraph

open Programs Machine ValueRepo GraphRecords

variable {VV EV : Type}

def adjacent (shape : Shape) (x y : Nat) : Prog (GraphBase VV EV) Bool := do
  let vx ← getVertex x
  let vy ← getVertex y
  if vx.edges.toList.length < vy.edges.toList.length then return vx.adjacent shape y
  else return vy.adjacent shape x

/-- Stepping an iterator past an element that has been erased has no meaning. -/
def stepPast (v e : Nat) : Prog (GraphBase VV EV) PUnit := do
  if ← associated v e then pure ⟨⟩ else throw .undefined

def removeVertex (v : Nat) : Prog (GraphBase VV EV) PUnit := do
  let edges ← associatedEdges v
  forEach (fun e => do
    atVertex e.oppositeVertex (removeAssociatedEdge e.edge)
    zoom edgePart (removeObject e.edge)
    stepPast v e.edge) edges
  zoom vertexPart (removeObject v)

def addEdge (fits : Nat → Bool) (x y : Nat) (value : EV) : Prog (GraphBase VV EV) Nat := do
  let newEdge ← zoom edgePart (assignObject edgeType fits value)
  atEdge newEdge (setAssociatedVertices x y)
  atVertex x (addAssociatedEdge ⟨newEdge, y⟩)
  atVertex y (addAssociatedEdge ⟨newEdge, x⟩)
  return newEdge

def removeEdge (e : Nat) : Prog (GraphBase VV EV) PUnit := do
  let vertices ← associatedVertices e
  atVertex vertices.1 (removeAssociatedEdge e)
  atVertex vertices.2 (removeAssociatedEdge e)
  zoom edgePart (removeObject e)

/-- The edge is looked up at the vertex with fewer edges. -/
def getEdge (x y : Nat) : Prog (GraphBase VV EV) Nat := do
  let vx ← getVertex x
  let vy ← getVertex y
  if vx.edges.toList.length < vy.edges.toList.length then ofExcept (vx.associatedEdge y)
  else ofExcept (vy.associatedEdge x)

def removeEdgeBetween (x y : Nat) : Prog (GraphBase VV EV) PUnit := do
  removeEdge (← getEdge x y)

inductive Op (VV EV : Type)
  | addVertex (fits : Nat → Bool) (value : VV)
  | addEdge (fits : Nat → Bool) (x y : Nat) (value : EV)
  | removeEdge (e : Nat)
  | removeEdgeBetween (x y : Nat)
  | removeVertex (v : Nat)

def exec : Op VV EV → Prog (GraphBase VV EV) (Option Nat)
  | .addVertex fits value => do return some (← addVertex fits value)
  | .addEdge fits x y value => do return some (← addEdge fits x y value)
  | .removeEdge e => do
      removeEdge e
      return none
  | .removeEdgeBetween x y => do
      removeEdgeBetween x y
      return none
  | .removeVertex v => do
      removeVertex v
      return none

end Lzhlib.UndirectedGraph
