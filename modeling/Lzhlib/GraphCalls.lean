import Lzhlib.DirectedGraph
import Lzhlib.UndirectedGraph

namespace Lzhlib.GraphCalls

open Programs Machine ValueRepo GraphRecords

variable {VV EV : Type}

inductive Orientation
  | undirected
  | directed

def vertexValue (v : Nat) : Prog (GraphBase VV EV) VV := do
  return (← getVertex v).value

def setVertexValue (v : Nat) (a : VV) : Prog (GraphBase VV EV) PUnit :=
  atVertex v (modify fun x => { x with value := a })

def edgeValue (e : Nat) : Prog (GraphBase VV EV) EV := do
  return (← getEdge e).value

def setEdgeValue (e : Nat) (b : EV) : Prog (GraphBase VV EV) PUnit :=
  atEdge e (modify fun y => { y with value := b })

def firstVertex : Prog (GraphBase VV EV) Nat := zoom vertexPart firstId

def endVertex : Prog (GraphBase VV EV) Nat := zoom vertexPart endId

def nextVertex (id : Nat) : Prog (GraphBase VV EV) Nat := zoom vertexPart (nextId id)

def addEdge : Orientation → (Nat → Bool) → Nat → Nat → EV → Prog (GraphBase VV EV) Nat
  | .undirected => UndirectedGraph.addEdge
  | .directed => DirectedGraph.addEdge

def removeEdge : Orientation → Nat → Prog (GraphBase VV EV) PUnit
  | .undirected => UndirectedGraph.removeEdge
  | .directed => DirectedGraph.removeEdge

def removeEdgeBetween : Orientation → Nat → Nat → Prog (GraphBase VV EV) PUnit
  | .undirected => UndirectedGraph.removeEdgeBetween
  | .directed => DirectedGraph.removeEdgeBetween

def removeVertex : Orientation → Nat → Prog (GraphBase VV EV) PUnit
  | .undirected => UndirectedGraph.removeVertex
  | .directed => DirectedGraph.removeVertex

def edgeBetween : Orientation → Nat → Nat → Prog (GraphBase VV EV) Nat
  | .undirected => UndirectedGraph.getEdge
  | .directed => DirectedGraph.getEdge

/-- The calls that change a graph and, after them, the questions about it. -/
inductive Call (VV EV : Type)
  | addVertex (fits : Nat → Bool) (value : VV)
  | addEdge (fits : Nat → Bool) (x y : Nat) (value : EV)
  | removeEdge (e : Nat)
  | removeEdgeBetween (x y : Nat)
  | removeVertex (v : Nat)
  | setVertexValue (v : Nat) (value : VV)
  | setEdgeValue (e : Nat) (value : EV)
  | vertexValue (v : Nat)
  | edgeValue (e : Nat)
  | associated (v e : Nat)
  | associatedEdges (v : Nat)
  | neighbors (v : Nat)
  | associatedVertices (e : Nat)
  | edgeBetween (x y : Nat)
  | firstVertex
  | endVertex
  | nextVertex (id : Nat)
  | isIdValid (id : Nat)

inductive Reply (VV EV : Type)
  | done
  | id (i : Nat)
  | flag (b : Bool)
  | vertexValue (a : VV)
  | edgeValue (b : EV)
  | edges (l : List EdgeRef)
  | vertices (l : List Nat)
  | ends (p : Nat × Nat)
  deriving DecidableEq

def exec (o : Orientation) : Call VV EV → Prog (GraphBase VV EV) (Reply VV EV)
  | .addVertex fits value => do return .id (← addVertex fits value)
  | .addEdge fits x y value => do return .id (← addEdge o fits x y value)
  | .removeEdge e => do
      removeEdge o e
      return .done
  | .removeEdgeBetween x y => do
      removeEdgeBetween o x y
      return .done
  | .removeVertex v => do
      removeVertex o v
      return .done
  | .setVertexValue v value => do
      setVertexValue v value
      return .done
  | .setEdgeValue e value => do
      setEdgeValue e value
      return .done
  | .vertexValue v => do return .vertexValue (← vertexValue v)
  | .edgeValue e => do return .edgeValue (← edgeValue e)
  | .associated v e => do return .flag (← associated v e)
  | .associatedEdges v => do return .edges (← associatedEdges v)
  | .neighbors v => do return .vertices (← neighbors v)
  | .associatedVertices e => do return .ends (← associatedVertices e)
  | .edgeBetween x y => do return .id (← edgeBetween o x y)
  | .firstVertex => do return .id (← firstVertex)
  | .endVertex => do return .id (← endVertex)
  | .nextVertex i => do return .id (← nextVertex i)
  | .isIdValid i => do return .flag (← isIdValid i)

def step (o : Orientation) (c : Call VV EV) (g : GraphBase VV EV) :
    Except Exc (Reply VV EV) × GraphBase VV EV :=
  outcome (exec o c) g

end Lzhlib.GraphCalls
