import Lzhlib.GraphRecords
import Lzhlib.TextStreams

namespace Lzhlib.EdgeStreams

open Programs Machine GraphRecords TextStreams

variable {EV : Type}

/-- `std::size_t i; in >> i;` where the use of `i` has no meaning when the stream
leaves it alone. -/
def extractId : Prog InStream Nat := do
  match ← modifyGet (extractUnsigned 64) with
  | some i => return i
  | none => throw .undefined

def insertId (i : Nat) : List Char := insertUnsigned i ++ [' ']

def extractEdgeId : Prog InStream Nat := extractId

def insertEdgeId (id : Nat) : List Char := insertId id

def extractVertexId : Prog InStream Nat := extractId

def insertVertexId (id : Nat) : List Char := insertId id

def extractEdgeRef : Prog InStream EdgeRef := do
  let edge ← extractEdgeId
  let vertex ← extractVertexId
  return ⟨edge, vertex⟩

def insertEdgeRef (r : EdgeRef) : List Char := insertEdgeId r.edge ++ insertVertexId r.oppositeVertex

structure ValueStream (EV : Type) where
  extract : EV → Prog InStream EV
  insert : EV → List Char

def stringStream : ValueStream (List Char) where
  extract old := do return (← modifyGet extractString).getD old
  insert value := value

def extractVertices : Prog InStream (Nat × Nat) := do
  let first ← extractVertexId
  let second ← extractVertexId
  return (first, second)

def extractEdge (values : Option (ValueStream EV)) (edge : Edge EV) : Prog InStream (Edge EV) := do
  let value ← match values with
    | some v => v.extract edge.value
    | none => pure edge.value
  let vertices ← extractVertices
  return { value := value, vertices := vertices }

def insertEdge (values : Option (ValueStream EV)) (edge : Edge EV) : List Char :=
  (match values with
    | some v => v.insert edge.value ++ [' ']
    | none => []) ++ (insertVertexId edge.vertices.1 ++ insertVertexId edge.vertices.2)

theorem extractId_readsBack {i : Nat} (hi : i < 2 ^ 64) : ReadsBack extractId (insertId i) i := by
  intro s rest hs
  rw [insertId, List.append_assoc] at hs
  rw [extractId, modifyGet_bind (extractUnsigned_insert hs hi (by rintro c ⟨⟩; rfl))]
  rfl

theorem extractId_failbit {s t : InStream} {i : Nat} (hs : s.failbit = true) :
    extractId s ≠ .ok i t := by
  rw [extractId, modifyGet_bind (extractUnsigned_failbit 64 hs)]
  rintro ⟨⟩

theorem extractEdgeRef_readsBack {r : EdgeRef} (he : r.edge < 2 ^ 64)
    (hv : r.oppositeVertex < 2 ^ 64) : ReadsBack extractEdgeRef (insertEdgeRef r) r :=
  (extractId_readsBack he).bind ((extractId_readsBack hv).map _)

section Edges

variable {e target : Edge EV}

theorem extractVertices_readsBack (h₁ : e.vertices.1 < 2 ^ 64) (h₂ : e.vertices.2 < 2 ^ 64) :
    ReadsBack extractVertices (insertVertexId e.vertices.1 ++ insertVertexId e.vertices.2)
      e.vertices :=
  (extractId_readsBack h₁).bind ((extractId_readsBack h₂).map _)

theorem extractEdge_readsBack {v : ValueStream EV} (h₁ : e.vertices.1 < 2 ^ 64)
    (h₂ : e.vertices.2 < 2 ^ 64)
    (hvalue : ReadsBack (v.extract target.value) (v.insert e.value ++ [' ']) e.value) :
    ReadsBack (extractEdge (some v) target) (insertEdge (some v) e) e :=
  hvalue.bind ((extractVertices_readsBack h₁ h₂).map _)

theorem extractEdge_readsBack_none (target : Edge Unit) {e : Edge Unit} (h₁ : e.vertices.1 < 2 ^ 64)
    (h₂ : e.vertices.2 < 2 ^ 64) :
    ReadsBack (extractEdge none target) (insertEdge none e) e :=
  (extractVertices_readsBack h₁ h₂).map _

end Edges

theorem stringStream_readsBack {w : List Char} (hw : Word w) (old : List Char) :
    ReadsBack (stringStream.extract old) (stringStream.insert w ++ [' ']) w := by
  intro s rest hs
  rw [List.append_assoc] at hs
  exact modifyGet_bind (extractString_ok hs hw) _

theorem extractEdge_word {e target : Edge (List Char)} {s t : InStream}
    (h : extractEdge (some stringStream) target s = .ok e t) : Word e.value := by
  obtain ⟨value, u, hvalue, h⟩ := ok_of_bind h
  obtain ⟨vertices, u', hvertices, h⟩ := ok_of_bind h
  cases h
  cases hs : extractString s with
  | mk read u₀ =>
      cases (modifyGet_bind hs _).symm.trans hvalue
      cases read with
      | some w => exact extractString_word hs
      | none =>
          obtain ⟨i, u₁, hid, -⟩ := ok_of_bind hvertices
          exact absurd hid (extractId_failbit (extractString_fails hs))

/-- What was written of the edge reads back as it, up to the blank that closes it. -/
def EdgeRestored (e : Edge (List Char)) : Prop :=
  ∀ target rest, extractEdge (some stringStream) target
    { rest := insertEdge (some stringStream) e ++ rest } = .ok e { rest := ' ' :: rest }

def EdgesRestored (es : List (Edge (List Char))) : Prop :=
  ∀ (targets : List (Edge (List Char))) (rest : List Char), targets.length = es.length →
    targets.mapM (extractEdge (some stringStream))
      { rest := es.flatMap (insertEdge (some stringStream)) ++ rest } =
      .ok es { rest := closing es ++ rest }

theorem string_readsBack {e : Edge (List Char)} (h₁ : e.vertices.1 < 2 ^ 64)
    (h₂ : e.vertices.2 < 2 ^ 64) (hw : Word e.value) (target : Edge (List Char)) :
    ReadsBack (extractEdge (some stringStream) target) (insertEdge (some stringStream) e) e :=
  extractEdge_readsBack h₁ h₂ (stringStream_readsBack hw target.value)

/-- Edges come back, alone or one after another, exactly when their values are
words: a blank inside a value ends it, and an empty one is not seen at all. -/
theorem edges_restored_iff {es : List (Edge (List Char))}
    (hids : ∀ e ∈ es, e.vertices.1 < 2 ^ 64 ∧ e.vertices.2 < 2 ^ 64) :
    (∀ e ∈ es, EdgeRestored e ↔ Word e.value) ∧
      (EdgesRestored es ↔ ∀ e ∈ es, Word e.value) := by
  constructor
  · intro e he
    constructor
    · intro h
      exact extractEdge_word (h e [])
    · intro hw target rest
      obtain ⟨h₁, h₂⟩ := hids e he
      exact string_readsBack h₁ h₂ hw target _ rest (reached_start _)
  · constructor
    · intro h
      exact mapM_forall (fun _ _ _ _ => extractEdge_word) (h es [] rfl)
    · intro hw targets rest hlen
      refine ReadsBack.mapM (List.forall₂_iff_zip.mpr ⟨hlen, ?_⟩) rest
      intro target e hmem
      have he : e ∈ es := (List.of_mem_zip hmem).2
      exact string_readsBack (hids e he).1 (hids e he).2 (hw e he) target

theorem edges_restored_iff_two :
    EdgesRestored [⟨['a', 'b'], (0, maxSize)⟩, ⟨['7'], (3, 4)⟩] ∧
      ¬EdgesRestored [⟨['a', 'b'], (0, maxSize)⟩, ⟨[], (3, 4)⟩] := by
  constructor
  · refine (edges_restored_iff ?_).2.mpr ?_
    · simp [maxSize]
    · simp [Word, isSpace]
  · rw [(edges_restored_iff ?_).2]
    · simp [Word]
    · simp [maxSize]

/-- The value is cut at its blank, the first vertex comes from the rest of the
value, and the second vertex is left in the stream. Of a word and its vertices
nothing is left but the closing blank. -/
theorem edge_shifted : ¬EdgeRestored ⟨['x', ' ', '7'], (1, 2)⟩ ∧
    extractEdge (some stringStream) ⟨[], (0, 0)⟩
      { rest := insertEdge (some stringStream) ⟨['x'], (1, 2)⟩ } =
      .ok ⟨['x'], (1, 2)⟩ { rest := [' '] } := by
  constructor
  · intro h
    have ht := h ⟨[], (0, 0)⟩ []
    have hread : extractEdge (some stringStream) ⟨[], (0, 0)⟩
        { rest := insertEdge (some stringStream) ⟨['x', ' ', '7'], (1, 2)⟩ ++ [] } =
        .ok ⟨['x'], (7, 1)⟩ { rest := [' ', '2', ' '] } := rfl
    rw [hread] at ht
    cases ht
  · rfl

inductive Item
  | edgeRef (r : EdgeRef)
  | edge (e : Edge Unit)

namespace Item

def ids : Item → List Nat
  | edgeRef r => [r.edge, r.oppositeVertex]
  | edge e => [e.vertices.1, e.vertices.2]

def insert : Item → List Char
  | edgeRef r => insertEdgeRef r
  | edge e => insertEdge none e

def extract : Item → Prog InStream Item
  | edgeRef _ => do return edgeRef (← extractEdgeRef)
  | edge e => do return edge (← extractEdge none e)

def SameType : Item → Item → Prop
  | edgeRef _, edgeRef _ => True
  | edge _, edge _ => True
  | _, _ => False

theorem extract_readsBack {target item : Item} (h : SameType target item)
    (hids : ∀ i ∈ item.ids, i < 2 ^ 64) : ReadsBack target.extract item.insert item := by
  cases item with
  | edgeRef r =>
      have hr := extractEdgeRef_readsBack (r := r) (hids _ (by simp [ids])) (hids _ (by simp [ids]))
      cases target with
      | edgeRef _ => exact hr.map edgeRef
      | edge _ => cases h
  | edge e =>
      cases target with
      | edgeRef _ => cases h
      | edge e' =>
          have he := extractEdge_readsBack_none e' (e := e) (hids _ (by simp [ids]))
            (hids _ (by simp [ids]))
          exact he.map edge

end Item

/-- Every id is closed by a blank of its own, which is why edge references and
edges without values come back in any number and order. -/
theorem items_restored {items targets : List Item} (hids : ∀ item ∈ items, ∀ i ∈ item.ids, i < 2 ^ 64)
    (htypes : List.Forall₂ Item.SameType targets items) (rest : List Char) :
    ∃ t, targets.mapM Item.extract { rest := items.flatMap Item.insert ++ rest } = .ok items t ∧
      t.good = true ∧ Reached t rest := by
  obtain ⟨hlen, hsame⟩ := List.forall₂_iff_zip.mp htypes
  have hread : List.Forall₂ (fun target item => ReadsBack target.extract item.insert item)
      targets items := by
    refine List.forall₂_iff_zip.mpr ⟨hlen, ?_⟩
    intro target item hmem
    exact Item.extract_readsBack (hsame hmem) (hids item (List.of_mem_zip hmem).2)
  exact ⟨_, ReadsBack.mapM hread rest, (reached_closing items rest).good, reached_closing items rest⟩

theorem items_restored_two :
    ∃ t, [Item.edge ⟨(), (0, 0)⟩, .edgeRef ⟨0, 0⟩].mapM Item.extract
      { rest := Item.insert (.edge ⟨(), (5, maxSize)⟩) ++ Item.insert (.edgeRef ⟨maxSize, 12⟩) } =
      .ok [Item.edge ⟨(), (5, maxSize)⟩, .edgeRef ⟨maxSize, 12⟩] t ∧ t.good = true := by
  have htypes : List.Forall₂ Item.SameType [.edge ⟨(), (0, 0)⟩, .edgeRef ⟨0, 0⟩]
      [.edge ⟨(), (5, maxSize)⟩, .edgeRef ⟨maxSize, 12⟩] := .cons trivial (.cons trivial .nil)
  obtain ⟨t, ht, hgood, -⟩ := items_restored (by simp [Item.ids, maxSize]) htypes []
  simp only [List.flatMap_cons, List.flatMap_nil, List.append_nil] at ht
  exact ⟨t, ht, hgood⟩

end Lzhlib.EdgeStreams
