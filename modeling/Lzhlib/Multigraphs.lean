import Lzhlib.GraphCalls
import Lzhlib.PoolContents

namespace Lzhlib.Multigraphs

open Machine ValueRepo KeyedSets GraphRecords ObjectPool RepoRefinement GraphCalls

variable {VV EV : Type}

/-- What a graph is for: vertices with their values and edges with theirs and
with their two ends, both under ids. Nothing else is stored; which edges there
are at a vertex follows from the edges. -/
structure Multigraph (VV EV : Type) where
  vertices : Pool VV := Pool.none
  edges : Pool (Edge EV) := Pool.none

/-- Where an edge with the given ends leads from a vertex. -/
def leadsTo : Orientation → Nat × Nat → Nat → Option Nat
  | .undirected, p, v => if v = p.1 then some p.2 else if v = p.2 then some p.1 else none
  | .directed, p, v => if v = p.1 then some p.2 else none

def entryAt (o : Orientation) (p : Pool (Edge EV)) (v e : Nat) : Option EdgeRef :=
  (p.value e).bind fun y => (leadsTo o y.vertices v).map (EdgeRef.mk e)

theorem entryAt_edge {o : Orientation} {p : Pool (Edge EV)} {v e : Nat} {r : EdgeRef}
    (h : r ∈ entryAt o p v e) : r.edge = e := by
  obtain ⟨y, -, hr⟩ := Option.bind_eq_some_iff.mp h
  obtain ⟨w, -, rfl⟩ := Option.map_eq_some_iff.mp hr
  rfl

def incident (o : Orientation) (p : Pool (Edge EV)) (v : Nat) : EdgeSet where
  toList := (List.range p.size).filterMap (entryAt o p v)
  sorted := by
    apply List.Pairwise.filterMap (entryAt o p v) _ List.pairwise_lt_range
    intro i j hij r hr s hs
    rwa [entryAt_edge hr, entryAt_edge hs]

section Incident

variable {o : Orientation} {p : Pool (Edge EV)} {u v e w : Nat} {y : Edge EV} {r : EdgeRef}

theorem mem_incident (hp : p.Full) : r ∈ incident o p v ↔
    ∃ y, p.value r.edge = some y ∧ leadsTo o y.vertices v = some r.oppositeVertex := by
  have hlist : r ∈ incident o p v ↔ ∃ e, e < p.size ∧ entryAt o p v e = some r := by
    rw [← KeyedSet.mem_toList, incident, List.mem_filterMap]
    simp only [List.mem_range]
  rw [hlist]
  constructor
  · rintro ⟨e, -, he⟩
    obtain rfl := entryAt_edge he
    obtain ⟨y, hy, hr⟩ := Option.bind_eq_some_iff.mp he
    obtain ⟨w, hw, hwr⟩ := Option.map_eq_some_iff.mp hr
    exact ⟨y, hy, hwr ▸ hw⟩
  · rintro ⟨y, hy, hr⟩
    refine ⟨r.edge, p.mem_slots.mp (Or.inl (hp.live hy)), ?_⟩
    rw [entryAt, hy, Option.bind_some, hr]
    rfl

theorem find_incident (hp : p.Full) (hy : p.value e = some y) (hv : leadsTo o y.vertices v = some w) :
    (incident o p v).find? e = some ⟨e, w⟩ := by
  have hmem : (⟨e, w⟩ : EdgeRef) ∈ incident o p v := (mem_incident hp).mpr ⟨y, hy, hv⟩
  exact KeyedSet.find?_eq_some hmem

theorem incident_congr {q : Pool (Edge EV)} (hp : p.Full) (hq : q.Full)
    (h : ∀ e w, (∃ y, p.value e = some y ∧ leadsTo o y.vertices v = some w) ↔
      ∃ y, q.value e = some y ∧ leadsTo o y.vertices v = some w) :
    incident o p v = incident o q v := by
  apply KeyedSet.ext_mem
  intro r
  rw [mem_incident hp, mem_incident hq, h]

section NewEdge

variable {fits : Nat → Bool} {q : Pool (Edge EV)} {i : Nat}

theorem fresh_incident (hp : p.Full) (hi : i ∉ p.live) : ∀ r ∈ incident o p v, r.edge ≠ i := by
  rintro r hr rfl
  obtain ⟨z, hz, -⟩ := (mem_incident hp).mp hr
  exact hi (hp.live hz)

theorem mem_incident_new (hp : p.Full) (hq : p.reuse fits = (.ok i, q)) (y : Edge EV) :
    r ∈ incident o (q.setValue i (some y)) v ↔
      (r.edge = i ∧ leadsTo o y.vertices v = some r.oppositeVertex) ∨ r ∈ incident o p v := by
  obtain ⟨-, hi, -, hvalue⟩ := reuse_live hq
  rw [mem_incident (Pool.assign_full hp hq y), Pool.setValue_value, hvalue]
  by_cases hr : r.edge = i
  · have hnot : r ∉ incident o p v := fun hm => fresh_incident hp hi r hm hr
    rw [or_iff_left hnot, hr, Function.update_self]
    simp
  · rw [Function.update_of_ne hr, mem_incident hp]
    simp [hr]

theorem incident_new (hp : p.Full) (hq : p.reuse fits = (.ok i, q))
    (hv : leadsTo o y.vertices v = some w) :
    incident o (q.setValue i (some y)) v = (incident o p v).insert ⟨i, w⟩ := by
  obtain ⟨-, hi, -, -⟩ := reuse_live hq
  apply KeyedSet.ext_mem
  rintro ⟨k, u⟩
  rw [mem_incident_new hp hq, KeyedSet.mem_insert (fresh_incident hp hi), hv]
  simp [eq_comm]

theorem incident_new_elsewhere (hp : p.Full) (hq : p.reuse fits = (.ok i, q))
    (hv : leadsTo o y.vertices v = none) :
    incident o (q.setValue i (some y)) v = incident o p v := by
  apply KeyedSet.ext_mem
  intro r
  rw [mem_incident_new hp hq, hv]
  simp

end NewEdge

theorem incident_setValue (hp : p.Full) (hy : p.value e = some y) (b : EV) :
    incident o (p.setValue e (some { y with value := b })) v = incident o p v := by
  apply incident_congr (Pool.setValue_full hp (hp.live hy) _) hp
  intro k w
  by_cases hk : k = e
  · simp [hk, hy]
  · simp [hk]

theorem incident_discard (hp : p.Full) (e : Nat) :
    incident o (p.discard e) v = (incident o p v).erase e := by
  apply KeyedSet.ext_mem
  intro r
  rw [mem_incident (Pool.discard_full hp e), KeyedSet.mem_erase, mem_incident hp, Pool.discard_value hp]
  by_cases hr : r.edge = e <;> simp [hr]

theorem incident_discards (hp : p.Full) (l : List Nat) :
    incident o (p.discards l) v = (incident o p v).filter fun r => r.edge ∉ l := by
  apply KeyedSet.ext_mem
  intro r
  rw [mem_incident (Pool.discards_full hp l), KeyedSet.mem_filter, mem_incident hp,
    Pool.discards_value hp]
  by_cases hr : r.edge ∈ l <;> simp [hr]

theorem erase_incident (hp : p.Full) (hy : p.value e = some y) (hv : leadsTo o y.vertices v = none) :
    (incident o p v).erase e = incident o p v := by
  apply KeyedSet.ext_mem
  intro r
  rw [KeyedSet.mem_erase, and_iff_left_iff_imp, mem_incident hp]
  rintro ⟨z, hz, hr⟩ rfl
  cases hy.symm.trans hz
  rw [hv] at hr
  cases hr

end Incident

namespace Multigraph

variable {o : Orientation} {m : Multigraph VV EV} {q : Pool VV} {fits : Nat → Bool} {i v e : Nat}

def vertexAt (m : Multigraph VV EV) (v : Nat) : Except Exc VV := (m.vertices.get v).1

def edgeAt (m : Multigraph VV EV) (e : Nat) : Except Exc (Edge EV) := (m.edges.get e).1

def withoutEdge (m : Multigraph VV EV) (e : Nat) : Multigraph VV EV :=
  { m with edges := m.edges.discard e }

def withoutVertex (o : Orientation) (m : Multigraph VV EV) (v : Nat) : Multigraph VV EV where
  vertices := m.vertices.discard v
  edges := m.edges.discards ((incident o m.edges v).toList.map EdgeRef.edge)

def find (o : Orientation) (m : Multigraph VV EV) (x y : Nat) : Except Exc Nat :=
  match (incident o m.edges x).toList.find? fun r => r.oppositeVertex == y with
  | some r => .ok r.edge
  | none => .error .requireEdgeThatDoesNotExist

section Find

variable {x y : Nat}

def Leads (o : Orientation) (m : Multigraph VV EV) (x y e : Nat) : Prop :=
  ∃ z, m.edges.value e = some z ∧ leadsTo o z.vertices x = some y

theorem find_least (hm : m.edges.Full) (x y : Nat) :
    (∃ e, find o m x y = .ok e ∧ Leads o m x y e ∧ ∀ k, Leads o m x y k → e ≤ k) ∨
      (find o m x y = .error .requireEdgeThatDoesNotExist ∧ ∀ k, ¬Leads o m x y k) := by
  have hentry (k : Nat) (hk : Leads o m x y k) : (⟨k, y⟩ : EdgeRef) ∈ incident o m.edges x :=
    (mem_incident hm).mpr hk
  rw [find]
  cases hf : (incident o m.edges x).toList.find? fun r => r.oppositeVertex == y with
  | none =>
      refine Or.inr ⟨rfl, fun k hk => ?_⟩
      exact absurd (List.find?_eq_none.mp hf _ (hentry k hk)) (by simp)
  | some r =>
      have hy : r.oppositeVertex = y := by simpa using List.find?_some hf
      refine Or.inl ⟨r.edge, rfl, hy ▸ (mem_incident hm).mp (List.mem_of_find?_eq_some hf), ?_⟩
      intro k hk
      exact KeyedSet.find?_toList_le hf (hentry k hk) (by simp)

theorem leadsTo_symm {p : Nat × Nat} (h : leadsTo .undirected p x = some y) :
    leadsTo .undirected p y = some x := by
  simp only [leadsTo] at h ⊢
  grind

theorem leadsTo_ne {p : Nat × Nat} (hp : p.1 ≠ p.2) (h : leadsTo .undirected p x = some y) : y ≠ x := by
  simp only [leadsTo] at h
  grind

theorem leadsTo_elsewhere {p : Nat × Nat} {u : Nat} (h : leadsTo .undirected p x = some y) (hx : u ≠ x)
    (hy : u ≠ y) : leadsTo .undirected p u = none := by
  simp only [leadsTo] at h ⊢
  grind

theorem find_symm (hm : m.edges.Full) (x y : Nat) : find .undirected m x y = find .undirected m y x := by
  have hswap (x y k : Nat) (hk : Leads .undirected m x y k) : Leads .undirected m y x k := by
    obtain ⟨z, hz, hleads⟩ := hk
    exact ⟨z, hz, leadsTo_symm hleads⟩
  rcases find_least (o := .undirected) hm x y with ⟨e, he, hleads, hle⟩ | ⟨he, hnone⟩ <;>
    rcases find_least (o := .undirected) hm y x with ⟨k, hk, hleads', hle'⟩ | ⟨hk, hnone'⟩
  · rw [he, hk, le_antisymm (hle k (hswap y x k hleads')) (hle' e (hswap x y e hleads))]
  · exact absurd (hswap x y e hleads) (hnone' e)
  · exact absurd (hswap y x k hleads') (hnone k)
  · rw [he, hk]

end Find

def edgeBetween : Orientation → Multigraph VV EV → Nat → Nat → Except Exc Nat
  | .undirected, m, x, y => do
      let _ ← m.vertexAt x
      let _ ← m.vertexAt y
      find .undirected m x y
  | .directed, m, x, y => do
      let _ ← m.vertexAt x
      find .directed m x y

theorem find_of_edgeBetween {x y : Nat} (h : edgeBetween o m x y = .ok e) : find o m x y = .ok e := by
  cases hx : m.vertexAt x with
  | error ex => cases o <;> simp [edgeBetween, hx, bind, Except.bind] at h
  | ok a =>
      cases hy : m.vertexAt y with
      | error ex =>
          cases o with
          | undirected => simp [edgeBetween, hx, hy, bind, Except.bind] at h
          | directed => simpa [edgeBetween, hx, bind, Except.bind] using h
      | ok b => cases o <;> simpa [edgeBetween, hx, hy, bind, Except.bind] using h

theorem edgeBetween_value (hm : m.edges.Full) {x y : Nat} (h : edgeBetween o m x y = .ok e) :
    ∃ z, m.edges.value e = some z := by
  have hfind := find_of_edgeBetween h
  rcases find_least (o := o) hm x y with ⟨k, hk, ⟨z, hz, -⟩, -⟩ | ⟨hk, -⟩
  · rw [hk] at hfind
    cases hfind
    exact ⟨z, hz⟩
  · rw [hk] at hfind
    cases hfind

def asked {α : Type} (m : Multigraph VV EV) (res : Except Exc α) (f : α → Reply VV EV) :
    Except Exc (Reply VV EV) × Multigraph VV EV :=
  (res.map f, m)

def changed {α : Type} (m : Multigraph VV EV) (res : Except Exc α) (f : α → Multigraph VV EV) :
    Except Exc (Reply VV EV) × Multigraph VV EV :=
  match res with
  | .ok a => (.ok .done, f a)
  | .error e => (.error e, m)

def addVertex (m : Multigraph VV EV) (fits : Nat → Bool) (value : VV) :
    Except Exc Nat × Multigraph VV EV :=
  ((m.vertices.assign (Pool.store id) fits value).1,
    { m with vertices := (m.vertices.assign (Pool.store id) fits value).2 })

def addEdge (m : Multigraph VV EV) (fits : Nat → Bool) (x y : Nat) (value : EV) :
    Except Exc Nat × Multigraph VV EV :=
  ((m.edges.assign (Pool.store fun b => ⟨b, (x, y)⟩) fits value).1,
    { m with edges := (m.edges.assign (Pool.store fun b => ⟨b, (x, y)⟩) fits value).2 })

theorem addVertex_ok (hq : m.vertices.reuse fits = (.ok i, q)) (a : VV) :
    m.addVertex fits a = (.ok i, { m with vertices := q.setValue i (some a) }) := by
  rw [addVertex, Pool.assign_ok hq]
  rfl

theorem addVertex_error {ex : Exc} (hq : m.vertices.reuse fits = (.error ex, q)) (a : VV) :
    m.addVertex fits a = (.error ex, m) := by
  rw [addVertex, Pool.assign_error hq, (Pool.reuse_error hq).1]

theorem addEdge_ok {q : Pool (Edge EV)} (hq : m.edges.reuse fits = (.ok i, q)) (x y : Nat) (b : EV) :
    m.addEdge fits x y b = (.ok i, { m with edges := q.setValue i (some ⟨b, (x, y)⟩) }) := by
  rw [addEdge, Pool.assign_ok hq]
  rfl

theorem addEdge_error {q : Pool (Edge EV)} {ex : Exc} (hq : m.edges.reuse fits = (.error ex, q))
    (x y : Nat) (b : EV) : m.addEdge fits x y b = (.error ex, m) := by
  rw [addEdge, Pool.assign_error hq, (Pool.reuse_error hq).1]

def respond (o : Orientation) :
    Call VV EV → Multigraph VV EV → Except Exc (Reply VV EV) × Multigraph VV EV
  | .addVertex fits value, m => ((m.addVertex fits value).1.map .id, (m.addVertex fits value).2)
  | .addEdge fits x y value, m => ((m.addEdge fits x y value).1.map .id, (m.addEdge fits x y value).2)
  | .removeEdge e, m => m.changed (m.edgeAt e) fun _ => m.withoutEdge e
  | .removeEdgeBetween x y, m => m.changed (edgeBetween o m x y) m.withoutEdge
  | .removeVertex v, m => m.changed (m.vertexAt v) fun _ => withoutVertex o m v
  | .setVertexValue v value, m => m.changed (m.vertexAt v) fun _ =>
      { m with vertices := m.vertices.setValue v (some value) }
  | .setEdgeValue e value, m => m.changed (m.edgeAt e) fun y =>
      { m with edges := m.edges.setValue e (some { y with value := value }) }
  | .vertexValue v, m => m.asked (m.vertexAt v) .vertexValue
  | .edgeValue e, m => m.asked (m.edgeAt e) fun y => .edgeValue y.value
  | .associated v e, m => m.asked (m.vertexAt v) fun _ =>
      .flag ((incident o m.edges v).find? e).isSome
  | .associatedEdges v, m => m.asked (m.vertexAt v) fun _ => .edges (incident o m.edges v).toList
  | .neighbors v, m => m.asked (m.vertexAt v) fun _ =>
      .vertices ((incident o m.edges v).toList.map EdgeRef.oppositeVertex)
  | .associatedVertices e, m => m.asked (m.edgeAt e) fun y => .ends y.vertices
  | .edgeBetween x y, m => m.asked (edgeBetween o m x y) .id
  | .firstVertex, m => m.asked (.ok (m.vertices.live.head?.getD nullIndex)) .id
  | .endVertex, m => m.asked (.ok nullIndex) .id
  | .nextVertex i, m => m.asked (m.vertices.next i) .id
  | .isIdValid i, m => m.asked (.ok (decide (i ∈ m.vertices.live))) .flag

/-- A new edge needs its ends: both of them and not twice the same where the
edge enters two sets, the first of them where it enters one. -/
def Allowed : Orientation → Call VV EV → Multigraph VV EV → Prop
  | .undirected, .addEdge _ x y _, m => x ∈ m.vertices.live ∧ y ∈ m.vertices.live ∧ x ≠ y
  | .directed, .addEdge _ x _ _, m => x ∈ m.vertices.live
  | _, _, _ => True

/-- No value is missing, and an edge leads from no vertex that is not there. -/
structure Sound (o : Orientation) (m : Multigraph VV EV) : Prop where
  vertices : m.vertices.Full
  edges : m.edges.Full
  ends : ∀ e y u w, m.edges.value e = some y → leadsTo o y.vertices u = some w → u ∈ m.vertices.live
  apart : o = .undirected → ∀ e y, m.edges.value e = some y → y.vertices.1 ≠ y.vertices.2

theorem sound_empty : Sound o ({} : Multigraph VV EV) := by
  refine ⟨Pool.full_none, Pool.full_none, ?_, ?_⟩
  · intro e y u w h
    cases h
  · intro _ e y h
    cases h

theorem Sound.incident_dead (h : Sound o m) (hv : v ∉ m.vertices.live) :
    incident o m.edges v = KeyedSet.empty := by
  apply KeyedSet.ext_mem
  intro r
  rw [mem_incident h.edges]
  refine iff_of_false ?_ (KeyedSet.not_mem_empty r)
  rintro ⟨y, hy, hr⟩
  exact hv (h.ends _ y v _ hy hr)

theorem Sound.newVertex (h : Sound o m) (hq : m.vertices.reuse fits = (.ok i, q)) (value : VV) :
    Sound o { m with vertices := q.setValue i (some value) } := by
  obtain ⟨-, -, hlive, -⟩ := reuse_live hq
  refine ⟨Pool.assign_full h.vertices hq value, h.edges, ?_, h.apart⟩
  intro e y u w hy hw
  rw [Pool.setValue_live, hlive]
  exact List.mem_cons_of_mem i (h.ends e y u w hy hw)

theorem Sound.newEdge (h : Sound o m) {q : Pool (Edge EV)} (hq : m.edges.reuse fits = (.ok i, q))
    {y : Edge EV} (hends : ∀ u w, leadsTo o y.vertices u = some w → u ∈ m.vertices.live)
    (hapart : o = .undirected → y.vertices.1 ≠ y.vertices.2) :
    Sound o { m with edges := q.setValue i (some y) } := by
  obtain ⟨-, -, -, hvalue⟩ := reuse_live hq
  refine ⟨h.vertices, Pool.assign_full h.edges hq y, ?_, ?_⟩
  · intro e z u w hz hw
    by_cases he : e = i
    · rw [Pool.setValue_value, he, Function.update_self] at hz
      cases hz
      exact hends u w hw
    · rw [Pool.setValue_value, Function.update_of_ne he, hvalue] at hz
      exact h.ends e z u w hz hw
  · intro ho e z hz
    by_cases he : e = i
    · rw [Pool.setValue_value, he, Function.update_self] at hz
      cases hz
      exact hapart ho
    · rw [Pool.setValue_value, Function.update_of_ne he, hvalue] at hz
      exact h.apart ho e z hz

theorem Sound.setVertexValue (h : Sound o m) (hv : v ∈ m.vertices.live) (a : VV) :
    Sound o { m with vertices := m.vertices.setValue v (some a) } :=
  ⟨Pool.setValue_full h.vertices hv a, h.edges, h.ends, h.apart⟩

theorem Sound.setEdgeValue (h : Sound o m) {y : Edge EV} (hy : m.edges.value e = some y) (b : EV) :
    Sound o { m with edges := m.edges.setValue e (some { y with value := b }) } := by
  have hold (k : Nat) (z : Edge EV)
      (hz : (m.edges.setValue e (some { y with value := b })).value k = some z) :
      ∃ z', m.edges.value k = some z' ∧ z'.vertices = z.vertices := by
    by_cases hk : k = e
    · rw [Pool.setValue_value, hk, Function.update_self] at hz
      cases hz
      exact ⟨y, hk ▸ hy, rfl⟩
    · rw [Pool.setValue_value, Function.update_of_ne hk] at hz
      exact ⟨z, hz, rfl⟩
  refine ⟨h.vertices, Pool.setValue_full h.edges (h.edges.live hy) _, ?_, ?_⟩
  · intro k z u w hz hw
    obtain ⟨z', hz', hends⟩ := hold k z hz
    exact h.ends k z' u w hz' (hends ▸ hw)
  · intro ho k z hz
    obtain ⟨z', hz', hends⟩ := hold k z hz
    exact hends ▸ h.apart ho k z' hz'

theorem Sound.withoutEdges (h : Sound o m) (l : List Nat) :
    Sound o { m with edges := m.edges.discards l } := by
  have hold (e : Nat) (y : Edge EV) (hy : (m.edges.discards l).value e = some y) :
      m.edges.value e = some y := by
    rw [Pool.discards_value h.edges] at hy
    split_ifs at hy
    exact hy
  exact ⟨h.vertices, Pool.discards_full h.edges l, fun e y u w hy => h.ends e y u w (hold e y hy),
    fun ho e y hy => h.apart ho e y (hold e y hy)⟩

theorem Sound.withoutEdge (h : Sound o m) (e : Nat) : Sound o (m.withoutEdge e) := h.withoutEdges [e]

theorem Sound.withoutVertex (h : Sound o m) (v : Nat) : Sound o (withoutVertex o m v) := by
  have hrest := h.withoutEdges ((incident o m.edges v).toList.map EdgeRef.edge)
  refine ⟨Pool.discard_full h.vertices v, hrest.edges, ?_, hrest.apart⟩
  intro e y u w hy hw
  refine Pool.mem_discard.mpr ⟨?_, hrest.ends e y u w hy hw⟩
  -- an edge that leads from `v` is gone
  rintro rfl
  have hmem : (⟨e, w⟩ : EdgeRef) ∈ incident o
      (m.edges.discards ((incident o m.edges u).toList.map EdgeRef.edge)) u :=
    (mem_incident hrest.edges).mpr ⟨y, hy, hw⟩
  rw [incident_discards h.edges, KeyedSet.mem_filter, decide_eq_true_eq] at hmem
  exact hmem.2 (List.mem_map_of_mem hmem.1)

end Multigraph

end Lzhlib.Multigraphs
