import Mathlib.Combinatorics.Enumerative.DoubleCounting
import Lzhlib.GraphSimulation

namespace Lzhlib.DegreeSums

open Programs Machine KeyedSets GraphRecords ObjectPool GraphCalls Multigraphs Multigraph
  GraphRefinement GraphSimulation Runs

variable {VV EV : Type} {o : Orientation} {g : GraphBase VV EV} {m : Multigraph VV EV} {v e : Nat}
  {y : Edge EV}

/-- In how many sets an edge stands. -/
def entries : Orientation → Nat
  | .undirected => 2
  | .directed => 1

def Stands (o : Orientation) (m : Multigraph VV EV) (v e : Nat) : Prop := (entryAt o m.edges v e).isSome

instance (o : Orientation) (m : Multigraph VV EV) (v e : Nat) : Decidable (Stands o m v e) :=
  inferInstanceAs (Decidable (_ = true))

theorem stands_iff (hy : m.edges.value e = some y) :
    Stands o m v e ↔ ∃ w, leadsTo o y.vertices v = some w := by
  rw [Stands, entryAt, hy, Option.bind_some, Option.isSome_map, Option.isSome_iff_exists]

theorem nodup_live {V : Type} (p : Pool V) : p.live.Nodup := (List.nodup_append.mp p.nodup).1

theorem length_incident (h : m.edges.Full) (v : Nat) : (incident o m.edges v).toList.length =
    (m.edges.live.toFinset.bipartiteAbove (Stands o m) v).card := by
  rw [← List.length_map EdgeRef.edge, ← List.toFinset_card_of_nodup (incident o m.edges v).nodup_keys]
  congr 1
  ext e
  rw [List.mem_toFinset, Finset.mem_bipartiteAbove, List.mem_toFinset, List.mem_map]
  constructor
  · rintro ⟨r, hr, rfl⟩
    obtain ⟨y, hy, hw⟩ := (mem_incident h).mp hr
    exact ⟨h.live hy, (stands_iff hy).mpr ⟨_, hw⟩⟩
  · rintro ⟨he, hstands⟩
    obtain ⟨y, hy⟩ := (h e).mp he
    obtain ⟨w, hw⟩ := (stands_iff hy).mp hstands
    exact ⟨⟨e, w⟩, (mem_incident h).mpr ⟨y, hy, hw⟩, rfl⟩

theorem card_standing (h : Sound o m) (he : e ∈ m.edges.live) :
    (m.vertices.live.toFinset.bipartiteBelow (Stands o m) e).card = entries o := by
  obtain ⟨y, hy⟩ := (h.edges e).mp he
  have hmem (v : Nat) : v ∈ m.vertices.live.toFinset.bipartiteBelow (Stands o m) e ↔
      ∃ w, leadsTo o y.vertices v = some w := by
    rw [Finset.mem_bipartiteBelow, stands_iff hy, and_iff_right_iff_imp]
    rintro ⟨w, hw⟩
    exact List.mem_toFinset.mpr (h.ends e y v w hy hw)
  cases o with
  | undirected =>
      rw [entries, ← Finset.card_pair (h.apart rfl e y hy)]
      congr 1
      ext v
      rw [hmem, Finset.mem_insert, Finset.mem_singleton]
      simp only [leadsTo]
      split_ifs <;> simp_all
  | directed =>
      rw [entries, ← Finset.card_singleton y.vertices.1]
      congr 1
      ext v
      rw [hmem, Finset.mem_singleton]
      simp only [leadsTo]
      split_ifs <;> simp_all

theorem sum_degrees (h : Sound o m) :
    (m.vertices.live.map fun v => (incident o m.edges v).toList.length).sum =
      entries o * m.edges.live.length := by
  calc (m.vertices.live.map fun v => (incident o m.edges v).toList.length).sum
    _ = ∑ v ∈ m.vertices.live.toFinset, (incident o m.edges v).toList.length :=
        (List.sum_toFinset _ (nodup_live m.vertices)).symm
    _ = ∑ v ∈ m.vertices.live.toFinset, (m.edges.live.toFinset.bipartiteAbove (Stands o m) v).card :=
        Finset.sum_congr rfl fun v _ => length_incident h.edges v
    _ = ∑ e ∈ m.edges.live.toFinset, (m.vertices.live.toFinset.bipartiteBelow (Stands o m) e).card :=
        Finset.sum_card_bipartiteAbove_eq_sum_card_bipartiteBelow _
    _ = m.edges.live.toFinset.card * entries o :=
        Finset.sum_const_nat fun e he => card_standing h (List.mem_toFinset.mp he)
    _ = entries o * m.edges.live.length := by
        rw [List.toFinset_card_of_nodup (nodup_live m.edges), Nat.mul_comm]

theorem liveVertex_mem (h : Represents o g m) (v : Nat) : LiveVertex g v ↔ v ∈ m.vertices.live := by
  rw [LiveVertex, outcome_isIdValid h]
  simp

theorem liveEdge_mem (h : Represents o g m) (e : Nat) :
    (∃ a b, LiveEdge g e a b) ↔ e ∈ m.edges.live := by
  have hread : outcome (associatedVertices e) g = _ := outcome_edge h e Edge.vertices
  simp only [LiveEdge, hread]
  constructor
  · rintro ⟨a, b, he⟩
    cases hget : m.edgeAt e with
    | error ex =>
        rw [hget] at he
        cases he
    | ok y => exact h.sound.edges.live (Pool.value_of_get h.sound.edges hget)
  · intro he
    obtain ⟨y, hy⟩ := (h.sound.edges e).mp he
    refine ⟨y.vertices.1, y.vertices.2, ?_⟩
    rw [edgeAt, Pool.get_live h.sound.edges hy]
    rfl

/-- In every graph a run reaches, the neighbours of all vertices are as many as
the edges have ends that are entered: two of an edge that joins, one of an edge
that leads. -/
theorem run_degrees (o : Orientation) (cs : List (Call VV EV))
    (hcs : Along (respond o) (Allowed o) cs {}) :
    ∃ vs es : List Nat, vs.Nodup ∧ (∀ v, v ∈ vs ↔ LiveVertex (run (step o) cs {}).2 v) ∧
      es.Nodup ∧ (∀ e, e ∈ es ↔ ∃ a b, LiveEdge (run (step o) cs {}).2 e a b) ∧
      ∃ degree : Nat → Nat, (vs.map degree).sum = entries o * es.length ∧
        ∀ v ∈ vs, ∃ l, outcome (neighbors v) (run (step o) cs {}).2 = (.ok l, (run (step o) cs {}).2) ∧
          l.length = degree v := by
  have h := (run_simulation (Allowed o) (Represents o) step_follows cs {} {} represents_empty hcs).2
  generalize (run (step o) cs {}).2 = g at h
  generalize (run (respond o) cs {}).2 = m at h
  refine ⟨m.vertices.live, m.edges.live, nodup_live _, fun v => (liveVertex_mem h v).symm,
    nodup_live _, fun e => (liveEdge_mem h e).symm, fun v => (incident o m.edges v).toList.length,
    sum_degrees h.sound, fun v hv => ?_⟩
  obtain ⟨a, ha⟩ := (h.sound.vertices v).mp hv
  refine ⟨(incident o m.edges v).toList.map EdgeRef.oppositeVertex, ?_, List.length_map _⟩
  rw [outcome_neighbors h, vertexAt, Pool.get_live h.sound.vertices ha]
  rfl

theorem run_degrees_recycling :
    ∃ vs es : List Nat, vs.Nodup ∧
      (∀ v, v ∈ vs ↔ LiveVertex (run (step .undirected) recyclingCalls {}).2 v) ∧ es.Nodup ∧
      (∀ e, e ∈ es ↔ ∃ a b, LiveEdge (run (step .undirected) recyclingCalls {}).2 e a b) ∧
      ∃ degree : Nat → Nat, (vs.map degree).sum = 2 * es.length ∧
        ∀ v ∈ vs, ∃ l, outcome (neighbors v) (run (step .undirected) recyclingCalls {}).2 =
          (.ok l, (run (step .undirected) recyclingCalls {}).2) ∧ l.length = degree v :=
  run_degrees .undirected recyclingCalls recyclingCalls_allowed

end Lzhlib.DegreeSums
