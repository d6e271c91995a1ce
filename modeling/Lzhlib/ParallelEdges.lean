import Lzhlib.DirectedRuns
import Lzhlib.UndirectedRemovals

namespace Lzhlib.ParallelEdges

open Programs Machine GraphRecords GraphMaps Incidence Dangling Runs
open UndirectedRemovals (drop_some)

variable {VV EV : Type} {g g' : GraphBase VV EV} {vs vs' : Nat → Option (Vertex VV)}
  {es : Nat → Option (Edge EV)} {k u w : Nat} {joins : Nat × Nat → Nat → Nat → Prop}

section Maps

def Simple (joins : Nat × Nat → Nat → Nat → Prop) (es : Nat → Option (Edge EV)) : Prop :=
  ∀ u w e e' y y', es e = some y → es e' = some y' → joins y.vertices u w → joins y'.vertices u w →
    e = e'

theorem simple_none : Simple joins (fun _ => none : Nat → Option (Edge EV)) :=
  fun _ _ _ _ _ _ h => absurd h (by simp)

theorem Simple.drop (h : Simple joins es) (d : List Nat) : Simple joins (drop d es) :=
  fun u w e e' y y' hy hy' => h u w e e' y y' (drop_some.mp hy).1 (drop_some.mp hy').1

theorem Simple.insert {i : Nat} {p : Nat × Nat} (h : Simple joins es) (value : EV)
    (hends : ∀ q u w, joins p u w → joins q u w → joins q p.1 p.2)
    (hnone : NoneJoins joins es p.1 p.2) :
    Simple joins (Function.update es i (some ⟨value, p⟩)) := by
  intro u w e e' y y' hy hy' hj hj'
  by_cases he : e = i <;> by_cases he' : e' = i
  · rw [he, he']
  · rw [he, Function.update_self] at hy
    rw [Function.update_of_ne he'] at hy'
    cases hy
    exact absurd (hends _ u w hj hj') (hnone e' y' hy')
  · rw [he', Function.update_self] at hy'
    rw [Function.update_of_ne he] at hy
    cases hy'
    exact absurd (hends _ u w hj' hj) (hnone e y hy)
  · rw [Function.update_of_ne he] at hy
    rw [Function.update_of_ne he'] at hy'
    exact h u w e e' y y' hy hy' hj hj'

section Found

variable {found : Nat → Prop}

theorem noneJoins_iff (hfound : ∀ e, found e ↔ ∃ y, es e = some y ∧ joins y.vertices u w) :
    (∀ e, ¬found e) ↔ NoneJoins joins es u w := by
  constructor
  · exact fun hn e y hy hj => hn e ((hfound e).mpr ⟨y, hy, hj⟩)
  · intro hn e he
    obtain ⟨y, hy, hj⟩ := (hfound e).mp he
    exact hn e y hy hj

theorem noneJoins_drop_iff (hfound : ∀ e, found e ↔ ∃ y, es e = some y ∧ joins y.vertices u w)
    (hk : found k) : NoneJoins joins (drop [k] es) u w ↔ ∀ e e', found e → found e' → e = e' := by
  constructor
  · intro h e e' he he'
    have honly (e : Nat) (he : found e) : e = k := by
      obtain ⟨y, hy, hj⟩ := (hfound e).mp he
      by_contra hne
      exact h e y (by rw [drop, if_neg (by simpa using hne), hy]) hj
    rw [honly e he, honly e' he']
  · intro h e y hy hj
    obtain ⟨hy, hd⟩ := drop_some.mp hy
    exact hd (List.mem_singleton.mpr (h e k ((hfound e).mpr ⟨y, hy, hj⟩) hk))

end Found

theorem throws_iff {get : Prog (GraphBase VV EV) Nat}
    (hget : (∃ k' z', get g' = .ok k' g' ∧ Least joins (drop [k] es) u w k' z') ∨
      (get g' = .error .requireEdgeThatDoesNotExist g' ∧ NoneJoins joins (drop [k] es) u w)) :
    outcome get g' = (.error .requireEdgeThatDoesNotExist, g') ↔
      NoneJoins joins (drop [k] es) u w := by
  constructor
  · intro h
    obtain ⟨k', z', hok, -⟩ | ⟨-, hnone⟩ := hget
    · rw [outcome_ok hok] at h
      cases h
    · exact hnone
  · intro hnone
    obtain ⟨k', z', -, hk'⟩ | ⟨herr, -⟩ := hget
    · exact absurd hk'.ends (hnone k' z' hk'.here)
    · exact outcome_error herr

end Maps

section Undirected

open UndirectedGraph UndirectedEffects UndirectedRuns UndirectedRemovals

/-- After `remove_edge(x, y)` nothing joins the two, and `get_edge` says so. -/
structure Disconnects (g : GraphBase VV EV) (x y : Nat) : Prop where
  returns : (UndirectedRuns.step (.removeEdgeBetween x y) g).1 = .ok none
  edges : ∀ e, ¬Joins (UndirectedRuns.step (.removeEdgeBetween x y) g).2 e x y
  throws : outcome (UndirectedGraph.getEdge x y) (UndirectedRuns.step (.removeEdgeBetween x y) g).2 =
    (.error .requireEdgeThatDoesNotExist, (UndirectedRuns.step (.removeEdgeBetween x y) g).2)

theorem getEdge_found (h : Holds g vs es) (hinc : Incident vs es)
    (hget : outcome (UndirectedGraph.getEdge u w) g = (.ok k, g)) :
    (∃ x, vs u = some x) ∧ (∃ x, vs w = some x) ∧ ∃ z, Least Incidence.joins es u w k z := by
  have hrun := ok_of_outcome hget
  by_cases hdead : vs u = none ∨ vs w = none
  · obtain ⟨t, ex, -, -, -, herr⟩ := UndirectedEffects.getEdge_rejects h hdead
    cases hrun.symm.trans herr
  · rw [not_or, ← ne_eq, ← ne_eq, Option.ne_none_iff_exists', Option.ne_none_iff_exists'] at hdead
    obtain ⟨⟨xu, hu⟩, xw, hw⟩ := hdead
    obtain ⟨k', z, hok, hk⟩ | ⟨herr, -⟩ := UndirectedEffects.getEdge_least h hinc.toLinked hu hw
    · cases hrun.symm.trans hok
      exact ⟨⟨xu, hu⟩, ⟨xw, hw⟩, z, hk⟩
    · cases hrun.symm.trans herr

theorem disconnects_iff (h : Holds g vs es) (hinc : Incident vs es)
    (hget : outcome (UndirectedGraph.getEdge u w) g = (.ok k, g)) :
    Disconnects g u w ↔ ∀ e e', Joins g e u w → Joins g e' u w → e = e' := by
  obtain ⟨hu, hw, z, hk⟩ := getEdge_found h hinc hget
  obtain ⟨g', hrun, h'⟩ :=
    Incidence.removeEdge_holds h hinc.toLinked hk.here (hinc.loopFree k z hk.here)
  have hbetween : removeEdgeBetween u w g = .ok ⟨⟩ g' := (bind_ok (ok_of_outcome hget) _).trans hrun
  have hstep : UndirectedRuns.step (.removeEdgeBetween u w) g = (.ok none, g') :=
    outcome_ok (bind_ok hbetween _)
  obtain ⟨xu, hu'⟩ := DirectedRuns.prune_live (d := [k]) hu
  obtain ⟨xw, hw'⟩ := DirectedRuns.prune_live (d := [k]) hw
  have hthrows := throws_iff (UndirectedEffects.getEdge_least h' (hinc.prune [k]).toLinked hu' hw')
  have hnone : Disconnects g u w ↔ NoneJoins Incidence.joins (drop [k] es) u w := by
    constructor
    · intro hd
      have hedges := hd.edges
      rw [hstep] at hedges
      exact (noneJoins_iff fun e => joins_iff h').mp hedges
    · intro hn
      constructor <;> rw [hstep]
      · exact (noneJoins_iff fun e => joins_iff h').mpr hn
      · exact hthrows.mpr hn
  exact hnone.trans (noneJoins_drop_iff (fun e => joins_iff h)
    ((joins_iff h).mpr ⟨z, hk.here, hk.ends⟩))

/-- `add_edge` is called for two vertices only when no edge joins them yet. -/
def NotThere : Op VV EV → GraphBase VV EV → Prop
  | .addEdge _ x y _, g => ∀ e, ¬Joins g e x y
  | _, _ => True

theorem joins_ends {p q : Nat × Nat} {u w : Nat} (hp : Incidence.joins p u w)
    (hq : Incidence.joins q u w) : Incidence.joins q p.1 p.2 := by
  obtain rfl | rfl := hp
  · exact hq
  · exact hq.symm

def SimpleGraph (g : GraphBase VV EV) : Prop :=
  ∃ vs es, Holds g vs es ∧ Incident vs es ∧ Simple Incidence.joins es

theorem step_simple (o : Op VV EV) (g : GraphBase VV EV) (hg : SimpleGraph g)
    (ho : ProperEnds o g ∧ NotThere o g) : SimpleGraph (UndirectedRuns.step o g).2 := by
  obtain ⟨vs, es, h, hinc, hs⟩ := hg
  obtain ⟨vs', es', h', heffect, hinc'⟩ := UndirectedRuns.step_effect h hinc ho.1
  refine ⟨vs', es', h', hinc', ?_⟩
  generalize (UndirectedRuns.step o g).1 = res at heffect
  cases heffect with
  | refused | vertex => exact hs
  | edge => exact hs.insert _ (fun _ _ _ => joins_ends) ((noneJoins_iff fun e => joins_iff h).mp ho.2)
  | removeEdge | removeBetween | removeVertex => exact hs.drop _

theorem run_simple (os : List (Op VV EV)) (ho : Along UndirectedRuns.step ProperEnds os {})
    (hnew : Along UndirectedRuns.step NotThere os {}) :
    SimpleGraph (run UndirectedRuns.step os {}).2 := by
  have hstart : SimpleGraph ({} : GraphBase VV EV) :=
    ⟨_, _, holds_empty, ⟨linked_empty, fun _ _ h => absurd h (by simp)⟩, simple_none⟩
  exact (run_invariant SimpleGraph (fun _ => True) (fun o g hg h => ⟨trivial, step_simple o g hg h⟩)
    os {} hstart (ho.and hnew)).2

end Undirected

section Directed

open DirectedGraph DirectedRuns

structure Cuts (g : GraphBase VV EV) (x y : Nat) : Prop where
  returns : (DirectedRuns.step (.removeEdgeBetween x y) g).1 = .ok none
  edges : ∀ e, ¬LiveEdge (DirectedRuns.step (.removeEdgeBetween x y) g).2 e x y
  throws : outcome (DirectedGraph.getEdge x y) (DirectedRuns.step (.removeEdgeBetween x y) g).2 =
    (.error .requireEdgeThatDoesNotExist, (DirectedRuns.step (.removeEdgeBetween x y) g).2)

theorem cuts_iff (h : Holds g vs es) (hl : Linked leads vs es)
    (hget : outcome (DirectedGraph.getEdge u w) g = (.ok k, g)) :
    Cuts g u w ↔ ∀ e e', LiveEdge g e u w → LiveEdge g e' u w → e = e' := by
  have hfind := ok_of_outcome hget
  obtain ⟨xu, hu⟩ : ∃ x, vs u = some x := by
    cases hu : vs u with
    | some x => exact ⟨x, rfl⟩
    | none =>
        obtain ⟨ex, hex, -⟩ := getVertex_rejects h hu
        cases hfind.symm.trans (bind_error hex _)
  obtain ⟨z, hk⟩ : ∃ z, Least leads es u w k z := by
    obtain ⟨k', z, hok, hk⟩ | ⟨herr, -⟩ := DirectedRuns.getEdge_least h hl hu w
    · cases hfind.symm.trans hok
      exact ⟨z, hk⟩
    · cases hfind.symm.trans herr
  obtain ⟨g', hrun, h'⟩ := Dangling.removeEdge_holds h hl hk.here
  have hbetween : removeEdgeBetween u w g = .ok ⟨⟩ g' := (bind_ok hfind _).trans hrun
  have hstep : DirectedRuns.step (.removeEdgeBetween u w) g = (.ok none, g') :=
    outcome_ok (bind_ok hbetween _)
  obtain ⟨xu', hu'⟩ := DirectedRuns.prune_live (d := [k]) ⟨xu, hu⟩
  have hthrows := throws_iff (DirectedRuns.getEdge_least h' (hl.prune [k]) hu' w)
  have hnone : Cuts g u w ↔ NoneJoins leads (drop [k] es) u w := by
    constructor
    · intro hc
      have hedges := hc.edges
      rw [hstep] at hedges
      exact (noneJoins_iff fun e => liveEdge_iff h').mp hedges
    · intro hn
      constructor <;> rw [hstep]
      · exact (noneJoins_iff fun e => liveEdge_iff h').mpr hn
      · exact hthrows.mpr hn
  exact hnone.trans (noneJoins_drop_iff (fun e => liveEdge_iff h)
    ((liveEdge_iff h).mpr ⟨z, hk.here, hk.ends⟩))

def NotYet : Op VV EV → GraphBase VV EV → Prop
  | .addEdge _ x y _, g => ∀ e, ¬LiveEdge g e x y
  | _, _ => True

theorem leads_ends {p q : Nat × Nat} {u w : Nat} (hp : leads p u w) (hq : leads q u w) :
    leads q p.1 p.2 := by
  cases hp
  exact hq

def SimpleDigraph (g : GraphBase VV EV) : Prop :=
  ∃ vs es, Holds g vs es ∧ Linked leads vs es ∧ Simple leads es

theorem step_simpleDigraph (o : Op VV EV) (g : GraphBase VV EV) (hg : SimpleDigraph g)
    (ho : LiveSource o g ∧ NotYet o g) : SimpleDigraph (DirectedRuns.step o g).2 := by
  obtain ⟨vs, es, h, hl, hs⟩ := hg
  by_cases ha : Allowed o g
  · obtain ⟨vs', es', h', heffect⟩ := DirectedRuns.step_effect h hl ha
    refine ⟨vs', es', h', heffect.linked hl, ?_⟩
    generalize (DirectedRuns.step o g).1 = res at heffect
    cases heffect with
    | vertexFails | edgeFails | vertex => exact hs
    | edge => exact hs.insert _ (fun _ _ _ => leads_ends) ((noneJoins_iff fun e => liveEdge_iff h).mp ho.2)
    | removeEdge | removeBetween | removeVertex => exact hs.drop _
  · obtain ⟨fits, a, b, value, rfl⟩ | ⟨ex, hex⟩ := exec_refused h hl ha ho.1
    · obtain h' | ⟨i, xa, hxa, hi, h'⟩ := step_addEdge h ho.1
      · exact ⟨vs, es, h', hl, hs⟩
      · exact ⟨_, _, h', addEdge_linked hl hxa hi value,
          hs.insert _ (fun _ _ _ => leads_ends) ((noneJoins_iff fun e => liveEdge_iff h).mp ho.2)⟩
    · rw [DirectedRuns.step, outcome_error hex]
      exact ⟨vs, es, h, hl, hs⟩

theorem run_simpleDigraph (os : List (Op VV EV)) (ho : Along DirectedRuns.step LiveSource os {})
    (hnew : Along DirectedRuns.step NotYet os {}) : SimpleDigraph (run DirectedRuns.step os {}).2 :=
  (run_invariant SimpleDigraph (fun _ => True)
    (fun o g hg h => ⟨trivial, step_simpleDigraph o g hg h⟩) os {}
    ⟨_, _, holds_empty, linked_empty, simple_none⟩ (ho.and hnew)).2

end Directed

/-- `remove_edge(x, y)` disconnects the two exactly when one edge at most joins
them, which is so all along a run that never adds an edge that is there. -/
theorem removeEdge_disconnects_iff :
    (∀ os : List (UndirectedGraph.Op VV EV),
      Along UndirectedRuns.step UndirectedRuns.ProperEnds os {} →
      ∀ g, g = (run UndirectedRuns.step os {}).2 →
      ∀ x y k, outcome (UndirectedGraph.getEdge x y) g = (.ok k, g) →
        (Disconnects g x y ↔ ∀ e e', UndirectedRemovals.Joins g e x y →
          UndirectedRemovals.Joins g e' x y → e = e') ∧
        (Along UndirectedRuns.step NotThere os {} → Disconnects g x y)) ∧
    ∀ os : List (DirectedGraph.Op VV EV), Along DirectedRuns.step DirectedRuns.LiveSource os {} →
      ∀ g, g = (run DirectedRuns.step os {}).2 →
      ∀ x y k, outcome (DirectedGraph.getEdge x y) g = (.ok k, g) →
        (Cuts g x y ↔ ∀ e e', LiveEdge g e x y → LiveEdge g e' x y → e = e') ∧
        (Along DirectedRuns.step NotYet os {} → Cuts g x y) := by
  constructor
  · rintro os ho g rfl x y k hget
    obtain ⟨vs, es, h, hinc⟩ := (UndirectedRuns.run_sound os ho).2
    refine ⟨disconnects_iff h hinc hget, fun hnew => ?_⟩
    obtain ⟨vs', es', h', hinc', hs⟩ := run_simple os ho hnew
    refine (disconnects_iff h' hinc' hget).mpr fun e e' he he' => ?_
    obtain ⟨z, hz, hj⟩ := (UndirectedRemovals.joins_iff h').mp he
    obtain ⟨z', hz', hj'⟩ := (UndirectedRemovals.joins_iff h').mp he'
    exact hs x y e e' z z' hz hz' hj hj'
  · rintro os ho g rfl x y k hget
    obtain ⟨vs, es, h, hl⟩ := DirectedRuns.run_sourced os ho
    refine ⟨cuts_iff h hl hget, fun hnew => ?_⟩
    obtain ⟨vs', es', h', hl', hs⟩ := run_simpleDigraph os ho hnew
    refine (cuts_iff h' hl' hget).mpr fun e e' he he' => ?_
    obtain ⟨z, hz, hj⟩ := (liveEdge_iff h').mp he
    obtain ⟨z', hz', hj'⟩ := (liveEdge_iff h').mp he'
    exact hs x y e e' z z' hz hz' hj hj'

theorem removeEdge_disconnects_iff_one : Disconnects (run UndirectedRuns.step
    [.addVertex (fun _ => true) 7, .addVertex (fun _ => true) 8,
      .addEdge (fun _ => true) 0 1 5] ({} : GraphBase Nat Nat)).2 1 0 := by
  refine ((removeEdge_disconnects_iff.1 _ ?_ _ rfl 1 0 0 rfl).2 ?_)
  · exact ⟨trivial, trivial, ⟨by decide, rfl, rfl⟩, trivial⟩
  · refine ⟨trivial, trivial, fun e he => ?_, trivial⟩
    obtain he | he := he <;> cases he

/-- Of two parallel edges one stays, and `get_edge` finds it. -/
theorem removeEdge_leaves_parallel :
    (∃ g, g = (run UndirectedRuns.step [.addVertex (fun _ => true) 7, .addVertex (fun _ => true) 8,
        .addEdge (fun _ => true) 0 1 5, .addEdge (fun _ => true) 0 1 6]
        ({} : GraphBase Nat Nat)).2 ∧
      outcome (UndirectedGraph.getEdge 0 1) g = (.ok 0, g) ∧ ¬Disconnects g 0 1) ∧
    ∃ g, g = (run DirectedRuns.step [.addVertex (fun _ => true) 7, .addVertex (fun _ => true) 8,
        .addEdge (fun _ => true) 0 1 5, .addEdge (fun _ => true) 0 1 6]
        ({} : GraphBase Nat Nat)).2 ∧
      outcome (DirectedGraph.getEdge 0 1) g = (.ok 0, g) ∧ ¬Cuts g 0 1 :=
  ⟨⟨_, rfl, rfl, fun h => h.edges 1 (Or.inl rfl)⟩, ⟨_, rfl, rfl, fun h => h.edges 1 rfl⟩⟩

end Lzhlib.ParallelEdges
