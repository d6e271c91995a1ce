import Lzhlib.Dangling

namespace Lzhlib.DirectedRuns

open Programs Machine GraphRecords GraphMaps DirectedGraph Dangling Runs

variable {VV EV : Type} {g : GraphBase VV EV} {vs : Nat → Option (Vertex VV)}
  {es : Nat → Option (Edge EV)} {v e : Nat} {x : Vertex VV} {y : Edge EV}

def step (o : Op VV EV) (g : GraphBase VV EV) : Except Exc (Option Nat) × GraphBase VV EV :=
  outcome (exec o) g

def Allowed : Op VV EV → GraphBase VV EV → Prop
  | .addVertex _ _, _ => True
  | .addEdge _ x y _, g => LiveVertex g x ∧ LiveVertex g y
  | .removeEdge e, g => ∃ a b, LiveEdge g e a b
  | .removeEdgeBetween x y, g => ∃ e, LiveEdge g e x y
  | .removeVertex v, g => LiveVertex g v

/-- A vertex is removed only when no edge of another vertex leads to it. -/
def Unentered : Op VV EV → GraphBase VV EV → Prop
  | .removeVertex v, g => ∀ e a, LiveEdge g e a v → a = v
  | _, _ => True

def NoDangling (g : GraphBase VV EV) : Prop :=
  ∀ e a b, LiveEdge g e a b → LiveVertex g a ∧ LiveVertex g b

/-- No edge starts or ends at the vertex that the next `add_vertex` returns. -/
def FreshIsolated (g : GraphBase VV EV) : Prop :=
  ∀ fits value i g', outcome (addVertex fits value) g = (.ok i, g') →
    ∀ e a b, LiveEdge g' e a b → a ≠ i ∧ b ≠ i

def Represented (g : GraphBase VV EV) : Prop := ∃ vs es, Holds g vs es ∧ Linked leads vs es

theorem represented_empty : Represented ({} : GraphBase VV EV) :=
  ⟨_, _, holds_empty, linked_empty⟩

theorem noDangling_iff (h : Holds g vs es) (hl : Linked leads vs es) :
    NoDangling g ↔ ∀ e y, es e = some y → ∃ x, vs y.vertices.2 = some x := by
  constructor
  · intro hg e y hy
    exact (liveVertex_iff h).mp (hg e _ _ ((liveEdge_iff h).mpr ⟨y, hy, rfl⟩)).2
  · intro hg e a b he
    obtain ⟨y, hy, hv⟩ := (liveEdge_iff h).mp he
    have hb := hg e y hy
    rw [hv] at hb
    exact ⟨(liveVertex_iff h).mpr (hl.live e y a b hy hv), (liveVertex_iff h).mpr hb⟩

theorem NoDangling.freshIsolated (hg : Represented g) (hd : NoDangling g) : FreshIsolated g := by
  obtain ⟨vs, es, h, hl⟩ := hg
  intro fits value i g' hrun e a b he
  obtain ⟨ex, t, ht, -⟩ | ⟨j, t, ht, hj, h'⟩ := addVertex_holds h fits value
  · rw [outcome_error ht] at hrun
    cases hrun
  · rw [outcome_ok ht] at hrun
    cases hrun
    have hold : LiveEdge g e a b := (liveEdge_iff h).mpr ((liveEdge_iff h').mp he)
    obtain ⟨ha, hb⟩ := hd e a b hold
    obtain ⟨xa, hxa⟩ := (liveVertex_iff h).mp ha
    obtain ⟨xb, hxb⟩ := (liveVertex_iff h).mp hb
    constructor
    · rintro rfl
      exact absurd (hj.symm.trans hxa) (by simp)
    · rintro rfl
      exact absurd (hj.symm.trans hxb) (by simp)

theorem prune_live {d : List Nat} {u : Nat} (hu : ∃ x, vs u = some x) :
    ∃ x, prune d vs u = some x := by
  obtain ⟨x, hx⟩ := hu
  exact ⟨_, by rw [prune, hx, Option.map_some]⟩

theorem removeEdge_noDangling {g' : GraphBase VV EV} (h : Holds g vs es) (hl : Linked leads vs es)
    (hd : NoDangling g) (h' : Holds g' (prune [e] vs) (drop [e] es)) : NoDangling g' := by
  apply (noDangling_iff h' (hl.prune [e])).mpr
  intro k y hk
  rw [drop] at hk
  split_ifs at hk
  exact prune_live ((noDangling_iff h hl).mp hd k y hk)

theorem removeVertex_noDangling {g' : GraphBase VV EV} (h : Holds g vs es) (hl : Linked leads vs es)
    (hd : NoDangling g) (hv : vs v = some x)
    (h' : Holds g' (Function.update (prune (edgeIds x) vs) v none) (drop (edgeIds x) es)) :
    NoDangling g' ↔ ∀ e a, LiveEdge g e a v → a = v := by
  rw [noDangling_iff h' (hl.isolate hv)]
  constructor
  · intro hg e a he
    by_contra hav
    obtain ⟨y, hy, hyv⟩ := (liveEdge_iff h).mp he
    have hnot : e ∉ edgeIds x := by
      intro hmem
      obtain ⟨y', w, hy', hj⟩ := (mem_edgeIds hl hv).mp hmem
      cases hy.symm.trans hy'
      exact hav (Prod.mk.inj (hyv.symm.trans hj)).1
    obtain ⟨z, hz⟩ := hg e y (by rw [drop, if_neg hnot, hy])
    rw [hyv, Function.update_self] at hz
    cases hz
  · intro hg e y hy
    rw [drop] at hy
    split_ifs at hy with hmem
    have hne : y.vertices.2 ≠ v := by
      intro hb
      have ha : y.vertices.1 = v := hg e _ ((liveEdge_iff h).mpr ⟨y, hy, by rw [← hb]⟩)
      exact hmem ((mem_edgeIds hl hv).mpr ⟨y, y.vertices.2, hy, by rw [leads, ← ha]⟩)
    rw [Function.update_of_ne hne]
    exact prune_live ((noDangling_iff h hl).mp hd e y hy)

theorem getEdge_least (h : Holds g vs es) (hl : Linked leads vs es) {a : Nat} {xa : Vertex VV}
    (ha : vs a = some xa) (b : Nat) :
    (∃ k z, DirectedGraph.getEdge a b g = .ok k g ∧ Least leads es a b k z) ∨
      (DirectedGraph.getEdge a b g = .error .requireEdgeThatDoesNotExist g ∧
        NoneJoins leads es a b) := by
  rw [DirectedGraph.getEdge, bind_ok (getVertex_holds h ha)]
  obtain ⟨k, z, hfind, hk⟩ | ⟨hfind, hnone⟩ := hl.associatedEdge_least ha b
  · exact Or.inl ⟨k, z, by rw [hfind]; rfl, hk⟩
  · exact Or.inr ⟨by rw [hfind]; rfl, hnone⟩

theorem getEdge_leads (h : Holds g vs es) (hl : Linked leads vs es) {a b : Nat} (he : es e = some y)
    (hy : y.vertices = (a, b)) :
    ∃ k z, DirectedGraph.getEdge a b g = .ok k g ∧ Least leads es a b k z := by
  obtain ⟨xa, ha⟩ := hl.live e y a b he hy
  obtain hfound | ⟨-, hnone⟩ := getEdge_least h hl ha b
  · exact hfound
  · exact absurd hy (hnone e y he)

inductive Effect (vs : Nat → Option (Vertex VV)) (es : Nat → Option (Edge EV)) :
    Op VV EV → Except Exc (Option Nat) → (Nat → Option (Vertex VV)) → (Nat → Option (Edge EV)) → Prop
  | vertexFails {fits value ex} : Effect vs es (.addVertex fits value) (.error ex) vs es
  | vertex {fits value i} (hi : vs i = none) : Effect vs es (.addVertex fits value) (.ok (some i))
      (Function.update vs i (some { value := value })) es
  | edgeFails {fits a b value ex} : Effect vs es (.addEdge fits a b value) (.error ex) vs es
  | edge {fits a b value i xa xb} (ha : vs a = some xa) (hb : vs b = some xb) (hi : es i = none) :
      Effect vs es (.addEdge fits a b value) (.ok (some i))
        (Function.update vs a (some (attach ⟨i, b⟩ xa)))
        (Function.update es i (some ⟨value, (a, b)⟩))
  | removeEdge {k z} (hz : es k = some z) :
      Effect vs es (.removeEdge k) (.ok none) (prune [k] vs) (drop [k] es)
  | removeBetween {a b k z} (hz : es k = some z) (hzv : z.vertices = (a, b))
      (hleast : ∀ k' z', es k' = some z' → z'.vertices = (a, b) → k ≤ k') :
      Effect vs es (.removeEdgeBetween a b) (.ok none) (prune [k] vs) (drop [k] es)
  | removeVertex {u xu} (hu : vs u = some xu) : Effect vs es (.removeVertex u) (.ok none)
      (Function.update (prune (edgeIds xu) vs) u none) (drop (edgeIds xu) es)

theorem Effect.linked {o : Op VV EV} {res : Except Exc (Option Nat)} {vs' : Nat → Option (Vertex VV)}
    {es' : Nat → Option (Edge EV)} (h : Effect vs es o res vs' es') (hl : Linked leads vs es) :
    Linked leads vs' es' := by
  cases h with
  | vertexFails | edgeFails => exact hl
  | vertex hi => exact hl.addVertex hi _
  | edge ha _ hi => exact addEdge_linked hl ha hi _
  | removeEdge | removeBetween => exact hl.prune _
  | removeVertex hv => exact hl.isolate hv

theorem effect_of_outcome {o : Op VV EV} {res : Except Exc (Option Nat)} {g' : GraphBase VV EV}
    {vs' : Nat → Option (Vertex VV)} {es' : Nat → Option (Edge EV)}
    (hrun : outcome (exec o) g = (res, g')) (h' : Holds g' vs' es')
    (heffect : Effect vs es o res vs' es') :
    ∃ vs' es', Holds (step o g).2 vs' es' ∧ Effect vs es o (step o g).1 vs' es' := by
  rw [step, hrun]
  exact ⟨vs', es', h', heffect⟩

theorem step_effect (h : Holds g vs es) (hl : Linked leads vs es) {o : Op VV EV} (ho : Allowed o g) :
    ∃ vs' es', Holds (step o g).2 vs' es' ∧ Effect vs es o (step o g).1 vs' es' := by
  cases o with
  | addVertex fits value =>
      obtain ⟨ex, g', hrun, -, h'⟩ | ⟨i, g', hrun, hi, h'⟩ := addVertex_holds h fits value
      · exact effect_of_outcome (outcome_error (bind_error hrun _)) h' .vertexFails
      · exact effect_of_outcome (outcome_ok (bind_ok hrun _)) h' (.vertex hi)
  | addEdge fits a b value =>
      obtain ⟨xa, ha⟩ := (liveVertex_iff h).mp ho.1
      obtain ⟨xb, hb⟩ := (liveVertex_iff h).mp ho.2
      obtain ⟨ex, g', hrun, h'⟩ | ⟨i, g', hrun, hi, h'⟩ := addEdge_holds h ha b fits value
      · exact effect_of_outcome (outcome_error (bind_error hrun _)) h' .edgeFails
      · exact effect_of_outcome (outcome_ok (bind_ok hrun _)) h' (.edge ha hb hi)
  | removeEdge e =>
      obtain ⟨a, b, he⟩ := ho
      obtain ⟨y, hy, -⟩ := (liveEdge_iff h).mp he
      obtain ⟨g', hrun, h'⟩ := removeEdge_holds h hl hy
      exact effect_of_outcome (outcome_ok (bind_ok hrun _)) h' (.removeEdge hy)
  | removeEdgeBetween a b =>
      obtain ⟨e, he⟩ := ho
      obtain ⟨y, hy, hyv⟩ := (liveEdge_iff h).mp he
      obtain ⟨k, z, hget, hz⟩ := getEdge_leads h hl hy hyv
      obtain ⟨g', hrun, h'⟩ := removeEdge_holds h hl hz.here
      have hbetween : removeEdgeBetween a b g = .ok ⟨⟩ g' := (bind_ok hget _).trans hrun
      exact effect_of_outcome (outcome_ok (bind_ok hbetween _)) h'
        (.removeBetween hz.here hz.ends hz.le)
  | removeVertex v =>
      obtain ⟨x, hx⟩ := (liveVertex_iff h).mp ho
      obtain ⟨g', hrun, h'⟩ := removeVertex_holds h hl hx
      exact effect_of_outcome (outcome_ok (bind_ok hrun _)) h' (.removeVertex hx)

theorem step_represented (o : Op VV EV) (g : GraphBase VV EV) (hg : Represented g) (ho : Allowed o g) :
    Represented (step o g).2 := by
  obtain ⟨vs, es, h, hl⟩ := hg
  obtain ⟨vs', es', h', heffect⟩ := step_effect h hl ho
  exact ⟨vs', es', h', heffect.linked hl⟩

def LiveSource : Op VV EV → GraphBase VV EV → Prop
  | .addEdge _ x _ _, g => LiveVertex g x
  | _, _ => True

theorem exec_refused (h : Holds g vs es) (hl : Linked leads vs es) {o : Op VV EV} (ha : ¬Allowed o g)
    (ho : LiveSource o g) : (∃ fits a b value, o = .addEdge fits a b value) ∨
      ∃ ex, exec o g = .error ex g := by
  cases o with
  | addVertex => exact absurd trivial ha
  | addEdge fits a b value => exact Or.inl ⟨fits, a, b, value, rfl⟩
  | removeEdge e =>
      right
      cases he : es e with
      | none =>
          obtain ⟨ex, hex, -⟩ := GraphMaps.getEdge_rejects h he
          exact ⟨ex, bind_error (bind_error (bind_error hex _) _) _⟩
      | some y => exact absurd ⟨_, _, (liveEdge_iff h).mpr ⟨y, he, rfl⟩⟩ ha
  | removeEdgeBetween a b =>
      right
      cases hva : vs a with
      | none =>
          obtain ⟨ex, hex, -⟩ := getVertex_rejects h hva
          exact ⟨ex, bind_error (bind_error (bind_error hex _) _) _⟩
      | some xa =>
          obtain ⟨k, z, -, hk⟩ | ⟨hget, -⟩ := getEdge_least h hl hva b
          · exact absurd ⟨k, (liveEdge_iff h).mpr ⟨z, hk.here, hk.ends⟩⟩ ha
          · exact ⟨_, bind_error (bind_error hget _) _⟩
  | removeVertex v =>
      right
      cases hv : vs v with
      | none =>
          obtain ⟨ex, hex, -⟩ := getVertex_rejects h hv
          exact ⟨ex, bind_error (bind_error (bind_error hex _) _) _⟩
      | some x => exact absurd ((liveVertex_iff h).mpr ⟨x, hv⟩) ha

theorem step_addEdge (h : Holds g vs es) {fits : Nat → Bool} {a b : Nat} {value : EV}
    (ha : LiveVertex g a) : Holds (step (.addEdge fits a b value) g).2 vs es ∨
      ∃ i xa, vs a = some xa ∧ es i = none ∧ Holds (step (.addEdge fits a b value) g).2
        (Function.update vs a (some (attach ⟨i, b⟩ xa)))
        (Function.update es i (some ⟨value, (a, b)⟩)) := by
  obtain ⟨xa, hxa⟩ := (liveVertex_iff h).mp ha
  obtain ⟨ex, g', hrun, h'⟩ | ⟨i, g', hrun, hi, h'⟩ := addEdge_holds h hxa b fits value
  · have hstep : exec (.addEdge fits a b value) g = .error ex g' := bind_error hrun _
    rw [step, outcome_error hstep]
    exact Or.inl h'
  · have hstep : exec (.addEdge fits a b value) g = .ok (some i) g' := bind_ok hrun _
    rw [step, outcome_ok hstep]
    exact Or.inr ⟨i, xa, hxa, hi, h'⟩

theorem step_sourced (o : Op VV EV) (g : GraphBase VV EV) (hg : Represented g) (ho : LiveSource o g) :
    Represented (step o g).2 := by
  by_cases ha : Allowed o g
  · exact step_represented o g hg ha
  obtain ⟨vs, es, h, hl⟩ := id hg
  obtain ⟨fits, a, b, value, rfl⟩ | ⟨ex, hex⟩ := exec_refused h hl ha ho
  · obtain h' | ⟨i, xa, hxa, hi, h'⟩ := step_addEdge h ho
    · exact ⟨vs, es, h', hl⟩
    · exact ⟨_, _, h', addEdge_linked hl hxa hi value⟩
  · rw [step, outcome_error hex]
    exact hg

theorem run_sourced (os : List (Op VV EV)) (ho : Along step LiveSource os {}) :
    Represented (run step os {}).2 :=
  (run_invariant Represented (fun _ => True) (fun o g hg ha => ⟨trivial, step_sourced o g hg ha⟩) os
    {} represented_empty ho).2

theorem step_noDangling (o : Op VV EV) (g : GraphBase VV EV) (hg : Represented g) (hd : NoDangling g)
    (ho : Allowed o g) : Represented (step o g).2 ∧ (NoDangling (step o g).2 ↔ Unentered o g) := by
  refine ⟨step_represented o g hg ho, ?_⟩
  obtain ⟨vs, es, h, hl⟩ := hg
  obtain ⟨vs', es', h', heffect⟩ := step_effect h hl ho
  have hl' := heffect.linked hl
  have hends := (noDangling_iff h hl).mp hd
  generalize (step o g).1 = res at heffect
  cases heffect with
  | vertexFails | edgeFails => exact iff_true_intro ((noDangling_iff h' hl').mpr hends)
  | @vertex _ _ i hi =>
      refine iff_true_intro ((noDangling_iff h' hl').mpr fun e y hy => ?_)
      obtain ⟨z, hz⟩ := hends e y hy
      by_cases hbi : y.vertices.2 = i
      · exact ⟨_, by rw [hbi, Function.update_self]⟩
      · exact ⟨z, by rw [Function.update_of_ne hbi, hz]⟩
  | @edge _ a b _ i xa xb ha hb hi =>
      have hlive (u : Nat) (hu : ∃ z, vs u = some z) :
          ∃ z, Function.update vs a (some (attach ⟨i, b⟩ xa)) u = some z := by
        by_cases hua : u = a
        · exact ⟨_, by rw [hua, Function.update_self]⟩
        · rwa [Function.update_of_ne hua]
      refine iff_true_intro ((noDangling_iff h' hl').mpr fun e y hy => ?_)
      by_cases hei : e = i
      · rw [hei, Function.update_self] at hy
        cases hy
        exact hlive b ⟨xb, hb⟩
      · rw [Function.update_of_ne hei] at hy
        exact hlive _ (hends e y hy)
  | removeEdge | removeBetween => exact iff_true_intro (removeEdge_noDangling h hl hd h')
  | removeVertex hv => exact removeVertex_noDangling h hl hd hv h'

def WellEnded (g : GraphBase VV EV) : Prop := NoDangling g ∧ FreshIsolated g

theorem wellEnded_empty : WellEnded ({} : GraphBase VV EV) := by
  have hd : NoDangling ({} : GraphBase VV EV) :=
    (noDangling_iff holds_empty linked_empty).mpr fun _ _ h => absurd h (by simp)
  exact ⟨hd, hd.freshIsolated represented_empty⟩

/-- A run meets no dangling edge exactly when it never removes a vertex that
an edge of another vertex still leads to. -/
theorem throughout_wellEnded_iff (os : List (Op VV EV)) (ho : Along step Allowed os {}) :
    Throughout step WellEnded os {} ↔ Along step Unentered os {} := by
  refine throughout_iff_along (I := Represented) (P := WellEnded) ?_ os {} represented_empty
    wellEnded_empty ho
  intro o g hg hw ha
  obtain ⟨hg', hiff⟩ := step_noDangling o g hg hw.1 ha
  refine ⟨hg', ?_⟩
  rw [← hiff]
  exact ⟨fun h => h.1, fun h => ⟨h, h.freshIsolated hg'⟩⟩

def danglingOps : List (Op Nat Nat) :=
  [.addVertex (fun _ => true) 7, .addVertex (fun _ => true) 8, .addEdge (fun _ => true) 0 1 5,
    .removeVertex 1, .addVertex (fun _ => true) 9]

theorem danglingOps_allowed : Along step Allowed danglingOps {} :=
  ⟨trivial, trivial, ⟨rfl, rfl⟩, rfl, trivial, trivial⟩

theorem danglingOps_dangles : ¬Throughout step WellEnded danglingOps {} := by
  intro h
  have hlive := (h.2.2.2.2.1.1 0 0 1 rfl).2
  have hfst := congrArg Prod.fst hlive
  exact absurd hfst (by decide)

theorem throughout_wellEnded_iff_dangling : ¬Along step Unentered danglingOps {} := by
  intro h
  exact danglingOps_dangles ((throughout_wellEnded_iff danglingOps danglingOps_allowed).mpr h)

/-- After the run the old edge leads to the new vertex. -/
theorem removeVertex_dangles :
    outcome (neighbors 0) (run step danglingOps {}).2 = (.ok [1], (run step danglingOps {}).2) ∧
      (run step danglingOps {}).1 = [.ok (some 0), .ok (some 1), .ok (some 0), .ok none, .ok (some 1)] ∧
      ¬∀ os : List (Op Nat Nat), Along step Allowed os {} → Throughout step WellEnded os {} :=
  ⟨rfl, rfl, fun h => danglingOps_dangles (h danglingOps danglingOps_allowed)⟩

end Lzhlib.DirectedRuns
