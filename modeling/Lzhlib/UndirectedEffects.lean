import Lzhlib.Incidence

namespace Lzhlib.UndirectedEffects

open Programs Machine ValueRepo KeyedSets GraphRecords GraphMaps UndirectedGraph Incidence

variable {VV EV : Type} {g : GraphBase VV EV} {vs vs' : Nat → Option (Vertex VV)}
  {es es' : Nat → Option (Edge EV)} {v e : Nat} {x : Vertex VV} {y : Edge EV}

def LiveEnds : Op VV EV → GraphBase VV EV → Prop
  | .addEdge _ x y _, g => LiveVertex g x ∧ LiveVertex g y
  | _, _ => True

def HasLoop (es : Nat → Option (Edge EV)) (v : Nat) : Prop :=
  ∃ e y, es e = some y ∧ y.vertices = (v, v)

def RemovesLoop (es : Nat → Option (Edge EV)) : Op VV EV → Prop
  | .removeEdge e => ∃ y, es e = some y ∧ y.vertices.1 = y.vertices.2
  | .removeEdgeBetween u w => u = w ∧ HasLoop es u
  | .removeVertex v => HasLoop es v
  | .addVertex _ _ | .addEdge _ _ _ _ => False

inductive Refusal (vs : Nat → Option (Vertex VV)) (es : Nat → Option (Edge EV)) :
    Op VV EV → Exc → Prop
  | vertex {fits value ex} (hex : ex.NoRoom) : Refusal vs es (.addVertex fits value) ex
  | edge {fits a b value ex} (hex : ex.NoRoom) : Refusal vs es (.addEdge fits a b value) ex
  | deadEdge {k ex} (hk : es k = none) (hex : ex.RejectsId k) : Refusal vs es (.removeEdge k) ex
  | deadEnd {a b u ex} (hu : u = a ∨ u = b) (hdead : vs u = none) (hex : ex.RejectsId u) :
      Refusal vs es (.removeEdgeBetween a b) ex
  | noEdge {a b} (hnone : NoneJoins joins es a b) :
      Refusal vs es (.removeEdgeBetween a b) .requireEdgeThatDoesNotExist
  | deadVertex {u ex} (hu : vs u = none) (hex : ex.RejectsId u) : Refusal vs es (.removeVertex u) ex

/-- What an operation answers and makes of the vertices and edges. -/
inductive Effect (vs : Nat → Option (Vertex VV)) (es : Nat → Option (Edge EV)) :
    Op VV EV → Except Exc (Option Nat) → (Nat → Option (Vertex VV)) → (Nat → Option (Edge EV)) → Prop
  | refused {o ex} (hr : Refusal vs es o ex) : Effect vs es o (.error ex) vs es
  | vertex {fits value i} (hi : vs i = none) : Effect vs es (.addVertex fits value) (.ok (some i))
      (Function.update vs i (some { value := value })) es
  | edge {fits a b value i xa xb} (ha : vs a = some xa) (hb : vs b = some xb) (hi : es i = none) :
      Effect vs es (.addEdge fits a b value) (.ok (some i))
        (attachAt b ⟨i, a⟩ (attachAt a ⟨i, b⟩ vs)) (Function.update es i (some ⟨value, (a, b)⟩))
  | removeEdge {k z} (hz : es k = some z) (hloop : z.vertices.1 ≠ z.vertices.2) :
      Effect vs es (.removeEdge k) (.ok none) (prune [k] vs) (drop [k] es)
  | removeBetween {a b k z} (hk : Least joins es a b k z) (hloop : z.vertices.1 ≠ z.vertices.2) :
      Effect vs es (.removeEdgeBetween a b) (.ok none) (prune [k] vs) (drop [k] es)
  | removeVertex {u xu} (hu : vs u = some xu) : Effect vs es (.removeVertex u) (.ok none)
      (Function.update (prune (edgeIds xu) vs) u none) (drop (edgeIds xu) es)

theorem Refusal.ne_undefined {o : Op VV EV} {ex : Exc} (h : Refusal vs es o ex) : ex ≠ .undefined := by
  cases h with
  | vertex hex | edge hex => exact hex.ne_undefined
  | deadEdge _ hex | deadEnd _ _ hex | deadVertex _ hex => exact hex.ne_undefined
  | noEdge => simp

theorem Effect.ne_undefined {o : Op VV EV} {res : Except Exc (Option Nat)}
    (h : Effect vs es o res vs' es') : res ≠ .error .undefined := by
  cases h with
  | refused hr => simpa using hr.ne_undefined
  | vertex | edge | removeEdge | removeBetween | removeVertex => simp

theorem Effect.linked {o : Op VV EV} {res : Except Exc (Option Nat)}
    (h : Effect vs es o res vs' es') (hl : Linked joins vs es) : Linked joins vs' es' := by
  cases h with
  | refused => exact hl
  | vertex hi => exact hl.addVertex hi _
  | edge ha hb hi => exact enter_linked hl ha hb hi _
  | removeEdge | removeBetween => exact hl.prune _
  | removeVertex hu => exact hl.isolate hu

section GetEdge

theorem least_swap {u w k : Nat} {z : Edge EV} (h : Least joins es u w k z) :
    Least joins es w u k z :=
  ⟨h.here, h.ends.symm, fun k' z' hk' hj => h.le k' z' hk' hj.symm⟩

theorem noneJoins_swap {u w : Nat} (h : NoneJoins joins es u w) : NoneJoins joins es w u :=
  fun e y he hj => h e y he hj.symm

theorem getEdge_least (h : Holds g vs es) (hl : Linked joins vs es) {u w : Nat} {xu xw : Vertex VV}
    (hu : vs u = some xu) (hw : vs w = some xw) :
    (∃ k z, UndirectedGraph.getEdge u w g = .ok k g ∧ Least joins es u w k z) ∨
      (UndirectedGraph.getEdge u w g = .error .requireEdgeThatDoesNotExist g ∧
        NoneJoins joins es u w) := by
  rw [UndirectedGraph.getEdge, bind_ok (getVertex_holds h hu), bind_ok (getVertex_holds h hw)]
  split_ifs
  · obtain ⟨k, z, hfind, hk⟩ | ⟨hfind, hnone⟩ := hl.associatedEdge_least hu w
    · exact Or.inl ⟨k, z, by rw [hfind]; rfl, hk⟩
    · exact Or.inr ⟨by rw [hfind]; rfl, hnone⟩
  · obtain ⟨k, z, hfind, hk⟩ | ⟨hfind, hnone⟩ := hl.associatedEdge_least hw u
    · exact Or.inl ⟨k, z, by rw [hfind]; rfl, least_swap hk⟩
    · exact Or.inr ⟨by rw [hfind]; rfl, noneJoins_swap hnone⟩

theorem getEdge_rejects (h : Holds g vs es) {u w : Nat} (hdead : vs u = none ∨ vs w = none) :
    ∃ t ex, (t = u ∨ t = w) ∧ vs t = none ∧ ex.RejectsId t ∧
      UndirectedGraph.getEdge u w g = .error ex g := by
  rw [UndirectedGraph.getEdge]
  cases hu : vs u with
  | none =>
      obtain ⟨ex, hex, hr⟩ := getVertex_rejects h hu
      exact ⟨u, ex, Or.inl rfl, hu, hr, bind_error hex _⟩
  | some xu =>
      have hw : vs w = none := hdead.resolve_left (by simp [hu])
      obtain ⟨ex, hex, hr⟩ := getVertex_rejects h hw
      exact ⟨w, ex, Or.inr rfl, hw, hr, by rw [bind_ok (getVertex_holds h hu), bind_error hex]⟩

end GetEdge

section Loops

theorem loop_iff {p : Nat × Nat} {u w : Nat} (h : joins p u w) : p.1 = p.2 ↔ u = w := by
  obtain rfl | rfl := h
  · exact Iff.rfl
  · exact eq_comm

/-- The second end looks for what the first one has erased. -/
theorem removeEdge_loop (h : Holds g vs es) (hl : Linked joins vs es) (he : es e = some y)
    (hloop : y.vertices.1 = y.vertices.2) : ∃ g', removeEdge e g = .error .undefined g' := by
  obtain ⟨⟨xa, ha⟩, -⟩ := ends_live hl he
  obtain ⟨g1, hg1, h1⟩ := atVertex_holds h ha
    (removeAssociatedEdge_ok (hl.find? ha he (Or.inl rfl)))
  have hmissing : removeAssociatedEdge e (⟨xa.value, xa.edges.erase e⟩ : Vertex VV) =
      .error .undefined ⟨xa.value, xa.edges.erase e⟩ := removeAssociatedEdge_undefined (KeyedSet.find?_erase_self _ _)
  obtain ⟨g2, hg2, -⟩ := atVertex_throws h1 (Function.update_self _ _ _) hmissing
  refine ⟨g2, ?_⟩
  rw [removeEdge, bind_ok (associatedVertices_holds h he)]
  refine (bind_ok hg1 _).trans (bind_error ?_ _)
  rw [← hloop]
  exact hg2

theorem removeIncident_loop (hl : Linked joins vs es) (hv : vs v = some x) {r : EdgeRef}
    (hr : r ∈ x.edges) (hloop : r.oppositeVertex = v) {d : List Nat} (hd : r.edge ∉ d)
    (h : Holds g (pruneOthers v d vs) (drop d es)) :
    ∃ g', removeIncident v r g = .error .undefined g' := by
  obtain ⟨y, hy, -⟩ := (hl.entries v x hv r).mp hr
  have hvself : pruneOthers v d vs v = some x := (pruneOthers_self v d vs).trans hv
  obtain ⟨g1, hg1, h1⟩ := atVertex_holds h hvself
    (removeAssociatedEdge_ok (KeyedSet.find?_eq_some hr))
  obtain ⟨g2, hg2, h2⟩ := removeEdgeObject_holds h1 (e := r.edge) (y := y)
    (by rw [drop, if_neg hd, hy])
  refine ⟨g2, ?_⟩
  rw [removeIncident, hloop, bind_ok hg1, bind_ok hg2, stepPast,
    bind_ok (associated_holds h2 (Function.update_self _ _ _) r.edge)]
  have hgone : (⟨x.value, x.edges.erase r.edge⟩ : Vertex VV).associated r.edge = false := by
    rw [Vertex.associated, KeyedSet.find?_erase_self]
    rfl
  rw [hgone]
  rfl

theorem removeVertex_loop (h : Holds g vs es) (hl : Linked joins vs es) (hloop : HasLoop es v) :
    ∃ g', removeVertex v g = .error .undefined g' := by
  obtain ⟨e, y, he, hy⟩ := hloop
  obtain ⟨x, hv⟩ := hl.live e y v v he (Or.inl hy)
  have hmem : (⟨e, v⟩ : EdgeRef) ∈ x.edges := (hl.entries v x hv _).mpr ⟨y, he, Or.inl hy⟩
  rw [removeVertex, bind_ok (associatedEdges_holds h hv)]
  cases hf : x.edges.toList.find? fun r => r.oppositeVertex == v with
  | none => exact absurd (List.find?_eq_none.mp hf _ hmem) (by simp)
  | some r =>
      -- the loop gets as far as the first entry of a loop
      obtain ⟨hrv, before, after, hsplit, hbefore⟩ := List.find?_eq_some_iff_append.mp hf
      have hkeys := x.edges.nodup_keys
      rw [hsplit, List.map_append, List.map_cons, List.nodup_append] at hkeys
      have hin (t : EdgeRef) (ht : t ∈ before ++ r :: after) : t ∈ x.edges := by
        rwa [← hsplit] at ht
      obtain ⟨g1, hg1, h1⟩ := removeIncidents_holds h hl hv before hkeys.1 fun t ht =>
        ⟨hin t (List.mem_append_left _ ht), by simpa using hbefore t ht⟩
      obtain ⟨g2, hg2⟩ := removeIncident_loop hl hv (hin r (by simp)) (beq_iff_eq.mp hrv)
        (fun hd => hkeys.2.2 _ hd _ List.mem_cons_self rfl) h1
      refine ⟨g2, bind_error ?_ _⟩
      rw [hsplit]
      exact (forEach_append _ before (r :: after) hg1).trans (bind_error hg2 _)

theorem exec_undefined (h : Holds g vs es) (hl : Linked joins vs es) {o : Op VV EV}
    (ho : RemovesLoop es o) : ∃ g', outcome (exec o) g = (.error .undefined, g') := by
  cases o with
  | addVertex | addEdge => exact ho.elim
  | removeEdge e =>
      obtain ⟨y, hy, hloop⟩ := ho
      obtain ⟨g', hrun⟩ := removeEdge_loop h hl hy hloop
      exact ⟨g', outcome_error (bind_error hrun _)⟩
  | removeEdgeBetween u w =>
      obtain ⟨rfl, e, y, hy, hv⟩ := ho
      obtain ⟨xu, hu⟩ := hl.live e y u u hy (Or.inl hv)
      obtain ⟨k, z, hget, hk⟩ | ⟨-, hnone⟩ := getEdge_least h hl hu hu
      · obtain ⟨g', hrun⟩ := removeEdge_loop h hl hk.here ((loop_iff hk.ends).mpr rfl)
        exact ⟨g', outcome_error (bind_error ((bind_ok hget _).trans hrun) _)⟩
      · exact absurd (Or.inl hv) (hnone e y hy)
  | removeVertex v =>
      obtain ⟨g', hrun⟩ := removeVertex_loop h hl ho
      exact ⟨g', outcome_error (bind_error hrun _)⟩

end Loops

section Exec

variable {o : Op VV EV} {u w : Nat}

def Does (vs : Nat → Option (Vertex VV)) (es : Nat → Option (Edge EV)) (o : Op VV EV)
    (g : GraphBase VV EV) : Prop :=
  ∃ res g' vs' es', outcome (exec o) g = (res, g') ∧ Holds g' vs' es' ∧ Effect vs es o res vs' es'

theorem does_ok {a : Option Nat} {g' : GraphBase VV EV} {vs' : Nat → Option (Vertex VV)}
    {es' : Nat → Option (Edge EV)} (hrun : exec o g = .ok a g') (h' : Holds g' vs' es')
    (heffect : Effect vs es o (.ok a) vs' es') : Does vs es o g :=
  ⟨_, g', vs', es', outcome_ok hrun, h', heffect⟩

theorem does_refuse {ex : Exc} {g' : GraphBase VV EV} (hrun : exec o g = .error ex g')
    (h' : Holds g' vs es) (hr : Refusal vs es o ex) : Does vs es o g :=
  ⟨_, g', vs, es, outcome_error hrun, h', .refused hr⟩

theorem removeEdge_does (h : Holds g vs es) (hl : Linked joins vs es)
    (hloop : ¬RemovesLoop es (.removeEdge e : Op VV EV)) : Does vs es (.removeEdge e) g := by
  cases he : es e with
  | none =>
      obtain ⟨ex, hex, hr⟩ := GraphMaps.getEdge_rejects h he
      have hrun : removeEdge e g = .error ex g := bind_error (bind_error hex _) _
      exact does_refuse (bind_error hrun _) h (.deadEdge he hr)
  | some y =>
      have hne : y.vertices.1 ≠ y.vertices.2 := fun hne => hloop ⟨y, he, hne⟩
      obtain ⟨g', hrun, h'⟩ := removeEdge_holds h hl he hne
      exact does_ok (bind_ok hrun _) h' (.removeEdge he hne)

theorem removeEdgeBetween_does (h : Holds g vs es) (hl : Linked joins vs es)
    (hloop : ¬RemovesLoop es (.removeEdgeBetween u w : Op VV EV)) :
    Does vs es (.removeEdgeBetween u w) g := by
  by_cases hdead : vs u = none ∨ vs w = none
  · obtain ⟨t, ex, ht, htdead, hr, hget⟩ := getEdge_rejects h hdead
    exact does_refuse (bind_error (bind_error hget _) _) h (.deadEnd ht htdead hr)
  · rw [not_or, ← ne_eq, ← ne_eq, Option.ne_none_iff_exists', Option.ne_none_iff_exists'] at hdead
    obtain ⟨⟨xu, hu⟩, xw, hw⟩ := hdead
    obtain ⟨k, z, hget, hk⟩ | ⟨hget, hnone⟩ := getEdge_least h hl hu hw
    · have hne : z.vertices.1 ≠ z.vertices.2 := by
        intro hz
        obtain rfl := (loop_iff hk.ends).mp hz
        exact hloop ⟨rfl, k, z, hk.here, hk.ends.elim id id⟩
      obtain ⟨g', hrun, h'⟩ := removeEdge_holds h hl hk.here hne
      exact does_ok (bind_ok ((bind_ok hget _).trans hrun) _) h' (.removeBetween hk hne)
    · exact does_refuse (bind_error (bind_error hget _) _) h (.noEdge hnone)

theorem removeVertex_does (h : Holds g vs es) (hl : Linked joins vs es)
    (hloop : ¬RemovesLoop es (.removeVertex v : Op VV EV)) : Does vs es (.removeVertex v) g := by
  cases hv : vs v with
  | none =>
      obtain ⟨ex, hex, hr⟩ := getVertex_rejects h hv
      have hrun : removeVertex v g = .error ex g := bind_error (bind_error hex _) _
      exact does_refuse (bind_error hrun _) h (.deadVertex hv hr)
  | some x =>
      have hne : ∀ r ∈ x.edges, r.oppositeVertex ≠ v := by
        rintro r hr hrv
        obtain ⟨y, hy, hj⟩ := (hl.entries v x hv r).mp hr
        rw [hrv] at hj
        exact hloop ⟨r.edge, y, hy, hj.elim id id⟩
      obtain ⟨g', hrun, h'⟩ := removeVertex_holds h hl hv hne
      exact does_ok (bind_ok hrun _) h' (.removeVertex hv)

theorem exec_effect (h : Holds g vs es) (hl : Linked joins vs es) (ho : LiveEnds o g)
    (hloop : ¬RemovesLoop es o) : Does vs es o g := by
  cases o with
  | addVertex fits value =>
      obtain ⟨ex, g', hrun, hex, h'⟩ | ⟨i, g', hrun, hi, h'⟩ := addVertex_holds h fits value
      · exact does_refuse (bind_error hrun _) h' (.vertex hex)
      · exact does_ok (bind_ok hrun _) h' (.vertex hi)
  | addEdge fits a b value =>
      obtain ⟨xa, ha⟩ := (liveVertex_iff h).mp ho.1
      obtain ⟨xb, hb⟩ := (liveVertex_iff h).mp ho.2
      obtain ⟨ex, g', hrun, hex, h'⟩ | ⟨i, g', hrun, hi, h'⟩ := addEdge_holds h ha hb fits value
      · exact does_refuse (bind_error hrun _) h' (.edge hex)
      · exact does_ok (bind_ok hrun _) h' (.edge ha hb hi)
  | removeEdge e => exact removeEdge_does h hl hloop
  | removeEdgeBetween u w => exact removeEdgeBetween_does h hl hloop
  | removeVertex v => exact removeVertex_does h hl hloop

end Exec

end Lzhlib.UndirectedEffects
