import Lzhlib.ObjectPool
import Lzhlib.RepoRings
import Lzhlib.Runs

namespace Lzhlib.RepoRefinement

open Programs Machine Rings IndexedList ListUpdates ListFamily ValueRepo ObjectPool RepoRings Runs

variable {V Args α : Type}

def slots (p : Pool V) (i : Nat) : DataT V := ⟨p.value i, decide (i ∈ p.live)⟩

/-- The repository holds the ids, the values and the order of the pool. -/
structure Refines (r : Repo V) (p : Pool V) : Prop where
  holds : Holds r p.live p.free (slots p)
  size : r.list.size = p.size
  outside : ∀ i, p.size ≤ i → p.value i = none

def Simulates (c : Prog (Repo V) α) (r : Repo V) (res : Except Exc α × Pool V) : Prop :=
  ∃ t, outcome c r = (res.1, t) ∧ Refines t res.2

theorem Simulates.map {c : Prog (Repo V) α} {r : Repo V} {res : Except Exc α × Pool V} {β : Type}
    (h : Simulates c r res) (f : α → β) :
    Simulates (do return f (← c)) r (Pool.answer f res) := by
  obtain ⟨t, ht, hr⟩ := h
  refine ⟨t, ?_, hr⟩
  rcases res with ⟨a | a, q⟩
  · exact outcome_bind_error ht _
  · exact outcome_bind_ok ht _

section Checks

variable {r : Repo V} {p : Pool V}

theorem checkIndex_ok {i : Nat} (hr : Refines r p) (hi : i < p.size) :
    checkIndex i r = .ok ⟨⟩ r := by
  rw [checkIndex, get_bind_apply, if_neg (by rw [hr.size]; omega)]
  rfl

theorem checkIndex_rejects {i : Nat} (hr : Refines r p) (hi : p.size ≤ i) :
    checkIndex i r = .error (.indexOutOfRange i) r := by
  rw [checkIndex, get_bind_apply, if_pos (by rw [hr.size]; exact hi)]
  rfl

theorem checkUnused_eq {i : Nat} (hr : Refines r p) (hi : i < p.size) :
    checkUnused i r = .ok (decide (i ∉ p.live)) r := by
  rw [checkUnused, bind_ok (subscript_holds hr.holds (hr.size ▸ hi))]
  by_cases h : i ∈ p.live <;> simp [slots, h]

theorem outcome_checked (hr : Refines r p) (i : Nat) (e : Exc) (c : Prog (Repo V) α) :
    outcome (do
      checkIndex i
      if ← checkUnused i then throw e else c) r =
      if p.size ≤ i then (.error (.indexOutOfRange i), r)
      else if i ∈ p.live then outcome c r else (.error e, r) := by
  by_cases hi : p.size ≤ i
  · rw [if_pos hi]
    exact outcome_error (bind_error (checkIndex_rejects hr hi) _)
  · rw [if_neg hi, outcome_bind_ok (outcome_ok (checkIndex_ok hr (by omega))),
      outcome_bind_ok (outcome_ok (checkUnused_eq hr (by omega)))]
    by_cases hlive : i ∈ p.live
    · simp [hlive]
    · simp only [hlive, not_false_eq_true, decide_true, if_true, if_false]
      rfl

theorem demandLive_simulates {i : Nat} {e : Exc} {c : Prog (Repo V) α}
    {k : i ∈ p.live → Except Exc α × Pool V} (hr : Refines r p)
    (hc : ∀ h : i ∈ p.live, Simulates c r (k h)) :
    Simulates (do
      checkIndex i
      if ← checkUnused i then throw e else c) r (p.demandLive i e k) := by
  rw [Simulates, outcome_checked hr, Pool.demandLive]
  split_ifs with hi hlive
  · exact ⟨r, rfl, hr⟩
  · exact hc hlive
  · exact ⟨r, rfl, hr⟩

end Checks

section Mutators

variable {r : Repo V} {p : Pool V}

def takeFree : Prog (Repo V) Nat := do
  let result ← zoom unusedList pop
  setUsed result true
  let _ ← zoom usedList (push result)
  return result

theorem reuseObject_eq (fits : Nat → Bool) :
    (reuseObject fits : Prog (Repo V) Nat) = growWhenFull fits >>= fun _ => takeFree := rfl

theorem takeFree_holds {live free : List Nat} {data : Nat → DataT V} {i : Nat}
    (h : Holds r live (i :: free) data) (hl : i ∉ live) :
    ∃ t, takeFree r = .ok i t ∧ t.list.size = r.list.size ∧
      Holds t (i :: live) free (Function.update data i { data i with used := true }) := by
  have hi : i < r.list.size := h.rings.bound .unused i (by simp [lists])
  have hf : i ∉ free := (List.nodup_cons.mp (h.rings.nodup .unused)).1
  obtain ⟨s, hs, hss, hsh⟩ := unusedList_holds h (pop_denotes h.rings .unused rfl)
  obtain ⟨t, ht, hts, hth⟩ := setUsed_holds hsh (i := i) (by omega) true
  obtain ⟨u, hu, hus, huh⟩ := usedList_holds hth
    (push_denotes hth.rings .used (x := i) (by omega) (not_mem_lists hl hf))
  refine ⟨u, ?_, by omega, huh⟩
  rw [takeFree, bind_ok hs, bind_ok ht, bind_ok hu]
  rfl

theorem slots_take {i : Nat} {rest : List Nat} (h : p.free = i :: rest) :
    Function.update (slots p) i { slots p i with used := true } = slots (p.take i rest h) := by
  funext j
  by_cases hj : j = i <;> simp [slots, Pool.take, hj]

theorem slots_extend (h : p.free = []) (hout : ∀ i, p.size ≤ i → p.value i = none) :
    Function.update (fun i => if i < p.size then slots p i else default) p.size
      { (if p.size < p.size then slots p p.size else default : DataT V) with used := true } =
      slots (p.extend h) := by
  funext j
  by_cases hj : j = p.size
  · subst j
    simp [slots, Pool.extend, hout p.size le_rfl, show (default : DataT V).value = none from rfl]
  · rw [Function.update_of_ne hj]
    by_cases hlt : j < p.size
    · simp [slots, Pool.extend, hlt, hj]
    · have hnot : j ∉ p.live := fun hm => hlt (p.mem_slots.mp (Or.inl hm))
      simp [slots, Pool.extend, hlt, hj, hnot, hout j (by omega),
        show (default : DataT V) = ⟨none, false⟩ from rfl]

theorem Refines.head_null_iff (hr : Refines r p) : r.unusedHead = nullIndex ↔ p.free = [] :=
  hr.holds.rings.head_eq_null (h := .unused)

theorem take_size {i : Nat} {rest : List Nat} (h : p.free = i :: rest) :
    (p.take i rest h).size = p.size := by
  simp only [Pool.size, Pool.take, h, List.length_cons]
  omega

theorem extend_size (h : p.free = []) : (p.extend h).size = p.size + p.size / 2 + 1 := by
  simp only [Pool.size, Pool.extend, h, List.length_cons, List.length_range', List.length_nil]
  omega

theorem reuseObject_simulates (fits : Nat → Bool) (hr : Refines r p) :
    Simulates (reuseObject fits) r (p.reuse fits) := by
  cases hfree : p.free with
  | cons i rest =>
      have hheld := hr.holds
      rw [hfree] at hheld
      obtain ⟨t, ht, hts, hth⟩ := takeFree_holds hheld
        (p.not_live_of_free (by simp [hfree]))
      have hgrow : growWhenFull fits r = .ok ⟨⟩ r := by
        rw [growWhenFull, get_bind_apply, if_neg (by simp [hr.head_null_iff, hfree])]
        rfl
      rw [Pool.reuse_take hfree]
      refine ⟨t, ?_, slots_take hfree ▸ hth, ?_, ?_⟩
      · rw [reuseObject_eq, outcome_bind_ok (outcome_ok hgrow), outcome_ok ht]
      · rw [take_size, hts, hr.size]
      · rw [take_size]
        exact hr.outside
  | nil =>
      have hwhen : growWhenFull fits r = grow fits r := by
        rw [growWhenFull, get_bind_apply, if_pos (hr.head_null_iff.mpr hfree)]
      have hheld := hr.holds
      rw [hfree] at hheld
      rw [Pool.reuse_extend hfree, reuseObject_eq]
      split_ifs with hlarge hfits
      · have hg := grow_rejects (r := r) fits (hr.size ▸ hlarge)
        rw [hr.size] at hg
        exact ⟨r, outcome_bind_error (outcome_error (hwhen.trans hg)) _, hr⟩
      · have hg := grow_fails (r := r) (hr.size ▸ hlarge) (hr.size ▸ hfits)
        exact ⟨r, outcome_bind_error (outcome_error (hwhen.trans hg)) _, hr⟩
      · obtain ⟨s, hs, hss, hsh⟩ := grow_holds fits hheld (hr.size ▸ hlarge)
          (hr.size ▸ hfits)
        rw [hr.size] at hss hsh
        rw [List.range'_succ] at hsh
        obtain ⟨t, ht, hts, hth⟩ := takeFree_holds hsh p.size_not_live
        rw [slots_extend hfree hr.outside] at hth
        refine ⟨t, ?_, hth, ?_, ?_⟩
        · rw [outcome_bind_ok (outcome_ok (hwhen.trans hs)), outcome_ok ht]
        · rw [extend_size, hts, hss]
        · intro i hi
          rw [extend_size] at hi
          exact hr.outside i (by omega)

theorem setObject_simulates (hr : Refines r p) {i : Nat} (hi : i < p.size) (v : Option V) :
    Simulates (setObject i v) r (.ok ⟨⟩, p.setValue i v) := by
  obtain ⟨t, ht, hts, hth⟩ := setObject_holds hr.holds (hr.size ▸ hi) v
  have hslots : Function.update (slots p) i { slots p i with value := v } =
      slots (p.setValue i v) := by
    funext j
    by_cases hj : j = i
    · simp [slots, hj]
    · simp only [Function.update_of_ne hj, slots, Pool.setValue_value]
      rfl
  refine ⟨t, outcome_ok ht, hslots ▸ hth, hts.trans hr.size, fun j hj => ?_⟩
  have hji : j ≠ i := fun he => absurd hj (by rw [he]; exact not_le.mpr hi)
  rw [Pool.setValue_value, Function.update_of_ne hji]
  exact hr.outside j hj

theorem assignObjectImpl_simulates (type : ValueType Args V) (args : Args) (hr : Refines r p)
    {i : Nat} (hi : i < p.size) :
    Simulates (assignObjectImpl type i args) r (p.settle type args i) := by
  have hread := subscript_holds hr.holds (hr.size ▸ hi)
  unfold Pool.settle
  rw [Simulates, assignObjectImpl, outcome_bind_ok (outcome_ok hread)]
  have hvalue : (slots p i).value = p.value i := rfl
  rw [hvalue]
  cases p.value i with
  | none =>
      cases type.construct args with
      | ok new => exact setObject_simulates hr hi (some new)
      | error e => exact ⟨r, rfl, hr⟩
  | some old =>
      cases hassign : type.assign args old with
      | ok _ new =>
          simp only [hassign]
          exact setObject_simulates hr hi (some new)
      | error e new =>
          obtain ⟨t, ht, hrt⟩ := setObject_simulates hr hi (some new)
          simp only [hassign]
          exact ⟨t, (outcome_bind_ok ht _).trans rfl, hrt⟩

theorem reuse_live {fits : Nat → Bool} {i : Nat} {q : Pool V} (h : p.reuse fits = (.ok i, q)) :
    i ∈ q.live ∧ i ∉ p.live ∧ q.live = i :: p.live ∧ q.value = p.value := by
  cases hfree : p.free with
  | cons j rest =>
      rw [Pool.reuse_take hfree] at h
      obtain ⟨hi, hq⟩ := Prod.mk.inj h
      cases hi
      subst q
      exact ⟨by simp [Pool.take], p.not_live_of_free (by simp [hfree]), rfl, rfl⟩
  | nil =>
      rw [Pool.reuse_extend hfree] at h
      split_ifs at h
      · simp at h
      · simp at h
      · obtain ⟨hi, hq⟩ := Prod.mk.inj h
        cases hi
        subst q
        exact ⟨by simp [Pool.extend], p.size_not_live, rfl, rfl⟩

theorem assignObject_simulates (type : ValueType Args V) (fits : Nat → Bool) (args : Args)
    (hr : Refines r p) : Simulates (assignObject type fits args) r
      (p.assign (Pool.settle type) fits args) := by
  obtain ⟨t, ht, hrt⟩ := reuseObject_simulates fits hr
  rcases hp : p.reuse fits with ⟨res, q⟩
  rw [hp] at ht hrt
  cases res with
  | error e =>
      rw [Pool.assign_error hp]
      exact ⟨t, outcome_bind_error ht _, hrt⟩
  | ok i =>
      rw [Pool.assign_ok hp]
      have hi : i < q.size := q.mem_slots.mp (Or.inl (reuse_live hp).1)
      obtain ⟨u, hu, hru⟩ := (assignObjectImpl_simulates type args hrt hi).map (fun _ => i)
      exact ⟨u, (outcome_bind_ok ht _).trans hu, hru⟩

theorem slots_giveBack {i : Nat} (h : i ∈ p.live) :
    Function.update (slots p) i { slots p i with used := false } = slots (p.giveBack i h) := by
  have hn : p.live.Nodup := (List.nodup_append.mp p.nodup).1
  funext j
  by_cases hj : j = i
  · subst j
    simp [slots, Pool.giveBack, hn.mem_erase_iff]
  · simp only [Function.update_of_ne hj, slots, Pool.giveBack, List.mem_erase_of_ne hj]

theorem giveBack_size {i : Nat} (h : i ∈ p.live) : (p.giveBack i h).size = p.size := by
  have hpos := List.length_pos_of_mem h
  simp only [Pool.size, Pool.giveBack, List.length_erase_of_mem h, List.length_cons]
  omega

theorem returnObject_simulates (hr : Refines r p) (i : Nat) :
    Simulates (returnObject i) r (p.release i) := by
  apply demandLive_simulates hr
  intro h
  have hi : i < r.list.size := hr.size ▸ p.mem_slots.mp (Or.inl h)
  have hn := List.nodup_append.mp p.nodup
  obtain ⟨s, hs, hss, hsh⟩ := setUsed_holds hr.holds hi false
  obtain ⟨t, ht, hts, hth⟩ := usedList_holds hsh (remove_denotes hsh.rings .used h)
  obtain ⟨u, hu, hus, huh⟩ := unusedList_holds hth
    (push_denotes hth.rings .unused (x := i) (by omega)
      (not_mem_lists (fun hm => (hn.1.mem_erase_iff.mp hm).1 rfl)
        (fun hf => hn.2.2 i h i hf rfl)))
  refine ⟨u, ?_, slots_giveBack h ▸ huh, ?_, ?_⟩
  · rw [outcome_bind_ok (outcome_ok hs), outcome_bind_ok (outcome_ok ht), outcome_bind_ok (outcome_ok hu)]
    rfl
  · rw [giveBack_size, hus, hts, hss, hr.size]
  · rw [giveBack_size]
    exact hr.outside

theorem removeObject_simulates (hr : Refines r p) (i : Nat) :
    Simulates (removeObject i) r (p.remove i) := by
  apply demandLive_simulates hr
  intro h
  obtain ⟨s, hs, hrs⟩ := setObject_simulates hr (p.mem_slots.mp (Or.inl h)) none
  obtain ⟨t, ht, hrt⟩ := returnObject_simulates (p := p.setValue i none) hrs i
  rw [Pool.release, Pool.demandLive_live (p := p.setValue i none) h] at ht hrt
  exact ⟨t, (outcome_bind_ok hs _).trans ht, hrt⟩

end Mutators

section Queries

variable {r : Repo V} {p : Pool V}

theorem getObject_eq (hr : Refines r p) (i : Nat) : outcome (getObject i) r = ((p.get i).1, r) := by
  rw [getObject, outcome_checked hr, Pool.get, Pool.demandLive]
  split_ifs with hi hlive
  · rfl
  · have hread := subscript_holds hr.holds (hr.size ▸ not_le.mp hi)
    have hvalue : (slots p i).value = p.value i := rfl
    rw [object, outcome_bind_ok (outcome_ok hread), hvalue]
    cases p.value i <;> rfl
  · rfl

theorem getObject_simulates (hr : Refines r p) (i : Nat) :
    Simulates (getObject i) r (p.get i) := by
  refine ⟨r, getObject_eq hr i, ?_⟩
  unfold Pool.get Pool.demandLive
  split_ifs <;> exact hr

theorem isIdUsed_eq (hr : Refines r p) (i : Nat) :
    outcome (isIdUsed i) r = (.ok (decide (i ∈ p.live)), r) := by
  by_cases hi : i < p.size
  · have hsteps : isIdUsed i r = .ok (!decide (i ∉ p.live)) r := by
      rw [isIdUsed, get_bind_apply, if_pos (hr.size ▸ hi), bind_ok (checkUnused_eq hr hi)]
      rfl
    rw [outcome_ok hsteps]
    simp
  · have hnot : i ∉ p.live := fun hm => hi (p.mem_slots.mp (Or.inl hm))
    have hsteps : isIdUsed i r = .ok false r := by
      rw [isIdUsed, get_bind_apply, if_neg (hr.size ▸ hi)]
      rfl
    rw [outcome_ok hsteps]
    simp [hnot]

theorem previous_usedHead (hr : Refines r p) :
    zoom storage (previous r.usedHead) r = .ok (p.live.getLast?.getD nullIndex) r := by
  have hhead : r.usedHead = p.live.head?.getD nullIndex := hr.holds.rings.head .used
  have hrun : previous r.usedHead r.list = .ok (p.live.getLast?.getD nullIndex) r.list := by
    cases hl : p.live with
    | nil =>
        rw [hhead, hl]
        rfl
    | cons c v =>
        have hw := walk_denotes hr.holds.rings .used (i := v.length) (j := 0)
          (by simp [lists, hl]) (by simp [lists, hl]) (by simp [lists, hl])
        simp only [lists, hl, List.getElem_cons_zero] at hw
        rw [hhead, hl, List.getLast?_eq_getElem?]
        simpa using hw.2
  exact zoom_ok storage hrun

theorem mem_ringOf {i : Nat} (hi : i < p.size) : ∃ w, lists p.live p.free w = p.ringOf i ∧
    i ∈ p.ringOf i := by
  unfold Pool.ringOf
  by_cases h : i ∈ p.live
  · exact ⟨.used, by rw [if_pos h]; rfl, by rwa [if_pos h]⟩
  · exact ⟨.unused, by rw [if_neg h]; rfl, by rw [if_neg h]; exact (p.mem_slots.mpr hi).resolve_left h⟩

theorem next_eq (hr : Refines r p) {i : Nat} (hi : i < p.size) :
    zoom storage (next i) r = .ok (Pool.after (p.ringOf i) i) r := by
  obtain ⟨w, hw, hmem⟩ := mem_ringOf hi
  have hidx := List.idxOf_lt_length_of_mem hmem
  have hpos : 0 < (p.ringOf i).length := List.length_pos_of_mem hmem
  have hwalk := walk_denotes hr.holds.rings w (i := (p.ringOf i).idxOf i)
    (j := ((p.ringOf i).idxOf i + 1) % (p.ringOf i).length) (by rw [hw]; exact hidx)
    (by rw [hw]; exact Nat.mod_lt _ hpos) (by rw [hw])
  simp only [hw, List.getElem_idxOf] at hwalk
  have hrun : next i r.list = .ok (Pool.after (p.ringOf i) i) r.list := by
    rw [hwalk.1, Pool.after, List.getElem?_eq_getElem (Nat.mod_lt _ hpos)]
    rfl
  exact zoom_ok storage hrun

theorem previous_eq (hr : Refines r p) {i : Nat} (hi : i < p.size) :
    zoom storage (previous i) r = .ok (Pool.before (p.ringOf i) i) r := by
  obtain ⟨w, hw, hmem⟩ := mem_ringOf hi
  have hidx := List.idxOf_lt_length_of_mem hmem
  have hpos : 0 < (p.ringOf i).length := List.length_pos_of_mem hmem
  have hmod : (((p.ringOf i).idxOf i + ((p.ringOf i).length - 1)) % (p.ringOf i).length + 1) %
      (p.ringOf i).length = (p.ringOf i).idxOf i := by
    rw [Nat.mod_add_mod, show (p.ringOf i).idxOf i + ((p.ringOf i).length - 1) + 1 =
      (p.ringOf i).idxOf i + (p.ringOf i).length by omega, Nat.add_mod_right, Nat.mod_eq_of_lt hidx]
  have hwalk := walk_denotes hr.holds.rings w
    (i := ((p.ringOf i).idxOf i + ((p.ringOf i).length - 1)) % (p.ringOf i).length)
    (j := (p.ringOf i).idxOf i) (by rw [hw]; exact Nat.mod_lt _ hpos)
    (by rw [hw]; exact hidx) (by rw [hw]; exact hmod)
  simp only [hw, List.getElem_idxOf] at hwalk
  have hrun : previous i r.list = .ok (Pool.before (p.ringOf i) i) r.list := by
    rw [hwalk.2, Pool.before, List.getElem?_eq_getElem (Nat.mod_lt _ hpos)]
    rfl
  exact zoom_ok storage hrun

theorem Refines.ne_null (hr : Refines r p) {i : Nat} (hi : i < p.size) : i ≠ nullIndex := by
  have hmax := hr.holds.rings.size
  rw [hr.size] at hmax
  omega

theorem nextId_eq (hr : Refines r p) (i : Nat) : outcome (nextId i) r = (p.next i, r) := by
  unfold Pool.next
  by_cases hi : p.size ≤ i
  · rw [if_pos hi]
    exact outcome_error (bind_error (checkIndex_rejects hr hi) _)
  · have hlt : i < p.size := not_le.mp hi
    have hlast : i = p.live.getLast?.getD nullIndex ↔ p.live.getLast? = some i := by
      cases p.live.getLast? with
      | none => simpa using hr.ne_null hlt
      | some c => simp [eq_comm]
    rw [if_neg hi, nextId, outcome_bind_ok (outcome_ok (checkIndex_ok hr hlt))]
    have hsteps : outcome (do
        let r ← get
        if i = (← zoom storage (previous r.usedHead)) then return nullIndex
        else zoom storage (next i)) r =
        outcome (if i = p.live.getLast?.getD nullIndex then return nullIndex
          else zoom storage (next i)) r := by
      exact outcome_bind_ok (t := r) (outcome_ok (previous_usedHead hr)) _
    rw [hsteps]
    by_cases hl : p.live.getLast? = some i
    · rw [if_pos (hlast.mpr hl), if_pos hl]
      rfl
    · rw [if_neg (fun h => hl (hlast.mp h)), if_neg hl]
      exact outcome_ok (next_eq hr hlt)

theorem prevId_eq (hr : Refines r p) (i : Nat) : outcome (prevId i) r = (p.prev i, r) := by
  unfold Pool.prev
  have hhead : r.usedHead = p.live.head?.getD nullIndex := hr.holds.rings.head .used
  by_cases hnull : i = nullIndex
  · have hsteps : prevId i r = .ok (p.live.getLast?.getD nullIndex) r := by
      rw [prevId, get_bind_apply, if_pos hnull]
      exact previous_usedHead hr
    rw [if_pos hnull, outcome_ok hsteps]
  · rw [if_neg hnull]
    by_cases hi : p.size ≤ i
    · have hsteps : prevId i r = .error (.indexOutOfRange i) r := by
        rw [prevId, get_bind_apply, if_neg hnull]
        exact bind_error (checkIndex_rejects hr hi) _
      rw [if_pos hi, outcome_error hsteps]
    · have hlt : i < p.size := not_le.mp hi
      have hfirst : i = r.usedHead ↔ p.live.head? = some i := by
        rw [hhead]
        cases p.live.head? with
        | none => simpa using hnull
        | some c => simp [eq_comm]
      rw [if_neg hi]
      by_cases hf : p.live.head? = some i
      · have hsteps : prevId i r = .error (.indexOutOfRange i) r := by
          rw [prevId, get_bind_apply, if_neg hnull, bind_ok (checkIndex_ok hr hlt),
            if_pos (hfirst.mpr hf)]
          rfl
        rw [if_pos hf, outcome_error hsteps]
      · have hsteps : prevId i r = .ok (Pool.before (p.ringOf i) i) r := by
          rw [prevId, get_bind_apply, if_neg hnull, bind_ok (checkIndex_ok hr hlt),
            if_neg (fun h => hf (hfirst.mp h))]
          exact previous_eq hr hlt
        rw [if_neg hf, outcome_ok hsteps]

end Queries

end Lzhlib.RepoRefinement
