import Lzhlib.ListRuns

namespace Lzhlib.ListInterface

open Programs Machine Rings IndexedList ListUpdates FormList ListFamily ListRuns Runs

variable {H V : Type}

inductive Call (H V : Type)
  | push (h : H) (index : Nat)
  | pop (h : H)
  | insert (h : H) (next inserted : Nat)
  | remove (h : H) (removed : Nat)
  | formList (h : H) (begin stop : Nat)
  | resize (fits : Nat → Bool) (newSize : Nat)
  | clear
  | write (index : Nat) (value : V)
  | read (index : Nat)
  | checkedAt (index : Nat)
  | size

inductive Reply (V : Type)
  | done
  | index (i : Nat)
  | value (v : V)
  deriving DecidableEq

/-- What the storage and the heads stand for: the values by index, and a list for each head. -/
structure Family (H V : Type) where
  values : List V
  list : H → List Nat

def Family.Unlinked (a : Family H V) (i : Nat) : Prop := i < a.values.length ∧ ∀ h, i ∉ a.list h

def BadRange (size begin stop : Nat) : Prop := stop ≤ begin ∨ begin = nullIndex ∨ size < stop

instance (size begin stop : Nat) : Decidable (BadRange size begin stop) :=
  inferInstanceAs (Decidable (_ ∨ _ ∨ _))

def Allowed : Call H V → Family H V → Prop
  | .push _ i, a => a.Unlinked i
  | .pop h, a => a.list h ≠ []
  | .insert h next i, a => a.Unlinked i ∧ (next ∈ a.list h ∨ next = nullIndex)
  | .remove h i, a => i ∈ a.list h
  | .formList h b e, a => BadRange a.values.length b e ∨
      a.list h = [] ∧ ∀ i, b ≤ i → i < e → a.Unlinked i
  -- a node that is cut off must not be in a list
  | .resize _ n, a => n ≤ maxSize ∧ ∀ h, ∀ i ∈ a.list h, i < n
  | .write i _, a | .read i, a => i < a.values.length
  | .clear, _ | .checkedAt _, _ | .size, _ => True

variable [DecidableEq H]

def change [Inhabited V] (o : Op H) : Prog (Store H V) (Reply V) := do
  return (← ListRuns.exec o).elim .done .index

def exec [Inhabited V] : Call H V → Prog (Store H V) (Reply V)
  | .push h i => change (.push h i)
  | .pop h => change (.pop h)
  | .insert h next i => change (.insert h next i)
  | .remove h i => change (.remove h i)
  | .formList h b e => change (.formList h b e)
  | .resize fits n => change (.resize fits n)
  | .clear => do
      zoom storage clear
      -- the heads are the callers', who have to forget them
      modify fun s => { s with heads := fun _ => nullIndex }
      return .done
  | .write i v => do
      zoom storage (setValue i v)
      return .done
  | .read i => do return .value (← zoom storage (subscript i))
  | .checkedAt i => do return .value (← zoom storage (checkedAt i))
  | .size => do return .index (← get).list.size

def Family.set (a : Family H V) (h : H) (l : List Nat) : Family H V :=
  { a with list := Function.update a.list h l }

def spec [Inhabited V] : Call H V → Family H V → Except Exc (Reply V) × Family H V
  | .push h i, a => (.ok (.index i), a.set h (i :: a.list h))
  | .pop h, a => (.ok (.index ((a.list h).head?.getD nullIndex)), a.set h (a.list h).tail)
  | .insert h next i, a => (.ok (.index i), a.set h (placeBefore next i (a.list h)))
  | .remove h i, a => (.ok .done, a.set h ((a.list h).erase i))
  | .formList h b e, a =>
      if BadRange a.values.length b e then (.error .formListArgument, a)
      else (.ok (.index b), a.set h (List.range' b (e - b)))
  | .resize fits n, a =>
      if a.values.length < n ∧ fits n = false then (.error .badAlloc, a)
      else (.ok .done, { a with
        values := a.values.take n ++ List.replicate (n - a.values.length) default })
  | .clear, a => (.ok .done, { a with list := fun _ => [] })
  | .write i v, a => (.ok .done, { a with values := a.values.set i v })
  | .read i, a => ((a.values[i]?).elim (.error .undefined) fun v => .ok (.value v), a)
  | .checkedAt i, a =>
      ((a.values[i]?).elim (.error (.atOutOfRange i a.values.length)) fun v => .ok (.value v), a)
  | .size, a => (.ok (.index a.values.length), a)

structure Represents (s : Store H V) (a : Family H V) : Prop where
  values : values s.list = a.values
  lists : Denotes s.list s.heads a.list

section Storage

variable {s t : Storage V} {heads : H → Nat} {lists : H → List Nat}

omit [DecidableEq H] in
theorem denotes_congr (hd : Denotes s heads lists) (hl : links t = links s)
    (hbound : ∀ h, ∀ i ∈ lists h, i < t.size) (hsize : t.size ≤ nullIndex) :
    Denotes t heads lists :=
  ⟨hl ▸ hd.ring, hd.head, hd.nodup, hd.disjoint, hbound, hl ▸ hd.unlinked, hsize⟩

omit [DecidableEq H] in
theorem elim_resize [Inhabited V] (f : Node V → Nat) (hf : f { value := default } = nullIndex)
    {l : List (Node V)} {n : Nat} (hcut : ∀ i, n ≤ i → (l[i]?).elim nullIndex f = nullIndex) (i : Nat) :
    ((l.take n ++ List.replicate (n - l.length) { value := default })[i]?).elim nullIndex f =
      (l[i]?).elim nullIndex f := by
  rw [elim_append_default f hf]
  by_cases hi : i < n
  · rw [List.getElem?_take_of_lt hi]
  · have hnone : (l.take n)[i]? = none := List.getElem?_eq_none (by simp; omega)
    rw [hcut i (Nat.le_of_not_lt hi), hnone]
    rfl

omit [DecidableEq H] in
/-- A node that is cut off was unlinked, and a node that is not there counts as such. -/
theorem links_resize [Inhabited V] (hd : Denotes s heads lists) {n : Nat}
    (hn : ∀ h, ∀ i ∈ lists h, i < n) :
    links (⟨s.data.take n ++ List.replicate (n - s.size) { value := default }⟩ : Storage V) =
      links s := by
  have hcut (i : Nat) (hi : n ≤ i) := hd.unlinked i fun h hm => Nat.not_lt.mpr hi (hn h i hm)
  simp only [links, Links.mk.injEq]
  constructor
  · exact funext (elim_resize Node.next rfl fun i hi => (hcut i hi).1)
  · exact funext (elim_resize Node.prev rfl fun i hi => (hcut i hi).2)

theorem elim_modify (f : Node V → Nat) (g : Node V → Node V) (hg : ∀ n, f (g n) = f n)
    (l : List (Node V)) (i j : Nat) :
    ((l.modify i g)[j]?).elim nullIndex f = (l[j]?).elim nullIndex f := by
  rw [List.getElem?_modify]
  cases l[j]? with
  | none => rfl
  | some n =>
      by_cases hj : i = j
      · simp [hj, hg]
      · simp [hj]

theorem links_setValue (s : Storage V) (i : Nat) (v : V) :
    links ⟨s.data.modify i ({ · with value := v })⟩ = links s := by
  simp only [links, Links.mk.injEq]
  constructor
  · exact funext (elim_modify Node.next ({ · with value := v }) (fun _ => rfl) s.data i)
  · exact funext (elim_modify Node.prev ({ · with value := v }) (fun _ => rfl) s.data i)

theorem values_setValue (s : Storage V) (i : Nat) (v : V) :
    values ⟨s.data.modify i ({ · with value := v })⟩ = (values s).set i v := by
  apply List.ext_getElem?
  intro j
  by_cases hj : i = j
  · subst hj
    by_cases hi : i < s.data.length <;> simp [values, hi]
  · simp [values, hj]

omit [DecidableEq H] in
theorem clear_denotes (hsize : s.size ≤ nullIndex) : ∃ t, clear s = .ok ⟨⟩ t ∧
    values t = values s ∧ Denotes t (fun _ : H => nullIndex) (fun _ => []) := by
  refine ⟨_, rfl, by simp [values], fun _ => isRing_nil _, fun _ => rfl, fun _ => List.nodup_nil,
    by simp, by simp, ?_, by simpa [Storage.size] using hsize⟩
  intro i _
  cases hi : s.data[i]? <;> simp [links, hi]

end Storage

section Calls

variable [Inhabited V] {s : Store H V} {a : Family H V}

omit [DecidableEq H] [Inhabited V] in
theorem Represents.size_eq (hr : Represents s a) : s.list.size = a.values.length := by
  rw [← hr.values]
  simp [ListUpdates.values, Storage.size]

def Conforms (c : Call H V) (s : Store H V) (a : Family H V) : Prop :=
  (outcome (exec c) s).1 = (spec c a).1 ∧ Represents (outcome (exec c) s).2 (spec c a).2

theorem change_represents (hr : Represents s a) {o : Op H} {r : Option Nat} {l : H → List Nat}
    (ho : ListRuns.Allowed o ⟨a.values.length, a.list⟩)
    (hspec : ListRuns.spec o ⟨a.values.length, a.list⟩ = (.ok r, ⟨a.values.length, l⟩)) :
    outcome (change o) s = (.ok (r.elim .done .index), (outcome (change o) s).2) ∧
      Represents (outcome (change o) s).2 { a with list := l } := by
  obtain ⟨hreply, href, hextends⟩ := exec_refines o s ⟨a.values.length, a.list⟩
    ⟨hr.size_eq, hr.lists⟩ ho
  rw [hspec] at hreply href
  obtain ⟨hsize, hd⟩ := href
  have hlen : (values s.list).length = (values (outcome (ListRuns.exec o) s).2.list).length := by
    rw [hr.values]
    simpa [values, Storage.size] using hsize.symm
  rw [change, outcome_map, hreply]
  exact ⟨rfl, (hextends.eq_of_length hlen).symm.trans hr.values, hd⟩

theorem conforms_change {c : Call H V} {o : Op H} (hexec : exec c = (change o : Prog (Store H V) _))
    (hr : Represents s a) {r : Option Nat} {l : H → List Nat}
    (ho : ListRuns.Allowed o ⟨a.values.length, a.list⟩)
    (hspec : ListRuns.spec o ⟨a.values.length, a.list⟩ = (.ok r, ⟨a.values.length, l⟩))
    (h : spec c a = (.ok (r.elim .done .index), { a with list := l })) : Conforms c s a := by
  obtain ⟨hreply, hr'⟩ := change_represents hr ho hspec
  rw [Conforms, hexec, h, hreply]
  exact ⟨rfl, hr'⟩

theorem conforms_formList (hr : Represents s a) {h : H} {b e : Nat}
    (ho : Allowed (.formList h b e) a) : Conforms (.formList h b e) s a := by
  by_cases hbad : BadRange a.values.length b e
  · have hrun : exec (.formList h b e) s = .error .formListArgument s :=
      bind_error (bind_error (zoom_error storage
        (formList_rejects (hr.size_eq.symm ▸ hbad))) _) _
    rw [Conforms, outcome_error hrun, spec, if_pos hbad]
    exact ⟨rfl, hr⟩
  · obtain ⟨hempty, hfree⟩ := ho.resolve_left hbad
    have hrange : b < e ∧ e ≤ a.values.length := by
      simp only [BadRange] at hbad
      omega
    apply conforms_change rfl hr (o := .formList h b e) ⟨hempty, hrange.1, hrange.2, hfree⟩ rfl
    rw [spec, if_neg hbad]
    rfl

theorem conforms_resize (hr : Represents s a) {fits : Nat → Bool} {n : Nat}
    (ho : Allowed (.resize fits n : Call H V) a) : Conforms (.resize fits n) s a := by
  obtain ⟨hmax, hlisted⟩ := ho
  by_cases hfull : a.values.length < n ∧ fits n = false
  · have hres : resize fits n s.list = .error .badAlloc s.list := by
      rw [resize, get_bind_apply, if_pos (hr.size_eq.symm ▸ hfull)]
      rfl
    have hrun : exec (.resize fits n) s = .error .badAlloc s :=
      bind_error (bind_error (zoom_error storage hres) _) _
    rw [Conforms, outcome_error hrun, spec, if_pos hfull]
    exact ⟨rfl, hr⟩
  · let cut : Storage V :=
      ⟨s.list.data.take n ++ List.replicate (n - s.list.size) { value := default }⟩
    have hres : resize fits n s.list = .ok ⟨⟩ cut := by
      rw [resize, get_bind_apply, if_neg (hr.size_eq.symm ▸ hfull)]
      rfl
    have hop : ListRuns.exec (.resize fits n) s = .ok none { s with list := cut } :=
      bind_ok (zoom_ok storage hres) _
    have hrun : exec (.resize fits n) s = .ok .done { s with list := cut } := bind_ok hop _
    have hsize : cut.size = n := by
      simp [cut, Storage.size]
      omega
    rw [Conforms, outcome_ok hrun, spec, if_neg hfull]
    refine ⟨rfl, ?_, denotes_congr hr.lists (links_resize hr.lists hlisted) ?_ (hsize ▸ hmax)⟩
    · rw [← hr.values]
      simp [cut, values, Storage.size]
    · rw [hsize]
      exact hlisted

theorem conforms_write (hr : Represents s a) {i : Nat} (hi : i < a.values.length) (v : V) :
    Conforms (.write i v) s a := by
  let written : Storage V := ⟨s.list.data.modify i ({ · with value := v })⟩
  have hset : setValue i v s.list = .ok ⟨⟩ written := modifyNode_ok (hr.size_eq.symm ▸ hi) _
  have hrun : exec (.write i v) s = .ok .done { s with list := written } :=
    bind_ok (zoom_ok storage hset) _
  have hsize : written.size = s.list.size := by simp [written, Storage.size]
  rw [Conforms, outcome_ok hrun]
  refine ⟨rfl, ?_, denotes_congr hr.lists (links_setValue s.list i v) ?_ (hsize ▸ hr.lists.size)⟩
  · exact (values_setValue s.list i v).trans (congrArg (·.set i v) hr.values)
  · rw [hsize]
    exact hr.lists.bound

omit [DecidableEq H] [Inhabited V] in
theorem subscript_values (hr : Represents s a) {i : Nat} (hi : i < a.values.length) :
    subscript i s.list = .ok a.values[i] s.list := by
  obtain ⟨n, hn, hget, -⟩ := node_ok (hr.size_eq.symm ▸ hi)
  have hvalue : (values s.list)[i]? = some n.value := by
    rw [values, List.getElem?_map, hget]
    rfl
  rw [hr.values, List.getElem?_eq_getElem hi] at hvalue
  rw [subscript, bind_ok hn, Option.some.inj hvalue]
  rfl

theorem conforms_checkedAt (hr : Represents s a) (i : Nat) : Conforms (.checkedAt i) s a := by
  by_cases hi : i < a.values.length
  · have hat : checkedAt i s.list = .ok a.values[i] s.list := by
      rw [checkedAt, get_bind_apply, if_neg (Nat.not_le_of_lt (hr.size_eq.symm ▸ hi))]
      exact subscript_values hr hi
    have hrun : exec (.checkedAt i) s = .ok (.value a.values[i]) s := bind_ok (zoom_ok storage hat) _
    rw [Conforms, outcome_ok hrun, spec, List.getElem?_eq_getElem hi]
    exact ⟨rfl, hr⟩
  · have hle : s.list.size ≤ i := hr.size_eq.symm ▸ Nat.le_of_not_lt hi
    have hat : checkedAt i s.list = .error (.atOutOfRange i s.list.size) s.list := by
      rw [checkedAt, get_bind_apply, if_pos hle]
      rfl
    have hrun : exec (.checkedAt i) s = .error (.atOutOfRange i s.list.size) s :=
      bind_error (zoom_error storage hat) _
    rw [Conforms, outcome_error hrun, spec, List.getElem?_eq_none (Nat.le_of_not_lt hi), hr.size_eq]
    exact ⟨rfl, hr⟩

theorem exec_conforms (hr : Represents s a) {c : Call H V} (ho : Allowed c a) : Conforms c s a := by
  cases c with
  | push h i => exact conforms_change rfl hr (o := .push h i) ho rfl rfl
  | pop h => exact conforms_change rfl hr (o := .pop h) ho rfl rfl
  | insert h next i => exact conforms_change rfl hr (o := .insert h next i) ho rfl rfl
  | remove h i => exact conforms_change rfl hr (o := .remove h i) ho rfl rfl
  | formList h b e => exact conforms_formList hr ho
  | resize fits n => exact conforms_resize hr ho
  | clear =>
      obtain ⟨t, ht, hvalues, hd⟩ := clear_denotes (H := H) hr.lists.size
      have hrun : exec .clear s = .ok .done (⟨t, fun _ => nullIndex⟩ : Store H V) :=
        bind_ok (zoom_ok storage ht) _
      rw [Conforms, outcome_ok hrun]
      exact ⟨rfl, hvalues.trans hr.values, hd⟩
  | write i v => exact conforms_write hr ho v
  | read i =>
      have hrun : exec (.read i) s = .ok (.value a.values[i]) s :=
        bind_ok (zoom_ok storage (subscript_values hr ho)) _
      rw [Conforms, outcome_ok hrun, spec, List.getElem?_eq_getElem ho]
      exact ⟨rfl, hr⟩
  | checkedAt i => exact conforms_checkedAt hr i
  | size =>
      have hrun : exec .size s = .ok (.index s.list.size) s := rfl
      rw [Conforms, outcome_ok hrun, hr.size_eq]
      exact ⟨rfl, hr⟩

end Calls

omit [DecidableEq H] in
theorem represents_construct (n : Nat) (v : V) (hn : n ≤ maxSize) :
    Represents (⟨construct n v, fun _ => nullIndex⟩ : Store H V) ⟨List.replicate n v, fun _ => []⟩ := by
  have hlist : construct n v = ⟨(List.replicate n v).map fun v => { value := v }⟩ := by
    rw [construct, List.map_replicate]
  have hlen : (List.replicate n v).length ≤ maxSize := by simpa using hn
  obtain ⟨-, hd⟩ := refines_fresh (H := H) (List.replicate n v) hlen
  exact ⟨by simp [values, construct], hlist ▸ hd⟩

/-- The class is a family of lists over an array of values: every run of its
calls gives the replies of the family, refused calls and all, and leaves a
storage that represents it, whose lists can be walked round both ways. -/
theorem interface_run [Inhabited V] (n : Nat) (v : V) (hn : n ≤ maxSize) (cs : List (Call H V))
    (hcs : Along spec Allowed cs ⟨List.replicate n v, fun _ => []⟩) :
    let s := run (fun c => outcome (exec c)) cs (⟨construct n v, fun _ => nullIndex⟩ : Store H V)
    let a := run spec cs ⟨List.replicate n v, fun _ => []⟩
    s.1 = a.1 ∧ Represents s.2 a.2 ∧
      ∀ h i j, ∀ (hi : i < (a.2.list h).length) (hj : j < (a.2.list h).length),
        (i + 1) % (a.2.list h).length = j →
        next (a.2.list h)[i] s.2.list = .ok (a.2.list h)[j] s.2.list ∧
        previous (a.2.list h)[j] s.2.list = .ok (a.2.list h)[i] s.2.list := by
  intro s a
  have hstep (c : Call H V) (s : Store H V) (a : Family H V) (hr : Represents s a)
      (hc : Allowed c a) : (outcome (exec c) s).1 = (spec c a).1 ∧
        Represents (outcome (exec c) s).2 (spec c a).2 := exec_conforms hr hc
  obtain ⟨hreplies, hr⟩ := run_simulation Allowed Represents hstep cs _ _
    (represents_construct n v hn) hcs
  exact ⟨hreplies, hr, fun h i j hi hj hij => walk_denotes hr.lists h hi hj hij⟩

def session : List (Call Bool Nat) :=
  [.formList true 1 4, .pop true, .push false 0, .write 2 8, .checkedAt 9, .remove true 3,
    .resize (fun _ => true) 3, .resize (fun _ => true) 5, .checkedAt 3, .formList false 4 4, .clear,
    .insert true nullIndex 4, .read 2, .size]

theorem interface_run_session :
    (run (fun c => outcome (exec c)) session (⟨construct 4 7, fun _ => nullIndex⟩ : Store Bool Nat)).1 =
      [.ok (.index 1), .ok (.index 1), .ok (.index 0), .ok .done, .error (.atOutOfRange 9 4),
        .ok .done, .ok .done, .ok .done, .ok (.value 0), .error .formListArgument, .ok .done,
        .ok (.index 4), .ok (.value 8), .ok (.index 5)] := by
  have hrun := interface_run 4 7 (by decide) session (by
    simp [session, Along, Allowed, Family.Unlinked, BadRange, spec, Family.set, placeBefore,
      nullIndex, maxSize]
    decide)
  exact hrun.1.trans rfl

end Lzhlib.ListInterface
