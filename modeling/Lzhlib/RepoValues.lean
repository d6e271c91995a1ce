import Lzhlib.DeadIds

namespace Lzhlib.RepoValues

open Programs Machine IndexedList ListUpdates ValueRepo ObjectPool RepoRings RepoRefinement
open RepoRuns RepoTraversal Runs

variable {V Args : Type} {type : ValueType Args V} {r : Repo V} {p q : Pool V}

section Invariant

/-- What the source demands of its slots, and that no access meets an empty one. -/
structure Valued (r : Repo V) : Prop where
  slot : ∀ d ∈ values r.list, d.used = true → d.value.isSome = true
  get : ∀ i, (outcome (getObject i) r).1 ≠ .error .undefined

def Filled (p : Pool V) : Prop := ∀ i ∈ p.live, (p.value i).isSome = true

/-- If the call is `reuse_object`, the slot that it takes already has a value,
or there is none to be had. -/
def TakesValue : Call Args → Repo V → Prop
  | .reuseObject fits, r =>
      if r.unusedHead = nullIndex then
        (maxSize - 1) / 3 * 2 < r.list.size ∨ fits (r.list.size + r.list.size / 2 + 1) = false
      else ∃ d, (values r.list)[r.unusedHead]? = some d ∧ d.value.isSome = true
  | _, _ => True

theorem valued_iff (hr : Refines r p) : Valued r ↔ Filled p := by
  have hlen : (values r.list).length = r.list.size := by simp [values, Storage.size]
  constructor
  · intro h i hi
    have hlt : i < r.list.size := hr.size ▸ p.mem_slots.mp (Or.inl hi)
    have hslot := List.mem_of_getElem? (hr.holds.slot i hlt)
    exact h.slot _ hslot (decide_eq_true hi)
  · refine fun h => ⟨fun d hd hused => ?_, fun i he => ?_⟩
    · obtain ⟨i, hi, hget⟩ := List.mem_iff_getElem.mp hd
      have hslot := hr.holds.slot i (hlen ▸ hi)
      rw [List.getElem?_eq_getElem hi, hget] at hslot
      cases Option.some.inj hslot
      exact h i (of_decide_eq_true hused)
    · rw [getObject_eq hr, Pool.get, Pool.demandLive] at he
      split_ifs at he with hlt hlive
      · cases he
      · obtain ⟨v, hv⟩ := Option.isSome_iff_exists.mp (h i hlive)
        rw [hv] at he
        cases he
      · cases he

theorem filled_take (hv : q.value = p.value) {i : Nat} (hl : q.live = i :: p.live) (h : Filled p) :
    Filled q ↔ (p.value i).isSome = true := by
  rw [Filled, hl, hv]
  constructor
  · exact fun hq => hq i List.mem_cons_self
  · intro hi j hj
    obtain rfl | hj := List.mem_cons.mp hj
    · exact hi
    · exact h j hj

theorem reuse_filled (hr : Refines r p) (fits : Nat → Bool) (h : Filled p) :
    Filled (p.reuse fits).2 ↔ TakesValue (Call.reuseObject fits : Call Args) r := by
  rw [TakesValue]
  cases hfree : p.free with
  | nil =>
      rw [if_pos (hr.head_null_iff.mpr hfree), Pool.reuse_extend hfree, hr.size]
      split_ifs with hlarge hfits
      · exact iff_of_true h (Or.inl hlarge)
      · exact iff_of_true h (Or.inr hfits)
      · apply iff_of_false
        · intro hq
          have hi := (filled_take (p := p) (q := p.extend hfree) rfl rfl h).mp hq
          rw [hr.outside p.size (Nat.le_refl _)] at hi
          cases hi
        · rintro (hl | hf)
          · exact hlarge hl
          · exact hfits hf
  | cons i rest =>
      have hnull : r.unusedHead ≠ nullIndex := fun hn => by
        rw [hr.head_null_iff.mp hn] at hfree
        cases hfree
      have hhead : r.unusedHead = i := by
        have hh : r.unusedHead = p.free.head?.getD nullIndex := hr.holds.rings.head .unused
        rw [hh, hfree]
        rfl
      have hlt : i < r.list.size := hr.size ▸ p.mem_slots.mp (Or.inr (by rw [hfree]; simp))
      rw [if_neg hnull, hhead, hr.holds.slot i hlt, Pool.reuse_take hfree,
        filled_take (p := p) (q := p.take i rest hfree) rfl rfl h]
      constructor
      · exact fun hi => ⟨_, rfl, hi⟩
      · rintro ⟨d, hd, hi⟩
        cases hd
        exact hi

theorem filled_setValue {i : Nat} (v : V) (h : ∀ j ∈ p.live, j ≠ i → (p.value j).isSome = true) :
    Filled (p.setValue i (some v)) := by
  intro j hj
  by_cases hji : j = i
  · subst j
    rw [Pool.setValue_value, Function.update_self]
    rfl
  · rw [Pool.setValue_value, Function.update_of_ne hji]
    exact h j hj hji

theorem exec_keeps_filled (ht : NoThrow type) {c : Call Args} (hc : ∀ fits, c ≠ .reuseObject fits)
    (h : Filled p) : Filled (Pool.exec (Pool.settle type) c p).2 := by
  have heffect := Pool.exec_effect (Pool.settle type) c p
  generalize (Pool.exec (Pool.settle type) c p).1 = res at heffect
  generalize (Pool.exec (Pool.settle type) c p).2 = q at heffect ⊢
  cases heffect with
  | refused | asked => exact h
  | @assigned _ args i q hp =>
      obtain ⟨-, -, hlive, hvalue⟩ := reuse_live hp
      obtain ⟨v, hv⟩ := settle_ok ht args i q
      rw [hv]
      apply filled_setValue
      intro j hj hji
      rw [hlive] at hj
      rw [hvalue]
      exact h j ((List.mem_cons.mp hj).resolve_left hji)
  | reused => exact absurd rfl (hc _)
  | @removed i hi =>
      intro j hj
      obtain ⟨hji, hj⟩ := (List.nodup_append.mp p.nodup).1.mem_erase_iff.mp hj
      have hvalue : ((p.setValue i none).giveBack i hi).value j = p.value j :=
        Function.update_of_ne hji _ _
      rw [hvalue]
      exact h j hj
  | returned => exact fun j hj => h j (List.mem_of_mem_erase hj)

theorem exec_filled (ht : NoThrow type) (c : Call Args) (hr : Refines r p) (h : Filled p) :
    Filled (Pool.exec (Pool.settle type) c p).2 ↔ TakesValue c r := by
  cases c with
  | reuseObject fits => exact reuse_filled hr fits h
  | _ => exact iff_true_intro (exec_keeps_filled ht nofun h)

/-- The invariant holds throughout a run exactly when every `reuse_object` of
the run takes a slot that has a value. -/
theorem throughout_valued_iff (ht' : NoThrow type) {r₀ : Repo V} (h₀ : Started r₀)
    (cs : List (Call Args)) : Throughout (fun c => outcome (exec type c)) Valued cs r₀ ↔
      Along (fun c => outcome (exec type c)) TakesValue cs r₀ := by
  obtain ⟨p, hp, hlive⟩ := started_refines h₀
  refine throughout_iff_along (I := fun r => ∃ p, Refines r p) (fun c r hi hv _ => ?_) cs r₀
    ⟨p, hp⟩ ?_ (along_true _ cs r₀)
  · obtain ⟨p, hr⟩ := hi
    obtain ⟨t, ht, hrt⟩ := exec_simulates type c hr
    rw [ht]
    exact ⟨⟨_, hrt⟩, (valued_iff hrt).trans (exec_filled ht' c hr ((valued_iff hr).mp hv))⟩
  · apply (valued_iff hp).mpr
    intro i hi
    rw [hlive] at hi
    cases hi

/-- A slot that was never filled is handed out, and reading it has no meaning. -/
theorem reuseObject_empty : ∃ r, r = (run (fun c => outcome (exec
      (⟨fun a => .ok a, fun a => set a⟩ : ValueType Nat Nat) c)) [.reuseObject (fun _ => true)] empty).2 ∧
    outcome (isIdUsed 0) r = (.ok true, r) ∧ outcome (getObject 0) r = (.error .undefined, r) ∧
      ¬Valued r := by
  refine ⟨_, rfl, rfl, rfl, fun h => h.get 0 ?_⟩
  rfl

theorem throughout_valued_iff_returned : Throughout
    (fun c => outcome (exec (⟨fun a => .ok a, fun a => set a⟩ : ValueType Nat Nat) c)) Valued
    [.assignObject (fun _ => true) 7, .returnObject 0, .reuseObject (fun _ => true)] empty := by
  refine (throughout_valued_iff ⟨fun a => ⟨a, rfl⟩, fun a _ => ⟨a, rfl⟩⟩ (Or.inl rfl) _).mpr
    ⟨trivial, trivial, ?_, trivial⟩
  rw [TakesValue, if_neg (by decide)]
  exact ⟨_, rfl, rfl⟩

end Invariant

section Atomicity

structure Restored (r t : Repo V) : Prop where
  used : ∀ i, (outcome (isIdUsed i) t).1 = (outcome (isIdUsed i) r).1
  order : ∀ l, Traversed r l → Traversed t l
  get : ∀ i, (outcome (isIdUsed i) r).1 = .ok true →
    (outcome (getObject i) t).1 = (outcome (getObject i) r).1

theorem assignObject_throws (hr : Refines r p) {fits : Nat → Bool} {args : Args} {i : Nat} {e : Exc}
    {s t : Repo V} (hreuse : outcome (reuseObject fits) r = (.ok i, s))
    (hthrow : outcome (assignObjectImpl type i args) s = (.error e, t)) :
    outcome (assignObject type fits args) r = (.error e, t) ∧ i ∉ p.live ∧ Traversed t (i :: p.live) := by
  obtain ⟨s', hs, hrs⟩ := reuseObject_simulates fits hr
  rcases hp : p.reuse fits with ⟨res, q⟩
  rw [hp] at hs hrs
  cases hreuse.symm.trans hs
  obtain ⟨hlive, hnew, horder, -⟩ := reuse_live hp
  obtain ⟨t', ht, hrt⟩ := assignObjectImpl_simulates type args hrs (q.mem_slots.mp (Or.inl hlive))
  cases (Prod.mk.inj (hthrow.symm.trans ht)).2
  have hsettled : (Pool.settle type args i q).2.live = q.live := by
    rw [Pool.settle]
    cases q.value i with
    | none => cases type.construct args <;> rfl
    | some old => cases ha : type.assign args old <;> simp only [ha, Pool.setValue_live]
  refine ⟨(outcome_bind_ok hreuse _).trans (outcome_bind_error hthrow _), hnew, ?_⟩
  rw [← horder, ← hsettled]
  exact traversed_of_refines hrt

/-- Whenever making the value throws, the repository is not as it was. -/
theorem assign_not_restored (type : ValueType Args V) {r₀ : Repo V} (h₀ : Started r₀)
    (cs : List (Call Args)) (fits : Nat → Bool) (args : Args) {i : Nat} {e : Exc} {s t : Repo V}
    (hreuse : outcome (reuseObject fits) (run (fun c => outcome (exec type c)) cs r₀).2 = (.ok i, s))
    (hthrow : outcome (assignObjectImpl type i args) s = (.error e, t)) :
    outcome (assignObject type fits args) (run (fun c => outcome (exec type c)) cs r₀).2 =
        (.error e, t) ∧
      ¬Restored (run (fun c => outcome (exec type c)) cs r₀).2 t := by
  obtain ⟨p, hp, -⟩ := started_refines h₀
  have hr := (run_refines type cs hp).2
  obtain ⟨hout, hnew, htrav⟩ := assignObject_throws hr hreuse hthrow
  refine ⟨hout, fun h => ?_⟩
  have hused := h.used i
  rw [htrav.used, isIdUsed_eq hr] at hused
  simp [hnew] at hused

/-- The slot that was taken for a value that could not be made is in use and empty. -/
theorem assignObject_keeps_slot : ∃ t : Repo Nat, outcome (assignObject (⟨fun _ => .error .thrownByValue,
      fun _ => throw .thrownByValue⟩ : ValueType Nat Nat) (fun _ => true) 7) empty =
        (.error .thrownByValue, t) ∧
    outcome (isIdUsed 0) (empty : Repo Nat) = (.ok false, empty) ∧
    outcome (isIdUsed 0) t = (.ok true, t) ∧ outcome (getObject 0) t = (.error .undefined, t) ∧
    ¬Restored empty t := by
  refine ⟨_, rfl, rfl, rfl, rfl, fun h => ?_⟩
  have hused : Except.ok true = (Except.ok false : Except Exc Bool) := h.used 0
  cases hused

theorem assign_not_restored_presized : ∃ r t : Repo Nat, presized (fun _ => true) 1 (some 7) = .ok r ∧
    outcome (assignObject (⟨fun a => .ok a, fun _ => throw .thrownByValue⟩ : ValueType Nat Nat)
      (fun _ => true) 13) r = (.error .thrownByValue, t) ∧ ¬Restored r t := by
  have hstart : presized (fun _ => true) 1 (some 7) =
      .ok { list := ⟨[⟨⟨some 7, false⟩, 0, 0⟩]⟩, unusedHead := 0 } := rfl
  have hnot := assign_not_restored
    (⟨fun a => .ok a, fun _ => throw .thrownByValue⟩ : ValueType Nat Nat)
    (Or.inr ⟨fun _ => true, 1, some 7, by decide, hstart⟩) [] (fun _ => true) 13 rfl rfl
  exact ⟨_, _, hstart, hnot⟩

end Atomicity

end Lzhlib.RepoValues
