import Lzhlib.ListFamily
import Lzhlib.Runs

namespace Lzhlib.ListRuns

open Programs Machine Rings IndexedList ListUpdates ListFamily Runs

variable {H V : Type} [DecidableEq H]

structure Store (H V : Type) where
  list : Storage V
  heads : H → Nat

def handle (h : H) : Part (Store H V) (Handle V) where
  get s := ⟨s.list, s.heads h⟩
  set r s := ⟨r.list, Function.update s.heads h r.head⟩

def storage : Part (Store H V) (Storage V) := ⟨Store.list, fun l s => { s with list := l }⟩

inductive Op (H : Type)
  | push (h : H) (index : Nat)
  | pop (h : H)
  | insert (h : H) (next inserted : Nat)
  | remove (h : H) (removed : Nat)
  | formList (h : H) (begin stop : Nat)
  | resize (fits : Nat → Bool) (newSize : Nat)

def exec [Inhabited V] : Op H → Prog (Store H V) (Option Nat)
  | .push h i => do return some (← zoom (handle h) (push i))
  | .pop h => do return some (← zoom (handle h) pop)
  | .insert h next i => do return some (← zoom (handle h) (IndexedList.insert next i))
  | .remove h i => do
      zoom (handle h) (remove i)
      return none
  | .formList h b e => do
      let head ← zoom storage (formList b e)
      modify fun s => { s with heads := Function.update s.heads h head }
      return some head
  | .resize fits n => do
      zoom storage (resize fits n)
      return none

structure Lists (H : Type) where
  size : Nat
  list : H → List Nat

def Lists.set (a : Lists H) (h : H) (l : List Nat) : Lists H :=
  { a with list := Function.update a.list h l }

def spec : Op H → Lists H → Except Exc (Option Nat) × Lists H
  | .push h i, a => (.ok (some i), a.set h (i :: a.list h))
  | .pop h, a => (.ok (some ((a.list h).head?.getD nullIndex)), a.set h (a.list h).tail)
  | .insert h next i, a => (.ok (some i), a.set h (placeBefore next i (a.list h)))
  | .remove h i, a => (.ok none, a.set h ((a.list h).erase i))
  | .formList h b e, a => (.ok (some b), a.set h (List.range' b (e - b)))
  | .resize fits n, a =>
      if a.size < n ∧ fits n = false then (.error .badAlloc, a) else (.ok none, { a with size := n })

def Unlinked (a : Lists H) (i : Nat) : Prop := i < a.size ∧ ∀ h, i ∉ a.list h

/-- What a caller owes to each operation. -/
def Allowed : Op H → Lists H → Prop
  | .push _ i, a => Unlinked a i
  | .pop h, a => a.list h ≠ []
  | .insert h next i, a => Unlinked a i ∧ (next ∈ a.list h ∨ next = nullIndex)
  | .remove h i, a => i ∈ a.list h
  | .formList h b e, a => a.list h = [] ∧ b < e ∧ e ≤ a.size ∧ ∀ i, b ≤ i → i < e → Unlinked a i
  | .resize _ n, a => a.size ≤ n ∧ n ≤ maxSize

def Refines (s : Store H V) (a : Lists H) : Prop :=
  s.list.size = a.size ∧ Denotes s.list s.heads a.list

theorem handle_refines {α : Type} {s : Store H V} {a : Lists H} (hr : Refines s a) {h : H}
    {p : Prog (Handle V) α} {r : α} {l : List Nat}
    (hp : ActsOn h p s.list s.heads a.list r l) :
    ∃ t, zoom (handle h) p s = .ok r t ∧ values t.list = values s.list ∧
      Refines t (a.set h l) := by
  obtain ⟨t, ht, hv, hd⟩ := hp
  exact ⟨_, zoom_ok (handle h) ht, hv, (size_eq hv).trans hr.1, hd⟩

theorem exec_refines [Inhabited V] (o : Op H) (s : Store H V) (a : Lists H) (hr : Refines s a)
    (ho : Allowed o a) : (outcome (exec o) s).1 = (spec o a).1 ∧
      Refines (outcome (exec o) s).2 (spec o a).2 ∧
      values s.list <+: values (outcome (exec o) s).2.list := by
  obtain ⟨hsize, hd⟩ := hr
  cases o with
  | push h i =>
      obtain ⟨t, ht, hv, hr'⟩ := handle_refines ⟨hsize, hd⟩
        (push_denotes hd h (hsize ▸ ho.1) ho.2)
      rw [outcome_ok (show exec (.push h i) s = .ok (some i) t from bind_ok ht _)]
      exact ⟨rfl, hr', hv ▸ List.prefix_rfl⟩
  | pop h =>
      obtain ⟨c, v, hlist⟩ := List.exists_cons_of_ne_nil ho
      obtain ⟨t, ht, hv, hr'⟩ := handle_refines ⟨hsize, hd⟩ (pop_denotes hd h hlist)
      rw [outcome_ok (show exec (.pop h) s = .ok (some c) t from bind_ok ht _)]
      simp only [spec, hlist, List.head?_cons, Option.getD_some, List.tail_cons]
      exact ⟨trivial, hr', hv ▸ List.prefix_rfl⟩
  | insert h next i =>
      obtain ⟨t, ht, hv, hr'⟩ := handle_refines ⟨hsize, hd⟩
        (insert_denotes hd h ho.2 (hsize ▸ ho.1.1) ho.1.2)
      rw [outcome_ok (show exec (.insert h next i) s = .ok (some i) t from bind_ok ht _)]
      exact ⟨rfl, hr', hv ▸ List.prefix_rfl⟩
  | remove h i =>
      obtain ⟨t, ht, hv, hr'⟩ := handle_refines ⟨hsize, hd⟩ (remove_denotes hd h ho)
      rw [outcome_ok (show exec (.remove h i) s = .ok none t from bind_ok ht _)]
      exact ⟨rfl, hr', hv ▸ List.prefix_rfl⟩
  | formList h b e =>
      obtain ⟨hempty, hbe, he, hfree⟩ := ho
      obtain ⟨t, ht, hv, hd'⟩ := formList_denotes hd h hempty hbe (hsize ▸ he)
        (fun i hb hi => (hfree i hb hi).2)
      have hrun : exec (.formList h b e) s = .ok (some b) ⟨t, Function.update s.heads h b⟩ :=
        bind_ok (zoom_ok storage ht) _
      rw [outcome_ok hrun]
      exact ⟨rfl, ⟨(size_eq hv).trans hsize, hd'⟩, hv ▸ List.prefix_rfl⟩
  | resize fits n =>
      by_cases hf : a.size < n ∧ fits n = false
      · have hres : resize fits n s.list = .error .badAlloc s.list := by
          rw [resize, get_bind_apply, if_pos (hsize ▸ hf)]
          rfl
        have hrun : exec (.resize fits n) s = .error .badAlloc s :=
          bind_error (zoom_error storage hres) _
        rw [outcome_error hrun]
        simp only [spec, if_pos hf]
        exact ⟨trivial, ⟨hsize, hd⟩, List.prefix_rfl⟩
      · obtain ⟨t, ht, hv, hn, hd'⟩ := resize_denotes fits hd (hsize ▸ ho.1) ho.2
          (fun hlt => by
            rw [hsize] at hlt
            simpa [hlt] using hf)
        have hrun : exec (.resize fits n) s = .ok none { s with list := t } :=
          bind_ok (zoom_ok storage ht) _
        rw [outcome_ok hrun]
        simp only [spec, if_neg hf]
        exact ⟨trivial, ⟨hn, hd'⟩, hv ▸ List.prefix_append _ _⟩

theorem exec_run_refines [Inhabited V] (os : List (Op H)) (s : Store H V) (a : Lists H)
    (hr : Refines s a) (ho : Along spec Allowed os a) :
    (run (fun o => outcome (exec o)) os s).1 = (run spec os a).1 ∧
      Refines (run (fun o => outcome (exec o)) os s).2 (run spec os a).2 ∧
      values s.list <+: values (run (fun o => outcome (exec o)) os s).2.list := by
  have h := run_simulation Allowed (fun t b => Refines t b ∧ values s.list <+: values t.list)
    (fun o t b ht hb => by
      obtain ⟨h1, h2, h3⟩ := exec_refines o t b ht.1 hb
      exact ⟨h1, h2, ht.2.trans h3⟩) os s a ⟨hr, List.prefix_rfl⟩ ho
  exact ⟨h.1, h.2.1, h.2.2⟩

/-- Every run on one storage is the run on the denoted lists: the same results,
the lists as cons, uncons, insertion, deletion and ranges make them, no value
changed, the dropped nodes unlinked, and a walk round every list both ways. -/
theorem family_run [Inhabited V] (os : List (Op H)) (s : Store H V) (a : Lists H)
    (hr : Refines s a) (ho : Along spec Allowed os a) :
    let t := (run (fun o => outcome (exec o)) os s).2
    let b := (run spec os a).2
    (run (fun o => outcome (exec o)) os s).1 = (run spec os a).1 ∧ Refines t b ∧
      (∀ i < s.list.size, (values t.list)[i]? = (values s.list)[i]?) ∧
      (∀ i, (∀ h, i ∉ b.list h) →
        (links t.list).next i = nullIndex ∧ (links t.list).prev i = nullIndex) ∧
      ∀ h i j, ∀ (hi : i < (b.list h).length) (hj : j < (b.list h).length),
        (i + 1) % (b.list h).length = j →
        next (b.list h)[i] t.list = .ok (b.list h)[j] t.list ∧
        previous (b.list h)[j] t.list = .ok (b.list h)[i] t.list := by
  obtain ⟨hout, href, hval⟩ := exec_run_refines os s a hr ho
  refine ⟨hout, href, ?_, href.2.unlinked, fun h i j hi hj hij => walk_denotes href.2 h hi hj hij⟩
  intro i hi
  have hlen : i < (values s.list).length := by simpa [values, Storage.size] using hi
  rw [List.getElem?_eq_getElem hlen]
  exact List.prefix_iff_getElem?.mp hval i hlen

omit [DecidableEq H] in
theorem refines_fresh (vs : List V) (hsize : vs.length ≤ maxSize) :
    Refines (⟨⟨vs.map fun v => { value := v }⟩, fun _ => nullIndex⟩ : Store H V)
      ⟨vs.length, fun _ => []⟩ := by
  refine ⟨by simp [Storage.size], ?_⟩
  refine ⟨fun _ => isRing_nil _, fun _ => rfl, fun _ => List.nodup_nil, by simp, by simp, ?_, ?_⟩
  · intro i _
    cases hv : vs[i]? <;> simp [links, hv]
  · simpa [Storage.size, nullIndex] using hsize

theorem family_run_five :
    (run (fun o => outcome (exec o))
      [.push false 0, .push false 1, .insert false nullIndex 2, .remove false 0, .pop false,
        .formList true 3 5, .resize (fun _ => true) 7]
      (⟨⟨[10, 11, 12, 13, 14].map fun v => { value := v }⟩, fun _ => nullIndex⟩ :
        Store Bool Nat)).1 =
      [.ok (some 0), .ok (some 1), .ok (some 2), .ok none, .ok (some 1), .ok (some 3),
        .ok none] := by
  have hrun := family_run
    [.push false 0, .push false 1, .insert false nullIndex 2, .remove false 0, .pop false,
      .formList true 3 5, .resize (fun _ => true) 7] _ _
    (refines_fresh (H := Bool) [10, 11, 12, 13, 14] (by decide)) (by
      simp [Along, Allowed, Unlinked, spec, Lists.set, placeBefore, nullIndex, maxSize]
      omega)
  exact hrun.1.trans rfl

end Lzhlib.ListRuns
