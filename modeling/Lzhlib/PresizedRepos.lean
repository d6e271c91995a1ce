import Lzhlib.RepoGrowth

namespace Lzhlib.PresizedRepos

open Programs Machine IndexedList FormList ValueRepo ObjectPool RepoRings RepoRefinement
open RepoRuns RepoTraversal RepoGrowth Runs

variable {V Args : Type}

section Stacks

variable {p q : Pool V} {freed : List Nat} {fresh i : Nat} {fits : Nat → Bool}

/-- The free stack holds what was given back, and below it the ids that were
never used, which end where the storage does. -/
structure Stacked (p : Pool V) (freed : List Nat) (fresh : Nat) : Prop where
  le : fresh ≤ p.size
  free : p.free = freed ++ List.range' fresh (p.size - fresh)

theorem Stacked.of_eq (h : Stacked p freed fresh) (hfree : q.free = p.free) (hsize : q.size = p.size) :
    Stacked q freed fresh := ⟨hsize ▸ h.le, by rw [hfree, hsize, h.free]⟩

theorem reuse_freed (fits : Nat → Bool) (h : Stacked p (i :: freed) fresh) :
    ∃ q, p.reuse fits = (.ok i, q) ∧ Stacked q freed fresh := by
  have hfree := h.free
  rw [List.cons_append] at hfree
  have hsize := take_size hfree
  refine ⟨_, Pool.reuse_take hfree, le_of_le_of_eq h.le hsize.symm, ?_⟩
  rw [hsize]
  rfl

theorem reuse_fresh (h : Stacked p [] fresh) (hq : p.reuse fits = (.ok i, q)) :
    i = fresh ∧ Stacked q [] (fresh + 1) ∧ (fresh < p.size → q.size = p.size) := by
  have hfree := h.free
  rw [List.nil_append] at hfree
  by_cases hlt : fresh < p.size
  · obtain ⟨k, hk⟩ := Nat.exists_eq_add_of_lt hlt
    rw [show p.size - fresh = k + 1 by omega, List.range'_succ] at hfree
    have hsize := take_size hfree
    rw [Pool.reuse_take hfree] at hq
    cases hq
    exact ⟨rfl, ⟨by omega, by rw [hsize, show p.size - (fresh + 1) = k by omega]; rfl⟩,
      fun _ => hsize⟩
  · have hfull : fresh = p.size := Nat.le_antisymm h.le (Nat.le_of_not_lt hlt)
    rw [hfull, Nat.sub_self, List.range'_zero] at hfree
    have hsize := extend_size hfree
    rw [Pool.reuse_extend hfree] at hq
    split_ifs at hq
    · cases hq
    · cases hq
    · cases hq
      rw [hfull]
      have hcount : p.size + p.size / 2 + 1 - (p.size + 1) = p.size / 2 := by omega
      exact ⟨rfl, ⟨by omega, by rw [hsize, hcount]; rfl⟩, fun hlt => absurd hlt (Nat.lt_irrefl _)⟩

theorem giveBack_stacked (h : Stacked p freed fresh) (hi : i ∈ p.live) :
    Stacked (p.giveBack i hi) (i :: freed) fresh := by
  have hsize := giveBack_size hi
  refine ⟨hsize ▸ h.le, ?_⟩
  rw [hsize, List.cons_append, ← h.free]
  rfl

end Stacks

section Filling

inductive Takes (fits : Nat → Bool) : Call Args → Prop
  | assignObject (args : Args) : Takes fits (.assignObject fits args)
  | reuseObject : Takes fits (.reuseObject fits)

def filled (type : ValueType Args V) (v : Option V) (args : Args) : Except Exc Unit :=
  match v with
  | some old => match type.assign args old with
    | .ok _ _ => .ok ⟨⟩
    | .error e _ => .error e
  | none => match type.construct args with
    | .ok _ => .ok ⟨⟩
    | .error e => .error e

def written (type : ValueType Args V) (v : Option V) (args : Args) : Option V :=
  match v with
  | some old => match type.assign args old with
    | .ok _ new => some new
    | .error _ new => some new
  | none => match type.construct args with
    | .ok new => some new
    | .error _ => none

structure Settled (type : ValueType Args V) (args : Args) (i : Nat) (p : Pool V) : Prop where
  reply : (Pool.settle type args i p).1 = filled type (p.value i) args
  value : (Pool.settle type args i p).2.value =
    Function.update p.value i (written type (p.value i) args)
  live : (Pool.settle type args i p).2.live = p.live
  free : (Pool.settle type args i p).2.free = p.free

theorem settled (type : ValueType Args V) (args : Args) (i : Nat) (p : Pool V) :
    Settled type args i p := by
  cases hv : p.value i with
  | none =>
      cases hc : type.construct args with
      | ok new => constructor <;> simp [Pool.settle, filled, written, hv, hc]
      | error e =>
          have hsame : Function.update p.value i none = p.value := hv ▸ Function.update_eq_self i _
          constructor <;> simp [Pool.settle, filled, written, hv, hc, hsame]
  | some old =>
      cases ha : type.assign args old <;> constructor <;>
        simp [Pool.settle, filled, written, hv, ha]

theorem Settled.size {type : ValueType Args V} {args : Args} {i : Nat} {p : Pool V}
    (h : Settled type args i p) : (Pool.settle type args i p).2.size = p.size := by
  rw [Pool.size, Pool.size, h.live, h.free]

variable {type : ValueType Args V} {fits : Nat → Bool} {c : Call Args} {p q : Pool V} {i : Nat}

end Filling

section Alongside

variable {type : ValueType Args V} {v : Option V} {p q : Pool V}

structure Regular (type : ValueType Args V) : Prop where
  ok : ∀ args new old, type.construct args = .ok new → type.assign args old = .ok ⟨⟩ new
  error : ∀ args e old, type.construct args = .error e → ∃ new, type.assign args old = .error e new

/-- Two pools that differ in capacity only. A slot that the first one made with
a value may have none in the second. -/
structure Alongside (type : ValueType Args V) (v : Option V) (p q : Pool V) : Prop where
  live : p.live = q.live
  stacked : ∃ freed fresh, Stacked p freed fresh ∧ Stacked q freed fresh
  value : v = none ∨ Regular type → ∀ i, p.value i = q.value i ∨ v ≠ none ∧ q.value i = none

theorem Regular.covers (h : Regular type) (args : Args) (old : V) :
    filled type (some old) args = filled type none args ∧
      (written type none args = none ∨ written type (some old) args = written type none args) := by
  cases hc : type.construct args with
  | ok new =>
      have ha := h.ok args new old hc
      simp only [filled, written, hc, ha, or_true, and_self]
  | error e =>
      obtain ⟨new, ha⟩ := h.error args e old hc
      simp only [filled, written, hc, ha, true_or, and_self]

theorem settle_covers {a b : Option V} (hreg : v = none ∨ Regular type)
    (hab : a = b ∨ v ≠ none ∧ b = none) (args : Args) : filled type a args = filled type b args ∧
      (written type a args = written type b args ∨ v ≠ none ∧ written type b args = none) := by
  obtain rfl | ⟨hv, rfl⟩ := hab
  · exact ⟨rfl, Or.inl rfl⟩
  · cases a with
    | none => exact ⟨rfl, Or.inl rfl⟩
    | some old =>
        obtain ⟨hfilled, hnone | hsame⟩ := (hreg.resolve_left hv).covers args old
        · exact ⟨hfilled, Or.inr ⟨hv, hnone⟩⟩
        · exact ⟨hfilled, Or.inl hsame⟩

theorem Alongside.reuse {fits : Nat → Bool} {i j : Nat} {p' q' : Pool V}
    (h : Alongside type v p q) (hp : p.reuse fits = (.ok i, p')) (hq : q.reuse fits = (.ok j, q')) :
    i = j ∧ Alongside type v p' q' := by
  obtain ⟨freed, fresh, hsp, hsq⟩ := h.stacked
  obtain ⟨-, -, hlive, hvalue⟩ := reuse_live hp
  obtain ⟨-, -, hlive', hvalue'⟩ := reuse_live hq
  have hnext : i = j ∧ ∃ freed fresh, Stacked p' freed fresh ∧ Stacked q' freed fresh := by
    cases freed with
    | nil =>
        obtain ⟨hi, hsp', -⟩ := reuse_fresh hsp hp
        obtain ⟨hj, hsq', -⟩ := reuse_fresh hsq hq
        exact ⟨hi.trans hj.symm, _, _, hsp', hsq'⟩
    | cons k freed =>
        obtain ⟨p'', hp'', hsp'⟩ := reuse_freed fits hsp
        obtain ⟨q'', hq'', hsq'⟩ := reuse_freed fits hsq
        cases hp.symm.trans hp''
        cases hq.symm.trans hq''
        exact ⟨rfl, _, _, hsp', hsq'⟩
  obtain ⟨rfl, hstacked⟩ := hnext
  exact ⟨rfl, by rw [hlive, hlive', h.live], hstacked, by rw [hvalue, hvalue']; exact h.value⟩

theorem Alongside.settle (h : Alongside type v p q) (args : Args) (i : Nat) :
    (v = none ∨ Regular type → (Pool.settle type args i p).1 = (Pool.settle type args i q).1) ∧
      Alongside type v (Pool.settle type args i p).2 (Pool.settle type args i q).2 := by
  obtain ⟨freed, fresh, hsp, hsq⟩ := h.stacked
  have hp := settled type args i p
  have hq := settled type args i q
  refine ⟨fun hreg => ?_, ⟨?_, ⟨freed, fresh, hsp.of_eq hp.free hp.size, hsq.of_eq hq.free hq.size⟩,
    fun hreg j => ?_⟩⟩
  · rw [hp.reply, hq.reply]
    exact (settle_covers hreg (h.value hreg i) args).1
  · rw [hp.live, hq.live, h.live]
  · rw [hp.value, hq.value]
    by_cases hj : j = i
    · subst hj
      rw [Function.update_self, Function.update_self]
      exact (settle_covers hreg (h.value hreg j) args).2
    · rw [Function.update_of_ne hj, Function.update_of_ne hj]
      exact h.value hreg j

theorem Alongside.giveBack {i : Nat} (h : Alongside type v p q) (hp : i ∈ p.live) (hq : i ∈ q.live) :
    Alongside type v (p.giveBack i hp) (q.giveBack i hq) := by
  obtain ⟨freed, fresh, hsp, hsq⟩ := h.stacked
  exact ⟨congrArg (·.erase i) h.live,
    ⟨i :: freed, fresh, giveBack_stacked hsp hp, giveBack_stacked hsq hq⟩, h.value⟩

theorem Alongside.clear (h : Alongside type v p q) (i : Nat) :
    Alongside type v (p.setValue i none) (q.setValue i none) := by
  obtain ⟨freed, fresh, hsp, hsq⟩ := h.stacked
  refine ⟨h.live, ⟨freed, fresh, hsp.of_eq rfl rfl, hsq.of_eq rfl rfl⟩, fun hreg j => ?_⟩
  by_cases hj : j = i
  · subst hj
    left
    rw [Pool.setValue_value, Pool.setValue_value, Function.update_self, Function.update_self]
  · rw [Pool.setValue_value, Pool.setValue_value, Function.update_of_ne hj, Function.update_of_ne hj]
    exact h.value hreg j

theorem Alongside.ring {i : Nat} (h : Alongside type v p q) (hi : i ∈ p.live) :
    ¬p.size ≤ i ∧ ¬q.size ≤ i ∧ p.ringOf i = q.ringOf i := by
  have hiq : i ∈ q.live := h.live ▸ hi
  refine ⟨Nat.not_le.mpr (p.mem_slots.mp (Or.inl hi)), Nat.not_le.mpr (q.mem_slots.mp (Or.inl hiq)), ?_⟩
  rw [Pool.ringOf, Pool.ringOf, if_pos hi, if_pos hiq, h.live]

theorem Alongside.next {i : Nat} (h : Alongside type v p q) (hp : p.size ≤ nullIndex)
    (hq : q.size ≤ nullIndex) (hi : i ∈ p.live ∨ i = nullIndex) : p.next i = q.next i := by
  obtain hi | rfl := hi
  · obtain ⟨hltp, hltq, hring⟩ := h.ring hi
    rw [Pool.next, Pool.next, if_neg hltp, if_neg hltq, hring, h.live]
  · rw [Pool.next, Pool.next, if_pos hp, if_pos hq]

theorem Alongside.prev {i : Nat} (h : Alongside type v p q) (hi : i ∈ p.live ∨ i = nullIndex) :
    p.prev i = q.prev i := by
  obtain hi | rfl := hi
  · obtain ⟨hltp, hltq, hring⟩ := h.ring hi
    rw [Pool.prev, Pool.prev, if_neg hltp, if_neg hltq, hring, h.live]
  · rw [Pool.prev, Pool.prev, if_pos rfl, if_pos rfl, h.live]

end Alongside

section Repositories

variable {type : ValueType Args V} {v : Option V} {r t : Repo V} {p q : Pool V}

theorem exec_refused {fits : Nat → Bool} {c : Call Args} {e : Exc} (hc : Takes fits c)
    (hg : growWhenFull fits r = .error e r) : outcome (exec type c) r = (.error e, r) := by
  have hreuse : outcome (reuseObject fits) r = (.error e, r) := by
    rw [reuseObject_eq]
    exact outcome_bind_error (outcome_error hg) _
  cases hc with
  | assignObject args => exact outcome_bind_error (outcome_bind_error hreuse _) _
  | reuseObject => exact outcome_bind_error hreuse _

end Repositories

end Lzhlib.PresizedRepos
