import Lzhlib.Interleaving
import Mathlib.Data.List.Basic

namespace Lzhlib.Linearizability

open Interleaving

variable {ι σ π σ' π' α ρ ς : Type} [DecidableEq ι]

inductive Event (ι α ρ : Type)
  | call (t : ι) (op : α)
  | ret (t : ι) (r : ρ)
  deriving DecidableEq

inductive Trace (move : ι → σ → π → Option (Event ι α ρ) → σ → π → Prop) (c : Config ι σ π) :
    List (Event ι α ρ) → Config ι σ π → Prop
  | refl : Trace move c [] c
  | next {H d t e s p} (h : Trace move c H d) (hm : move t d.shared (d.pc t) e s p) :
      Trace move c (H ++ e.toList) (d.after t s p)

section Simulation

variable {move : ι → σ → π → Option (Event ι α ρ) → σ → π → Prop}
  {move' : ι → σ' → π' → Option (Event ι α ρ) → σ' → π' → Prop}
  {c d : Config ι σ π} {c' : Config ι σ' π'} {H : List (Event ι α ρ)}

theorem Steps.trace {plain : ι → σ → π → σ → π → Prop}
    (hvisible : ∀ t s p s' p', plain t s p s' p' → ∃ e, move t s p e s' p') (h : Steps plain c d) :
    ∃ H, Trace move c H d := by
  induction h with
  | refl => exact ⟨[], .refl⟩
  | tail _ hlast ih =>
      obtain ⟨t, s, p, hm, rfl⟩ := hlast
      obtain ⟨H, htrace⟩ := ih
      obtain ⟨e, he⟩ := hvisible _ _ _ _ _ hm
      exact ⟨_, htrace.next he⟩

/-- A step that shows nothing may be matched by no step at all. -/
theorem Trace.simulation (R : Config ι σ π → Config ι σ' π' → Prop)
    (hstep : ∀ c d t e s p, R c d → move t c.shared (c.pc t) e s p →
      (e = none ∧ R (c.after t s p) d) ∨
        ∃ s' p', move' t d.shared (d.pc t) e s' p' ∧ R (c.after t s p) (d.after t s' p'))
    (hc : R c c') (h : Trace move c H d) : ∃ d', Trace move' c' H d' ∧ R d d' := by
  induction h with
  | refl => exact ⟨c', .refl, hc⟩
  | next _ hm ih =>
      obtain ⟨d', htrace, hr⟩ := ih
      obtain ⟨rfl, hr'⟩ | ⟨s', p', hm', hr'⟩ := hstep _ _ _ _ _ _ hr hm
      · refine ⟨d', ?_, hr'⟩
        rwa [Option.toList_none, List.append_nil]
      · exact ⟨_, htrace.next hm', hr'⟩

end Simulation

inductive Phase (α ρ : Type)
  | idle
  | called (op : α)
  | answered (r : ρ)

/-- The atomic object of a sequential specification: a call takes effect at one
instant between its invocation and its return. -/
inductive Atomic (spec : ς → α → ρ → ς → Prop) (t : ι) :
    ς → Phase α ρ → Option (Event ι α ρ) → ς → Phase α ρ → Prop
  | call {a} (op : α) : Atomic spec t a .idle (some (.call t op)) a (.called op)
  | effect {a op r b} (h : spec a op r b) : Atomic spec t a (.called op) none b (.answered r)
  | ret {a} (r : ρ) : Atomic spec t a (.answered r) (some (.ret t r)) a .idle

def atRest (a : ς) : Config ι ς (Phase α ρ) := ⟨a, fun _ => .idle⟩

section Refinement

variable {spec : ς → α → ρ → ς → Prop}
  {move : ι → σ → π → Option (Event ι α ρ) → σ → π → Prop}
  {c d : Config ι σ π} {H : List (Event ι α ρ)} {a : ς}

/-- The refinement rule. `phase` tells from the state and the place of a thread
how far its call is, and no thread moves the phase of another. -/
theorem Trace.atomic (I : Config ι σ π → ς → Prop) (phase : σ → π → Phase α ρ)
    (hstep : ∀ c a t e s p, I c a → move t c.shared (c.pc t) e s p →
      (∀ u, u ≠ t → phase s (c.pc u) = phase c.shared (c.pc u)) ∧
        ((e = none ∧ phase s p = phase c.shared (c.pc t) ∧ I (c.after t s p) a) ∨
          ∃ b, Atomic spec t a (phase c.shared (c.pc t)) e b (phase s p) ∧ I (c.after t s p) b))
    (hc : I c a) (hidle : ∀ t, phase c.shared (c.pc t) = .idle) (h : Trace move c H d) :
    ∃ d', Trace (Atomic spec) (atRest a) H d' ∧ I d d'.shared ∧
      ∀ t, d'.pc t = phase d.shared (d.pc t) := by
  refine h.simulation (fun c d => I c d.shared ∧ ∀ t, d.pc t = phase c.shared (c.pc t)) ?_
    ⟨hc, fun t => (hidle t).symm⟩
  rintro c d t e s p ⟨hi, hphase⟩ hm
  obtain ⟨hothers, ⟨rfl, hsame, hi'⟩ | ⟨b, ha, hi'⟩⟩ := hstep c d.shared t e s p hi hm
  · refine Or.inl ⟨rfl, hi', fun u => ?_⟩
    by_cases hu : u = t
    · subst u
      rw [after_pc_self, after_shared, hsame, hphase]
    · rw [after_pc_of_ne _ hu, after_shared, hothers u hu, hphase]
  · refine Or.inr ⟨b, phase s p, hphase t ▸ ha, hi', fun u => ?_⟩
    by_cases hu : u = t
    · subst u
      rw [after_pc_self, after_pc_self, after_shared]
    · rw [after_pc_of_ne _ hu, after_pc_of_ne _ hu, after_shared, hothers u hu, hphase]

end Refinement

section Linearizations

structure Entry (ι α ρ : Type) where
  thread : ι
  op : α
  reply : ρ

variable {spec : ς → α → ρ → ς → Prop} {S S₁ S₂ : List (Entry ι α ρ)} {H : List (Event ι α ρ)}
  {a₀ a b : ς} {t u : ι}

inductive Legal (spec : ς → α → ρ → ς → Prop) (a : ς) : List (Entry ι α ρ) → ς → Prop
  | nil : Legal spec a [] a
  | snoc {S b b'} (x : Entry ι α ρ) (h : Legal spec a S b) (hx : spec b x.op x.reply b') :
      Legal spec a (S ++ [x]) b'

def Event.op (t : ι) : Event ι α ρ → Option α
  | .call u op => if u = t then some op else none
  | .ret _ _ => none

def Event.reply (t : ι) : Event ι α ρ → Option ρ
  | .call _ _ => none
  | .ret u r => if u = t then some r else none

def calls (t : ι) (H : List (Event ι α ρ)) : List α := H.filterMap (Event.op t)

def rets (t : ι) (H : List (Event ι α ρ)) : List ρ := H.filterMap (Event.reply t)

def ops (t : ι) (S : List (Entry ι α ρ)) : List α := (S.filter (·.thread = t)).map Entry.op

def replies (t : ι) (S : List (Entry ι α ρ)) : List ρ := (S.filter (·.thread = t)).map Entry.reply

/-- Every call of `S` was made in `H`, and every call that returned in `H` is in
`S`, with the reply it got. -/
def Explains (S : List (Entry ι α ρ)) (H : List (Event ι α ρ)) : Prop :=
  ∀ t, ops t S <+: calls t H ∧ rets t H <+: replies t S

/-- A sequential run with the calls and replies of the history, in which a call
that returned before another was made comes first. -/
structure Linearization (spec : ς → α → ρ → ς → Prop) (a : ς) (H : List (Event ι α ρ))
    (S : List (Entry ι α ρ)) : Prop where
  legal : ∃ b, Legal spec a S b
  explains : Explains S H
  realTime : ∀ H₁, H₁ <+: H → ∃ S₁, S₁ <+: S ∧ Explains S₁ H₁

@[simp] theorem calls_append (t : ι) (H K : List (Event ι α ρ)) :
    calls t (H ++ K) = calls t H ++ calls t K := List.filterMap_append

@[simp] theorem rets_append (t : ι) (H K : List (Event ι α ρ)) :
    rets t (H ++ K) = rets t H ++ rets t K := List.filterMap_append

@[simp] theorem ops_append (t : ι) (S₁ S₂ : List (Entry ι α ρ)) :
    ops t (S₁ ++ S₂) = ops t S₁ ++ ops t S₂ := by
  rw [ops, List.filter_append, List.map_append, ops, ops]

@[simp] theorem replies_append (t : ι) (S₁ S₂ : List (Entry ι α ρ)) :
    replies t (S₁ ++ S₂) = replies t S₁ ++ replies t S₂ := by
  rw [replies, List.filter_append, List.map_append, replies, replies]

def Agrees (S : List (Entry ι α ρ)) (H : List (Event ι α ρ)) (t : ι) : Phase α ρ → Prop
  | .idle => calls t H = ops t S ∧ replies t S = rets t H
  | .called op => calls t H = ops t S ++ [op] ∧ replies t S = rets t H
  | .answered r => calls t H = ops t S ∧ replies t S = rets t H ++ [r]

theorem Agrees.explains {p : Phase α ρ} (h : Agrees S H t p) :
    ops t S <+: calls t H ∧ rets t H <+: replies t S := by
  cases p with
  | idle => exact ⟨h.1 ▸ List.prefix_rfl, h.2 ▸ List.prefix_rfl⟩
  | called op => exact ⟨h.1 ▸ List.prefix_append _ _, h.2 ▸ List.prefix_rfl⟩
  | answered r => exact ⟨h.1 ▸ List.prefix_rfl, h.2 ▸ List.prefix_append _ _⟩

theorem Atomic.agrees {p p' : Phase α ρ} {e : Option (Event ι α ρ)}
    (hm : Atomic spec t a p e b p') (hagree : Agrees S H t p) (hlegal : Legal spec a₀ S a) :
    ∃ T, Legal spec a₀ (S ++ T) b ∧ Agrees (S ++ T) (H ++ e.toList) t p' ∧
      ∀ u, u ≠ t → ops u T = [] ∧ replies u T = [] ∧ calls u e.toList = [] ∧
        rets u e.toList = [] := by
  cases hm with
  | call op =>
      refine ⟨[], by rwa [List.append_nil], ⟨?_, ?_⟩, fun u hu => ⟨rfl, rfl, ?_, rfl⟩⟩
      · rw [calls_append, hagree.1, List.append_nil]
        simp [calls, Event.op]
      · rw [List.append_nil, hagree.2, rets_append]
        simp [rets, Event.reply]
      · simp [calls, Event.op, hu.symm]
  | @effect op r _ hspec =>
      refine ⟨[⟨t, op, r⟩], hlegal.snoc ⟨t, op, r⟩ hspec, ⟨?_, ?_⟩, fun u hu => ⟨?_, ?_, rfl, rfl⟩⟩
      · rw [Option.toList_none, List.append_nil, hagree.1, ops_append]
        simp [ops]
      · rw [Option.toList_none, List.append_nil, replies_append, hagree.2]
        simp [replies]
      · simp [ops, hu.symm]
      · simp [replies, hu.symm]
  | ret r =>
      refine ⟨[], by rwa [List.append_nil], ⟨?_, ?_⟩, fun u hu => ⟨rfl, rfl, rfl, ?_⟩⟩
      · rw [List.append_nil, ← hagree.1, calls_append]
        simp [calls, Event.op]
      · rw [List.append_nil, hagree.2, rets_append]
        simp [rets, Event.reply]
      · simp [rets, Event.reply, hu.symm]

theorem length_ops (t : ι) (S : List (Entry ι α ρ)) :
    (ops t S).length = (replies t S).length := by
  rw [ops, replies, List.length_map, List.length_map]

theorem Agrees.pending {p : Phase α ρ} (h : Agrees S H t p) (hp : p ≠ .idle) :
    (calls t H).length = (rets t H).length + 1 := by
  have hlength := length_ops t S
  cases p with
  | idle => exact absurd rfl hp
  | called op => rw [h.1, ← h.2, List.length_append, hlength, List.length_singleton]
  | answered r => rw [h.1, hlength, h.2, List.length_append, List.length_singleton]

theorem Agrees.other {p : Phase α ρ} {T : List (Entry ι α ρ)} {K : List (Event ι α ρ)}
    (h : Agrees S H u p)
    (hu : ops u T = [] ∧ replies u T = [] ∧ calls u K = [] ∧ rets u K = []) :
    Agrees (S ++ T) (H ++ K) u p := by
  obtain ⟨hops, hreplies, hcalls, hrets⟩ := hu
  cases p <;>
    simpa only [Agrees, ops_append, replies_append, calls_append, rets_append, hops, hreplies,
      hcalls, hrets, List.append_nil] using h

omit [DecidableEq ι] in
theorem prefix_append_toList {H₁ : List (Event ι α ρ)} {e : Option (Event ι α ρ)}
    (h : H₁ <+: H ++ e.toList) : H₁ <+: H ∨ H₁ = H ++ e.toList := by
  cases e with
  | none =>
      rw [Option.toList_none, List.append_nil] at h
      exact Or.inl h
  | some x => exact (List.prefix_concat_iff.mp h).symm

theorem trace_agrees {d : Config ι ς (Phase α ρ)} (h : Trace (Atomic spec) (atRest a) H d) :
    ∃ S, Legal spec a S d.shared ∧ (∀ t, Agrees S H t (d.pc t)) ∧
      ∀ H₁, H₁ <+: H → ∃ S₁, S₁ <+: S ∧ Explains S₁ H₁ := by
  induction h with
  | refl =>
      refine ⟨[], .nil, fun _ => ⟨rfl, rfl⟩, fun H₁ hpre => ⟨[], List.prefix_rfl, fun t => ?_⟩⟩
      rw [List.prefix_nil.mp hpre]
      exact ⟨List.prefix_rfl, List.prefix_rfl⟩
  | @next H d t e s p _ hm ih =>
      obtain ⟨S, hlegal, hagree, hreal⟩ := ih
      obtain ⟨T, hlegal', hown, hothers⟩ := hm.agrees (hagree t) hlegal
      have hagree' : ∀ u, Agrees (S ++ T) (H ++ e.toList) u ((d.after t s p).pc u) :=
        after_forall d s hown fun u hu => (hagree u).other (hothers u hu)
      refine ⟨S ++ T, hlegal', hagree', fun H₁ hpre => ?_⟩
      obtain hpre' | rfl := prefix_append_toList hpre
      · obtain ⟨S₁, hs, hexplains⟩ := hreal H₁ hpre'
        exact ⟨S₁, hs.trans (List.prefix_append _ _), hexplains⟩
      · exact ⟨S ++ T, List.prefix_rfl, fun u => (hagree' u).explains⟩

/-- Every history of the atomic object can be put in order. -/
theorem trace_linearization {d : Config ι ς (Phase α ρ)}
    (h : Trace (Atomic spec) (atRest a) H d) :
    ∃ S, Legal spec a S d.shared ∧ Linearization spec a H S := by
  obtain ⟨S, hlegal, hagree, hreal⟩ := trace_agrees h
  exact ⟨S, hlegal, ⟨_, hlegal⟩, fun t => (hagree t).explains, hreal⟩

omit [DecidableEq ι] in
theorem Legal.split (h : Legal spec a (S₁ ++ S₂) b) :
    ∃ b₁, Legal spec a S₁ b₁ ∧ Legal spec b₁ S₂ b := by
  generalize hS : S₁ ++ S₂ = S at h
  induction h generalizing S₂ with
  | nil =>
      obtain ⟨rfl, rfl⟩ := List.append_eq_nil_iff.mp hS
      exact ⟨a, .nil, .nil⟩
  | snoc x h hx ih =>
      obtain rfl | ⟨S₂', y, rfl⟩ := List.eq_nil_or_concat' S₂
      · rw [List.append_nil] at hS
        subst hS
        exact ⟨_, h.snoc x hx, .nil⟩
      · rw [← List.append_assoc] at hS
        obtain ⟨rfl, hy⟩ := List.append_inj' hS rfl
        cases hy
        obtain ⟨b₁, h₁, h₂⟩ := ih rfl
        exact ⟨b₁, h₁, h₂.snoc x hx⟩

omit [DecidableEq ι] in
theorem Legal.invariant (I : ς → Prop) (P : α → ρ → Prop)
    (hstep : ∀ a op r b, I a → spec a op r b → I b ∧ P op r) (ha : I a) (h : Legal spec a S b) :
    I b ∧ ∀ x ∈ S, P x.op x.reply := by
  induction h with
  | nil => exact ⟨ha, nofun⟩
  | snoc x _ hx ih =>
      obtain ⟨hb, hall⟩ := ih
      obtain ⟨hb', hp⟩ := hstep _ _ _ _ hb hx
      refine ⟨hb', fun y hy => ?_⟩
      obtain hy | hy := List.mem_append.mp hy
      · exact hall y hy
      · cases List.mem_singleton.mp hy
        exact hp

theorem prefix_getElem? {l l' : List ρ} {n : Nat} {r : ρ} (h : l <+: l') (hr : l[n]? = some r) :
    l'[n]? = some r := by
  obtain ⟨rest, rfl⟩ := h
  rwa [List.getElem?_append_left (List.getElem?_eq_some_iff.mp hr).1]

theorem Linearization.later {H₁ H₂ : List (Event ι α ρ)}
    (h : Linearization spec a (H₁ ++ H₂) S) : ∃ S₁ S₂, S = S₁ ++ S₂ ∧ Explains S₁ H₁ ∧
      ∀ t n r, (calls t H₁).length ≤ n → (rets t (H₁ ++ H₂))[n]? = some r →
        ∃ x ∈ S₂, (calls t (H₁ ++ H₂))[n]? = some x.op ∧ x.reply = r := by
  obtain ⟨S₁, ⟨S₂, rfl⟩, hexplains⟩ := h.realTime H₁ (List.prefix_append _ _)
  refine ⟨S₁, S₂, rfl, hexplains, fun t n r hn hr => ?_⟩
  obtain ⟨hops, hreplies⟩ := h.explains t
  have hearlier : (ops t S₁).length ≤ n := Nat.le_trans (hexplains t).1.length_le hn
  have hlength := (length_ops t S₁).symm
  have hreply := prefix_getElem? hreplies hr
  rw [replies_append, List.getElem?_append_right (hlength ▸ hearlier), hlength] at hreply
  rw [replies, List.getElem?_map] at hreply
  obtain ⟨x, hx, rfl⟩ := Option.map_eq_some_iff.mp hreply
  have hop : (ops t (S₁ ++ S₂))[n]? = some x.op := by
    rw [ops_append, List.getElem?_append_right hearlier, ops, List.getElem?_map, hx]
    rfl
  refine ⟨x, (List.mem_filter.mp (List.mem_of_getElem? hx)).1, ?_, rfl⟩
  exact prefix_getElem? hops hop

end Linearizations

end Lzhlib.Linearizability
