import Mathlib.Logic.Equiv.List
import Lzhlib.GraphRecords
import Lzhlib.RepoTraversal
import Lzhlib.TextStreams

namespace Lzhlib.RepoStreams

open Programs Machine IndexedList ValueRepo ObjectPool RepoRefinement RepoRuns RepoTraversal
open GraphRecords TextStreams Runs

variable {V VV EV Args : Type}

/-- Stream operators of `indexed_list<data_t>`, which the source leaves to its
user: what was written is read back, and nothing that follows. -/
structure ListStream (V : Type) where
  insert : Storage (DataT V) → List Char
  extract : Storage (DataT V) → Prog InStream (Storage (DataT V))
  reads_back : ∀ old l rest, ∃ s, extract old { rest := insert l ++ rest } = .ok l s ∧ Reached s rest

/-- `in >> head`, after which a head that the stream leaves alone is the old one. -/
def extractHead (head : Nat) : Prog InStream Nat := do
  return (← modifyGet (extractUnsigned 64)).getD head

def extractRepo (lists : ListStream V) (repository : Repo V) : Prog InStream (Repo V) := do
  let list ← lists.extract repository.list
  let unusedHead ← extractHead repository.unusedHead
  let usedHead ← extractHead repository.usedHead
  return { list := list, unusedHead := unusedHead, usedHead := usedHead }

def insertRepo (lists : ListStream V) (repository : Repo V) : List Char :=
  lists.insert repository.list ++
    (insertUnsigned repository.unusedHead ++ insertUnsigned repository.usedHead)

def extractGraph (vertices : ListStream (Vertex VV)) (edges : ListStream (Edge EV))
    (graph : GraphBase VV EV) : Prog InStream (GraphBase VV EV) := do
  let vertexRepository ← extractRepo vertices graph.vertexRepository
  let edgeRepository ← extractRepo edges graph.edgeRepository
  return { vertexRepository := vertexRepository, edgeRepository := edgeRepository }

def insertGraph (vertices : ListStream (Vertex VV)) (edges : ListStream (Edge EV))
    (graph : GraphBase VV EV) : List Char :=
  insertRepo vertices graph.vertexRepository ++ insertRepo edges graph.edgeRepository

theorem extractHead_failbit {s : InStream} (h : s.failbit = true) (head : Nat) :
    extractHead head s = .ok head s :=
  modifyGet_bind (extractUnsigned_failbit 64 h) _

theorem extractHead_ok (head : Nat) (s : InStream) : ∃ i t, extractHead head s = .ok i t := by
  cases h : extractUnsigned 64 s with
  | mk i t => exact ⟨_, t, modifyGet_bind h _⟩

section Repositories

variable {r old : Repo V} {rest : List Char}

theorem extractRepo_misreads (lists : ListStream V) (old : Repo V)
    (h : r.unusedHead ≠ 0 ∨ r.usedHead ≠ 0) (rest : List Char) :
    ∃ t s, extractRepo lists old { rest := insertRepo lists r ++ rest } = .ok t s ∧
      (t.unusedHead = r.unusedHead → s.failbit = true) := by
  obtain ⟨s, hlist, hs⟩ := lists.reads_back old.list r.list
    (insertUnsigned r.unusedHead ++ (insertUnsigned r.usedHead ++ rest))
  obtain ⟨x, u, hx, hfail⟩ := extractUnsigned_joined 64 hs h
  have hunused := modifyGet_bind (ε := Exc) hx fun i => pure (i.getD old.unusedHead)
  obtain ⟨y, s, hy⟩ := extractHead_ok old.usedHead u
  refine ⟨{ list := r.list, unusedHead := x, usedHead := y }, s, ?_, fun heq => ?_⟩
  · rw [insertRepo, List.append_assoc, List.append_assoc, extractRepo, bind_ok hlist]
    rw [extractHead, bind_ok hunused, bind_ok hy]
    rfl
  · have hu := hfail heq
    rw [extractHead_failbit hu] at hy
    cases hy
    exact hu

/-- Reading gives back the repository that was written, in a stream that stands
after its text and can still be read. -/
def Restored (lists : ListStream V) (old r : Repo V) (rest : List Char) : Prop :=
  ∃ t s, extractRepo lists old { rest := insertRepo lists r ++ rest } = .ok t s ∧
    t.list = r.list ∧ t.unusedHead = r.unusedHead ∧ t.usedHead = r.usedHead ∧
    s.failbit = false ∧ s.rest = rest

theorem not_restored (lists : ListStream V) (h : r.unusedHead ≠ 0 ∨ r.usedHead ≠ 0) :
    ¬Restored lists old r rest := by
  rintro ⟨t, s, hread, -, hunused, -, hgood, -⟩
  obtain ⟨t', s', hread', hfail⟩ := extractRepo_misreads lists old h rest
  cases hread.symm.trans hread'
  rw [hfail hunused] at hgood
  cases hgood

theorem mem_of_head_zero {l : List Nat} (h : l.head?.getD nullIndex = 0) : 0 ∈ l := by
  cases l with
  | nil => cases h
  | cons i l =>
      cases h
      exact List.mem_cons_self

/-- No slot begins both rings. -/
theorem heads_differ {p : Pool V} (hr : Refines r p) : r.unusedHead ≠ 0 ∨ r.usedHead ≠ 0 := by
  have hw := wellFormed_of_refines hr
  by_contra hzero
  obtain ⟨hunused, hused⟩ := not_or.mp hzero
  have hfree := mem_of_head_zero (hw.unusedHead.symm.trans (not_not.mp hunused))
  have hlive := mem_of_head_zero (hw.usedHead.symm.trans (not_not.mp hused))
  exact hw.disjoint 0 hlive hfree

theorem extractGraph_misreads (vertices : ListStream (Vertex VV)) (edges : ListStream (Edge EV))
    {graph : GraphBase VV EV} {p : Pool (Vertex VV)} (hp : Refines graph.vertexRepository p)
    (old : GraphBase VV EV) (rest : List Char) :
    ∃ t s, (t.unusedHead = graph.vertexRepository.unusedHead → s.failbit = true) ∧
      extractGraph vertices edges old { rest := insertGraph vertices edges graph ++ rest } =
        (do return ⟨t, ← extractRepo edges old.edgeRepository⟩ : Prog InStream _) s := by
  obtain ⟨t, s, hread, hfail⟩ := extractRepo_misreads vertices old.vertexRepository (heads_differ hp)
    (insertRepo edges graph.edgeRepository ++ rest)
  refine ⟨t, s, hfail, ?_⟩
  rw [insertGraph, List.append_assoc, extractGraph, bind_ok hread]

end Repositories

section Numbered

open Decimals

def nodeEquiv : Node V ≃ V × Nat × Nat where
  toFun n := (n.value, n.next, n.prev)
  invFun x := { value := x.1, next := x.2.1, prev := x.2.2 }

def dataEquiv : DataT V ≃ Option V × Bool where
  toFun d := (d.value, d.used)
  invFun x := { value := x.1, used := x.2 }

def storageEquiv : Storage V ≃ List (Node V) where
  toFun l := l.data
  invFun nodes := ⟨nodes⟩

instance listCode [Encodable V] : Encodable (Storage (DataT V)) :=
  letI : Encodable (DataT V) := Encodable.ofEquiv _ dataEquiv
  letI : Encodable (Node (DataT V)) := Encodable.ofEquiv _ nodeEquiv
  Encodable.ofEquiv _ storageEquiv

def takeNumber (s : InStream) : Nat × InStream :=
  (parse (s.rest.takeWhile Char.isDigit), { s with rest := (s.rest.dropWhile Char.isDigit).tail })

theorem takeNumber_ok (n : Nat) (rest : List Char) :
    takeNumber { rest := insertUnsigned n ++ '.' :: rest } = (n, { rest := rest }) := by
  have hend : Ends ('.' :: rest) := by
    rintro c ⟨⟩
    rfl
  obtain ⟨htake, hdrop⟩ := span_digits (isDigit_insertUnsigned n) hend
  simp only [takeNumber, htake, hdrop, parse_insertUnsigned, List.tail_cons]

def numbered [Encodable V] : ListStream V where
  insert l := insertUnsigned (Encodable.encode l) ++ ['.']
  extract old := do return (Encodable.decode (← modifyGet takeNumber)).getD old
  reads_back old l rest := by
    refine ⟨{ rest := rest }, ?_, reached_start rest⟩
    rw [List.append_assoc, List.singleton_append, modifyGet_bind (takeNumber_ok _ rest),
      Encodable.encodek]
    rfl

end Numbered

section Runs

/-- Whatever has been called, whichever way lists are written, and whatever
follows in the stream, a repository is not read back. -/
theorem run_not_restored (type : ValueType Args V) {r₀ : Repo V} (h₀ : Started r₀)
    (cs : List (Call Args)) (lists : ListStream V) (old : Repo V) (rest : List Char) :
    ¬Restored lists old (run (fun c => outcome (exec type c)) cs r₀).2 rest := by
  obtain ⟨p, hp, -⟩ := started_refines h₀
  exact not_restored lists (heads_differ (run_refines type cs hp).2)

theorem run_not_restored_one : ¬Restored numbered empty
    (run (fun c => outcome (exec (⟨fun a => .ok a, fun a => set a⟩ : ValueType Nat Nat) c))
      [.assignObject (fun _ => true) 7] empty).2 ['1'] :=
  run_not_restored _ (Or.inl rfl) _ _ _ _

/-- The heads 1 and 0 are written as a 10. -/
theorem heads_joined : ∃ r₀ r, presized (fun _ => true) 2 (none : Option Nat) = .ok r₀ ∧
    (run (fun c => outcome (exec (⟨fun a => .ok a, fun a => set a⟩ : ValueType Nat Nat) c))
      [.assignObject (fun _ => true) 7] r₀).2 = r ∧
    insertRepo numbered r = (numbered : ListStream Nat).insert r.list ++ ['1', '0'] ∧
    ¬Restored numbered empty r [] := by
  refine ⟨_, _, rfl, rfl, rfl, not_restored _ (Or.inl ?_)⟩
  decide

end Runs

end Lzhlib.RepoStreams
