import Dependence.Graph.Reach
import Dependence.Proofs.Graph.Edges
import Mathlib.Logic.Relation

/-!
# Searches with a list of nodes to look at

A search keeps the nodes it has visited and a list of nodes to look at. What it will still find is
what can be reached from that list without meeting a visited node (`Escapes`). Visiting a node `n`
moves the frontier: a way from `n` that comes back to `n` can be cut short after its last visit
there, so nothing is lost when `n` is closed for the rest of the search (`exists_escapes_cons`).
This holds on any graph, cyclic or not, and for any order in which nodes are looked at.

A search may also be defined by recursion, with calls that share what was visited. `Trail` is what
passes through the calls.

* `Graph.mem_collect` — what a search against the edges collects;
* `Graph.mem_transitivePredecessors` — the nodes with a way of at least one edge to a node.
-/

namespace Dependence

open Relation

section Escapes

variable {α : Type} {next : α → List α}

/-- There is a way from `a` to `b` that meets no visited node, its ends included. -/
def Escapes (next : α → List α) (visited : List α) (a b : α) : Prop :=
  a ∉ visited ∧ ReflTransGen (fun x y => y ∈ next x ∧ y ∉ visited) a b

theorem Escapes.of_cons {visited : List α} {n a b : α} (h : Escapes next (n :: visited) a b) :
    Escapes next visited a b := by
  refine ⟨fun ha => h.1 (List.mem_cons_of_mem n ha), ?_⟩
  exact ReflTransGen.mono (fun x y hxy => ⟨hxy.1, fun hy => hxy.2 (List.mem_cons_of_mem n hy)⟩)
    _ _ h.2

/-- A way around the visited nodes arrives at `n`, or goes around `n` too, or goes around `n` once
it has left it for the last time. -/
theorem Escapes.cases_cons {visited : List α} {a b : α} (h : Escapes next visited a b) (n : α) :
    b = n ∨ Escapes next (n :: visited) a b ∨ ∃ q ∈ next n, Escapes next (n :: visited) q b := by
  obtain ⟨ha, hreach⟩ := h
  -- from the end of the way backward, so that the last visit to `n` is met first
  induction hreach using ReflTransGen.head_induction_on with
  | refl =>
    by_cases hbn : b = n
    · exact .inl hbn
    · exact .inr (.inl ⟨by simp [hbn, ha], .refl⟩)
  | @head a c hstep _ ih =>
    rcases ih hstep.2 with hbn | hc | hlater
    · exact .inl hbn
    · by_cases han : a = n
      · -- the way leaves `n` here, and for the last time
        exact .inr (.inr ⟨c, han ▸ hstep.1, hc⟩)
      · refine .inr (.inl ⟨by simp [han, ha], hc.2.head ⟨hstep.1, hc.1⟩⟩)
    · exact .inr (.inr hlater)

/-- **Visiting `n` moves the frontier** to what comes next, and loses nothing. -/
theorem exists_escapes_cons {visited pending : List α} {n b : α} (hn : n ∉ visited) :
    (∃ q ∈ n :: pending, Escapes next visited q b) ↔
      b = n ∨ ∃ q ∈ next n ++ pending, Escapes next (n :: visited) q b := by
  constructor
  · rintro ⟨q, hq, hesc⟩
    rcases hesc.cases_cons n with hbn | hdirect | ⟨q', hq', hesc'⟩
    · exact .inl hbn
    · -- a way around `n` does not start there
      have hne : q ≠ n := fun heq => hdirect.1 (heq ▸ List.mem_cons_self)
      have hpending : q ∈ pending := (List.mem_cons.1 hq).resolve_left hne
      exact .inr ⟨q, List.mem_append_right _ hpending, hdirect⟩
    · exact .inr ⟨q', List.mem_append_left _ hq', hesc'⟩
  · rintro (rfl | ⟨q, hq, hesc⟩)
    · exact ⟨b, List.mem_cons_self, hn, .refl⟩
    · rcases List.mem_append.1 hq with hq | hq
      · have hold := hesc.of_cons
        exact ⟨n, List.mem_cons_self, hn, hold.2.head ⟨hq, hold.1⟩⟩
      · exact ⟨q, List.mem_cons_of_mem _ hq, hesc.of_cons⟩

/-- A visited node `n` in the list is passed over. -/
theorem exists_escapes_of_mem {visited pending : List α} {n b : α} (hn : n ∈ visited) :
    (∃ q ∈ n :: pending, Escapes next visited q b) ↔ ∃ q ∈ pending, Escapes next visited q b := by
  constructor
  · rintro ⟨q, hq, hesc⟩
    rcases List.mem_cons.1 hq with rfl | hq
    · exact absurd hn hesc.1
    · exact ⟨q, hq, hesc⟩
  · rintro ⟨q, hq, hesc⟩
    exact ⟨q, List.mem_cons_of_mem _ hq, hesc⟩

theorem escapes_nil {a b : α} : Escapes next [] a b ↔ ReflTransGen (fun x y => y ∈ next x) a b := by
  simp [Escapes]

end Escapes

/-- What the calls of a search share: the nodes that were visited, and those that were recorded, in
the order in which they were. -/
structure Trail (α : Type) where
  visited : List α
  recorded : List α

namespace Trail

variable {α : Type}

/-- The trail of a search that has not started. -/
def start : Trail α := ⟨[], []⟩

/-- Visit the node `n`. -/
def visit (s : Trail α) (n : α) : Trail α := { s with visited := n :: s.visited }

/-- Record the node `n`. -/
def record (s : Trail α) (n : α) : Trail α := { s with recorded := s.recorded ++ [n] }

/-- The trails that a call may leave: no visit is forgotten. -/
abbrev Further (s : Trail α) := { t : Trail α // s.visited ⊆ t.visited }

/-- What a later call leaves, seen from before. -/
def Further.since {s t : Trail α} (u : t.Further) (h : s.visited ⊆ t.visited) : s.Further :=
  ⟨u.1, List.Subset.trans h u.2⟩

theorem visited_subset_visit (s : Trail α) (n : α) : s.visited ⊆ (s.visit n).visited :=
  List.subset_cons_self n s.visited

end Trail

namespace Graph

variable {ν : Type} [DecidableEq ν]

/-- **What `collect` finds**: what was visited before, and what leads to a node of the list around
that. -/
theorem mem_collect {g : Graph ν} {visited pending : List ν} {m : ν} :
    m ∈ g.collect visited pending ↔
      m ∈ visited ∨ ∃ q ∈ pending, Escapes g.predecessors visited q m := by
  -- the search ends, passes over a visited node, or visits a new one
  fun_induction collect g visited pending with
  | case1 visited => simp
  | case2 visited n pending hn ih =>
    rw [ih, exists_escapes_of_mem (List.contains_iff_mem.1 hn)]
  | case3 visited n pending hn ih =>
    have hn' : n ∉ visited := fun hmem => hn (List.contains_iff_mem.2 hmem)
    rw [ih, exists_escapes_cons hn', List.mem_cons, or_assoc]
    exact or_left_comm

/-- `collect` from the predecessors of `n` finds all that has a way of at least one edge to `n`. -/
theorem mem_collect_predecessors {g : Graph ν} {m n : ν} :
    m ∈ g.collect [] (g.predecessors n) ↔ TransGen (fun a b => b ∈ g.successors a) m n := by
  -- predecessors lead backward, so the way that was searched is turned round
  have hway : ∀ q, ReflTransGen (fun x y => y ∈ g.predecessors x) q m ↔
      ReflTransGen (fun a b => b ∈ g.successors a) m q := by
    intro q
    rw [← reflTransGen_swap]
    have hswap : (Function.swap fun x y => y ∈ g.predecessors x) =
        fun a b => b ∈ g.successors a :=
      funext₂ fun x y => propext mem_predecessors_iff
    rw [hswap]
  rw [mem_collect, TransGen.tail'_iff]
  simp only [List.not_mem_nil, false_or, escapes_nil, hway]
  exact exists_congr fun q => by rw [mem_predecessors_iff, and_comm]

theorem transitivePredecessors_eq_ok [Labelled ν] {g : Graph ν} {n : ν} (hn : n ∈ g.nodes) :
    g.transitivePredecessors (some n) = .ok (g.collect [] (g.predecessors n)) := by
  rw [transitivePredecessors, predecessorsOf, member, if_pos (List.contains_iff_mem.2 hn)]
  rfl

/-- **`transitivePredecessors`** of a node `n` of the graph: the nodes with a way of at least one
edge to it. -/
theorem mem_transitivePredecessors [Labelled ν] {g : Graph ν} {n : ν} (hn : n ∈ g.nodes) :
    ∃ found, g.transitivePredecessors (some n) = .ok found ∧
      ∀ m, m ∈ found ↔ TransGen (fun a b => b ∈ g.successors a) m n :=
  ⟨_, transitivePredecessors_eq_ok hn, fun _ => mem_collect_predecessors⟩

end Graph

end Dependence
