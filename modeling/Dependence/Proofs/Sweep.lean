import Dependence.Proofs.Failure
import Dependence.Proofs.Renaming

/-!
# Going backward, in any order

A search against the edges has visited some nodes and has others still to look at (`Sweep`). One
step takes any of these: a node that was visited is passed over, a new one is visited, and its
predecessors are to be looked at as well, listed in whatever order (`Sweep.Step`). The search may
hold a node several times, and the node that it starts from is not marked, so a cycle through that
node is found like any other way.

Two facts about one step are enough for every run.

* The edges into nodes that were not visited, together with the nodes to look at, become fewer
  (`Step.work_lt`), so every run ends.
* What was visited, and what can be reached around that, stay the same taken together
  (`Step.finds_iff`). When nothing is left to look at, what was visited is all there was to find.

So the order makes no difference to what is found. `Graph.collect` is one such run
(`Graph.collect_run`), and the slices of an analysis are what it finds.
-/

namespace Dependence

open Relation

/-! ### One step -/

/-- A search against the edges: the nodes that it has visited, and those that it has still to look
at. -/
structure Sweep (ν : Type) where
  visited : List ν
  pending : List ν

namespace Sweep

variable {ν : Type} [DecidableEq ν] {g g' : Graph ν} {s t : Sweep ν}

/-- **One step of a search.** It takes any of the nodes to look at, and passes over a node that was
visited. A new one is visited, and its predecessors are listed in any order. -/
inductive Step (g : Graph ν) : Sweep ν → Sweep ν → Prop
  | pass {visited pending rest : List ν} {n : ν} (taken : pending.Perm (n :: rest))
      (seen : n ∈ visited) : Step g ⟨visited, pending⟩ ⟨visited, rest⟩
  | visit {visited pending rest next : List ν} {n : ν} (taken : pending.Perm (n :: rest))
      (fresh : n ∉ visited) (listed : next.Perm (g.predecessors n)) :
      Step g ⟨visited, pending⟩ ⟨n :: visited, next ++ rest⟩

/-- What the search `s` has found or will still find: what was visited, and what leads to a node to
look at around that. -/
def Finds (g : Graph ν) (s : Sweep ν) (m : ν) : Prop :=
  m ∈ s.visited ∨ ∃ q ∈ s.pending, Escapes g.predecessors s.visited q m

/-- The work that is left to `s`: edges into nodes that were not visited, and nodes to look at. -/
def work (g : Graph ν) (s : Sweep ν) : ℕ :=
  g.unvisitedWork s.visited g.nodes + s.pending.length

/-- As long as there is a node to look at, the search can go on. -/
theorem exists_step (g : Graph ν) (h : s.pending ≠ []) : ∃ t, Step g s t := by
  obtain ⟨visited, pending⟩ := s
  obtain ⟨n, rest, rfl⟩ := List.exists_cons_of_ne_nil h
  -- take the first node, in the order in which it is there
  by_cases hn : n ∈ visited
  · exact ⟨_, .pass (.refl _) hn⟩
  · exact ⟨_, .visit (.refl _) hn (.refl _)⟩

namespace Step

/-- **A step does some of the `work`.** Passing over a node takes it off the list, and visiting one
pays for its predecessors. -/
theorem work_lt (h : Step g s t) : t.work g < s.work g := by
  unfold work
  cases h with
  | pass taken seen =>
    have hlength := taken.length_eq
    simp only [List.length_cons] at hlength ⊢
    omega
  | @visit visited pending rest next n taken fresh listed =>
    -- the predecessors of `n` come on the list, and its edges are no longer counted
    have hlength := taken.length_eq
    have hnew : visited.contains n = false := by simpa using fresh
    have hpaid := g.work_visit_le hnew
    simp only [List.length_cons, List.length_append, listed.length_eq] at hlength ⊢
    omega

/-- **A step loses nothing and adds nothing** to what the search `Finds`. -/
theorem finds_iff (h : Step g s t) (m : ν) : s.Finds g m ↔ t.Finds g m := by
  unfold Finds
  cases h with
  | @pass visited pending rest n taken seen =>
    simp only [taken.mem_iff]
    rw [exists_escapes_of_mem seen]
  | @visit visited pending rest next n taken fresh listed =>
    simp only [taken.mem_iff]
    -- the frontier moves from the node to its predecessors, in whatever order they are listed
    have hnext : (∃ q ∈ next ++ rest, Escapes g.predecessors (n :: visited) q m) ↔
        ∃ q ∈ g.predecessors n ++ rest, Escapes g.predecessors (n :: visited) q m := by
      simp only [(listed.append_right rest).mem_iff]
    rw [exists_escapes_cons fresh, hnext, List.mem_cons, or_assoc]
    exact or_left_comm

/-- No node is visited twice. -/
theorem nodup (h : Step g s t) (hs : s.visited.Nodup) : t.visited.Nodup := by
  cases h with
  | pass taken seen => exact hs
  | visit taken fresh listed => exact List.nodup_cons.2 ⟨fresh, hs⟩

/-- Two graphs that list the same predecessors, in whatever order, have the same steps. -/
theorem congr (hg : ∀ n, (g'.predecessors n).Perm (g.predecessors n)) (h : Step g' s t) :
    Step g s t := by
  cases h with
  | pass taken seen => exact .pass taken seen
  | visit taken fresh listed => exact .visit taken fresh (listed.trans (hg _))

end Step

/-! ### Every run -/

/-- **Every search ends**: the `work` cannot become less for ever. -/
theorem wellFounded_step (g : Graph ν) : WellFounded fun t s => Step g s t := by
  apply Subrelation.wf (r := InvImage (· < ·) (work g))
  · intro t s h
    exact h.work_lt
  · exact InvImage.wf _ wellFounded_lt

/-- **A run** finds from any moment on what it found from the start, and visits no node twice. -/
theorem run_spec (h : ReflTransGen (Step g) s t) :
    (∀ m, s.Finds g m ↔ t.Finds g m) ∧ (s.visited.Nodup → t.visited.Nodup) := by
  induction h with
  | refl => exact ⟨fun m => Iff.rfl, id⟩
  | tail _ hstep ih =>
    refine ⟨fun m => ?_, fun hs => ?_⟩
    · rw [ih.1 m, hstep.finds_iff m]
    · exact hstep.nodup (ih.2 hs)

end Sweep

namespace Graph

variable {ν : Type} [DecidableEq ν] {g g' : Graph ν} {seed : ν}

/-- `collect` is a search that looks at the first node of its list. -/
theorem collect_run (g : Graph ν) (visited pending : List ν) :
    ReflTransGen (Sweep.Step g) ⟨visited, pending⟩ ⟨g.collect visited pending, []⟩ := by
  -- along the definition: the list is empty, or starts with a visited node, or with a new one
  fun_induction collect g visited pending with
  | case1 visited => exact .refl
  | case2 visited n pending hn ih =>
    exact ih.head (.pass (.refl _) (List.contains_iff_mem.1 hn))
  | case3 visited n pending hn ih =>
    have hnew : n ∉ visited := fun hmem => hn (List.contains_iff_mem.2 hmem)
    exact ih.head (.visit (.refl _) hnew (.refl _))

theorem nodup_collect (g : Graph ν) (pending : List ν) : (g.collect [] pending).Nodup :=
  (Sweep.run_spec (g.collect_run [] pending)).2 List.nodup_nil

/-- **Whatever the order, the same is found**: a search from the predecessors of `seed` that has
nothing left to look at has visited what `collect` finds. -/
theorem perm_collect_of_run {pending visited : List ν}
    (hpending : pending.Perm (g.predecessors seed))
    (h : ReflTransGen (Sweep.Step g) ⟨[], pending⟩ ⟨visited, []⟩) :
    visited.Perm (g.collect [] (g.predecessors seed)) := by
  obtain ⟨hfinds, hnodup⟩ := Sweep.run_spec h
  obtain ⟨hfinds', -⟩ := Sweep.run_spec (g.collect_run [] (g.predecessors seed))
  -- at the end of a run, what is found is what was visited
  have hvisited : ∀ (visited : List ν) (m : ν),
      Sweep.Finds g ⟨visited, []⟩ m ↔ m ∈ visited := by
    intro visited m
    simp [Sweep.Finds]
  have hstart : ∀ m, Sweep.Finds g ⟨[], pending⟩ m ↔
      Sweep.Finds g ⟨[], g.predecessors seed⟩ m := by
    intro m
    simp only [Sweep.Finds, hpending.mem_iff]
  refine (List.perm_ext_iff_of_nodup (hnodup List.nodup_nil) (g.nodup_collect _)).2 fun m => ?_
  calc m ∈ visited
      ↔ Sweep.Finds g ⟨visited, []⟩ m := (hvisited visited m).symm
    _ ↔ Sweep.Finds g ⟨[], pending⟩ m := (hfinds m).symm
    _ ↔ Sweep.Finds g ⟨[], g.predecessors seed⟩ m := hstart m
    _ ↔ Sweep.Finds g ⟨g.collect [] (g.predecessors seed), []⟩ m := hfinds' m
    _ ↔ m ∈ g.collect [] (g.predecessors seed) := hvisited _ m

/-- A graph `g'` that lists the same predecessors in another order collects the same. -/
theorem perm_collect_of_perm (hg : ∀ n, (g'.predecessors n).Perm (g.predecessors n)) :
    (g'.collect [] (g'.predecessors seed)).Perm (g.collect [] (g.predecessors seed)) := by
  apply perm_collect_of_run (hg seed)
  exact ReflTransGen.mono (fun _ _ hstep => hstep.congr hg) _ _ (g'.collect_run [] _)

/-- Whatever leads to a node is a node. -/
theorem mem_nodes_of_transGen {a b : ν} (h : TransGen (fun a b => b ∈ g.successors a) a b) :
    a ∈ g.nodes := by
  obtain ⟨c, hac, -⟩ := TransGen.head'_iff.1 h
  exact (mem_nodes_of_mem_successors hac).1

end Graph

/-- The node `a` can be left and reached again just if it lies on a cycle. -/
theorem transGen_self_iff {α : Type} {r : α → α → Prop} {a : α} :
    TransGen r a a ↔ ∃ cycle, cycle ≠ [] ∧ Path r a a (a :: cycle) := by
  constructor
  · intro h
    -- the first step, and a path back
    obtain ⟨b, hab, hba⟩ := TransGen.head'_iff.1 h
    obtain ⟨p, hp⟩ := exists_path_iff.2 hba
    exact ⟨p, List.ne_nil_of_mem hp.head_mem, .step hab hp⟩
  · intro h
    obtain ⟨cycle, hne, hpath⟩ := h
    cases hpath with
    | here => exact absurd rfl hne
    | step first rest => exact .head' first (exists_path_iff.1 ⟨_, rest⟩)

/-! ### Slices -/

/-- **`Query.slice`** in a complete analysis: the direct members are the predecessors of `n` by data
dependence, and the transitive ones lead to `n` in the combined graph. -/
theorem Query.slice_of_complete {a : Analysis} (ha : a.Faithful) {d g : Graph Node}
    (h : a.subject.Complete d g) {n : Node} (hn : n ∈ a.flow.nodes) :
    ∃ s, (Query.slice (some n) a).2.result = .ok s ∧ s.criterion = n ∧
      (∀ x, x ∈ s.nodes ↔ n ∈ d.successors x) ∧
      ∀ x, x ∈ s.transitive ↔ TransGen (fun a b => b ∈ g.successors a) x n := by
  have hng : n ∈ g.nodes := h.nodes ▸ hn
  have hnd : n ∈ d.nodes := h.shaped.nodes ▸ hn
  obtain ⟨found, hslice, hmem⟩ := Slice.backward_spec hng hnd a.flow.unit
  refine ⟨⟨n, d.predecessors n, found⟩, ?_, rfl, ?_, hmem⟩
  · rw [Query.result_slice ha h.data h.combined]
    exact hslice
  · intro x
    exact Graph.mem_predecessors_iff

/-- **Slices are exact.** A search backward from a node of a graph always ends. It finds, each once,
the nodes that lead to the node by one edge or more: the node itself just if it lies on a cycle. It
finds the same in whatever order the nodes to look at are taken, and in whatever order the graph
lists the predecessors of a node.

In an analysis, the direct members of a slice are the predecessors by data dependence. They are
transitive members as well, and the slice of a transitive member lies within the slice. -/
theorem Analysis.slices_exact :
    (∀ {ν : Type} [DecidableEq ν] [Labelled ν] (g : Graph ν) (seed : ν), seed ∈ g.nodes →
      WellFounded (fun t s => Sweep.Step g s t) ∧
      ∃ found, g.transitivePredecessors (some seed) = .ok found ∧ found.Nodup ∧
        (∀ m, m ∈ found ↔ TransGen (fun a b => b ∈ g.successors a) m seed) ∧
        (seed ∈ found ↔
          ∃ cycle, cycle ≠ [] ∧ Path (fun a b => b ∈ g.successors a) seed seed (seed :: cycle)) ∧
        (∀ pending s, pending.Perm (g.predecessors seed) →
          ReflTransGen (Sweep.Step g) ⟨[], pending⟩ s →
            (s.pending ≠ [] → ∃ t, Sweep.Step g s t) ∧ (s.pending = [] → s.visited.Perm found)) ∧
        ∀ g' : Graph ν, seed ∈ g'.nodes → (∀ n, (g'.predecessors n).Perm (g.predecessors n)) →
          ∃ found', g'.transitivePredecessors (some seed) = .ok found' ∧ found'.Perm found) ∧
    ∀ {m : Method} {o : Options} {a : Analysis} {g : Graph Node},
      (Analysis.start m o).result = .ok a ∨ (Analysis.eager m o).result = .ok a →
      (Query.combined a).2.result = .ok g →
      ∃ d, (Query.data a).2.result = .ok d ∧ ∀ n ∈ a.flow.nodes, ∃ s,
        (Query.slice (some n) a).2.result = .ok s ∧ s.criterion = n ∧
        (∀ x, x ∈ s.nodes ↔ n ∈ d.successors x) ∧
        (∀ x, x ∈ s.transitive ↔ TransGen (fun a b => b ∈ g.successors a) x n) ∧
        s.nodes ⊆ s.transitive ∧
        ∀ x ∈ s.transitive, ∃ s', (Query.slice (some x) a).2.result = .ok s' ∧
          s'.transitive ⊆ s.transitive := by
  refine ⟨?_, ?_⟩
  · intro ν _ _ g seed hseed
    refine ⟨Sweep.wellFounded_step g, _, Graph.transitivePredecessors_eq_ok hseed,
      g.nodup_collect _, fun m => Graph.mem_collect_predecessors, ?_, ?_, ?_⟩
    · rw [Graph.mem_collect_predecessors, transGen_self_iff]
    · intro pending s hpending hrun
      refine ⟨Sweep.exists_step g, ?_⟩
      intro hdone
      obtain ⟨visited, rest⟩ := s
      obtain rfl : rest = [] := hdone
      exact Graph.perm_collect_of_run hpending hrun
    · intro g' hseed' hperm
      exact ⟨_, Graph.transitivePredecessors_eq_ok hseed', Graph.perm_collect_of_perm hperm⟩
  · intro m o a g ha hg
    obtain ⟨hfaithful, -, hbuild⟩ := Analysis.faithful_of_opened ha
    have hbounded := FlowGraph.bounded_of_build hbuild
    obtain ⟨d, hd⟩ := hfaithful.exists_complete hbounded hg
    refine ⟨d, (Query.data_yields hfaithful).result.trans hd.data, ?_⟩
    intro n hn
    obtain ⟨s, hs, hcriterion, hnodes, hmem⟩ := Query.slice_of_complete hfaithful hd hn
    refine ⟨s, hs, hcriterion, hnodes, hmem, ?_, ?_⟩
    · -- an edge of data dependence is one of the combined graph
      intro x hx
      rw [hnodes] at hx
      rw [hmem]
      exact .single (hd.mem_successors_of_data hbounded hx)
    · intro x hx
      rw [hmem] at hx
      have hxmem : x ∈ a.flow.nodes := hd.nodes ▸ Graph.mem_nodes_of_transGen hx
      obtain ⟨s', hs', -, -, hmem'⟩ := Query.slice_of_complete hfaithful hd hxmem
      refine ⟨s', hs', ?_⟩
      -- a way to a member goes on to the node of the slice
      intro z hz
      rw [hmem'] at hz
      rw [hmem]
      exact hz.trans hx

/-- The loop that counts: its step lies on a cycle, and so it is in its own slice. -/
theorem Analysis.slices_exact_counting :
    ∃ a g n s cycle, (start Listing.counting.method default).result = .ok a ∧
      (Query.combined a).2.result = .ok g ∧ n ∈ g.nodes ∧ n.position? = some (.int 2) ∧
      (Query.slice (some n) a).2.result = .ok s ∧ s.nodes ⊆ s.transitive ∧ n ∈ s.transitive ∧
      cycle ≠ [] ∧ Path (fun a b => b ∈ g.successors a) n n (n :: cycle) := by
  have heval : (do
      let a ← (start Listing.counting.method default).result
      let g ← (Query.combined a).2.result
      return decide (g.nodes = a.flow.nodes) && g.nodes.any fun n =>
        decide (n.position? = some (.int 2)) && (g.collect [] (g.predecessors n)).contains n :
      Except Error Bool) = .ok true := by
    cbv
  obtain ⟨a, hstart, heval⟩ := bind_eq_ok.1 heval
  obtain ⟨g, hcombined, heval⟩ := bind_eq_ok.1 heval
  have htrue := Except.ok.inj heval
  simp only [Bool.and_eq_true, decide_eq_true_eq, List.any_eq_true, List.contains_iff_mem] at htrue
  obtain ⟨hnodes, n, hn, hposition, hmem⟩ := htrue
  obtain ⟨-, found, hfound, -, hleads, hcycle, -⟩ := slices_exact.1 g n hn
  obtain rfl : found = g.collect [] (g.predecessors n) :=
    Except.ok.inj (hfound.symm.trans (Graph.transitivePredecessors_eq_ok hn))
  obtain ⟨cycle, hne, hpath⟩ := hcycle.1 hmem
  obtain ⟨d, -, hslices⟩ := slices_exact.2 (.inl hstart) hcombined
  obtain ⟨s, hs, -, -, htransitive, hsub, -⟩ := hslices n (hnodes ▸ hn)
  have hself : n ∈ s.transitive := (htransitive n).2 ((hleads n).1 hmem)
  exact ⟨a, g, n, s, cycle, hstart, hcombined, hn, hposition, hs, hsub, hself, hne, hpath⟩

end Dependence
