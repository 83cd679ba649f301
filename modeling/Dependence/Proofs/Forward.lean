import Dependence.Proofs.Flow.Shape
import Dependence.Proofs.Slice

/-!
# Dependence follows the flow

What bears on a node lies before it on some way of control. For data dependence that is said by its
definition. For control dependence it has to be shown, because the flow is completed by steps to
Exit that are not there: these lead to Exit only, and nothing goes on from Exit, so a way to any
other node uses none of them (`Bounded.flows_of_completed`); and Exit itself depends on nothing
(`controlDependent_ne_exit`).

So without a cycle in the flow there is none in dependence. A cycle cannot pass through a marker, so
it is enough that none was discovered (`Bounded.acyclic_flows`). In a graph without a cycle an edge
has a last one after it (`Graph.exists_mem_sinks`), so there is an output wherever there is data
dependence at all.
-/

namespace Dependence

open Relation

/-! ### Cycles -/

/-- No way of `r` leads from a point back to it. -/
def Acyclic {α : Type} (r : α → α → Prop) : Prop := ∀ x, ¬ TransGen r x x

/-- Steps of `r` that are ways of `s`, which is without a cycle, have none. -/
theorem Acyclic.of_ways {α β : Type} {r : α → α → Prop} {s : β → β → Prop} (h : Acyclic s)
    (φ : α → β) (hstep : ∀ a b, r a b → TransGen s (φ a) (φ b)) : Acyclic r := by
  intro x hx
  apply h (φ x)
  exact hx.lift' φ hstep

/-- Steps to greater numbers have no cycle. -/
theorem acyclic_of_lt {r : ℕ → ℕ → Prop} (h : ∀ i j, r i j → i < j) : Acyclic r := by
  intro i hi
  have hlt : TransGen (· < ·) i i := hi.lift id h
  rw [transGen_eq_self] at hlt
  exact lt_irrefl i hlt

namespace Graph

variable {ν : Type} [DecidableEq ν] {g : Graph ν}

/-- **The last of a graph without a cycle**: where there is an edge, there is a node that others
lead to and that leads to no other. -/
theorem exists_mem_sinks (h : Acyclic fun a b => b ∈ g.successors a) (hedges : g.edges ≠ []) :
    ∃ n, n ∈ g.sinks := by
  -- being led to is well-founded on the nodes, as there are finitely many
  let after (x y : { n // n ∈ g.nodes }) : Prop := TransGen (fun a b => b ∈ g.successors a) y.1 x.1
  have : IsTrans _ after := ⟨fun x y z hxy hyz => hyz.trans hxy⟩
  have : Std.Irrefl after := ⟨fun x hx => h x.1 hx⟩
  have hwf : WellFounded after := Finite.wellFounded_of_trans_of_irrefl after
  obtain ⟨e, he⟩ := List.exists_mem_of_ne_nil _ hedges
  obtain ⟨n, hn, hlast⟩ := hwf.has_min { x | g.predecessors x.1 ≠ [] }
    ⟨⟨e.target, (g.ends e he).2⟩, List.ne_nil_of_mem (mem_predecessors.2 ⟨e, he, rfl, rfl⟩)⟩
  refine ⟨n.1, List.mem_filter.2 ⟨n.2, ?_⟩⟩
  have hnone : g.successors n.1 = [] := by
    refine List.eq_nil_iff_forall_not_mem.2 fun b hb => ?_
    -- a successor would come later still
    have hpred : g.predecessors b ≠ [] := List.ne_nil_of_mem (mem_predecessors_iff.2 hb)
    exact hlast ⟨b, (mem_nodes_of_mem_successors hb).2⟩ hpred (.single hb)
  rw [hnone, Bool.and_eq_true]
  exact ⟨by simpa using hn, rfl⟩

/-- Without an edge nothing is led to. -/
theorem sinks_eq_nil (h : g.edges = []) : g.sinks = [] := by
  simp [sinks, predecessors, h]

/-- **`outputs`** has a node if and only if there is an edge, where there is no cycle. -/
theorem outputs_eq_nil_iff {g : Graph Node} (h : Acyclic fun a b => b ∈ g.successors a) :
    g.outputs = [] ↔ g.edges = [] := by
  -- outputs are the sinks, sorted
  have hsinks : g.outputs = [] ↔ g.sinks = [] := by
    unfold outputs
    rw [← List.length_eq_zero_iff, List.length_mergeSort, List.length_eq_zero_iff]
  rw [hsinks]
  refine ⟨fun hnone => ?_, sinks_eq_nil⟩
  by_contra hedges
  obtain ⟨n, hn⟩ := exists_mem_sinks h hedges
  rw [hnone] at hn
  cases hn

end Graph

namespace FlowGraph

variable {f : FlowGraph} {p : DefUse}

/-! ### Ways of control -/

/-- The flow that was discovered: between places, without the steps that bound them. -/
def Discovered (f : FlowGraph) (a b : Node) : Prop := a ∈ f.places ∧ b ∈ f.places ∧ f.Flows a b

namespace Bounded

variable (h : Bounded f)

include h

theorem not_flows_exit (b : Node) : ¬ f.Flows f.exit b := by
  intro hb
  rw [Flows, h.exit_last] at hb
  cases hb

/-- No way starts at Exit. -/
theorem not_transGen_exit (b : Node) : ¬ TransGen f.Flows f.exit b := by
  intro hway
  obtain ⟨c, hc, -⟩ := TransGen.head'_iff.1 hway
  exact h.not_flows_exit c hc

/-- No way ends at Entry. -/
theorem not_transGen_entry (a : Node) : ¬ TransGen f.Flows a f.entry := by
  intro hway
  obtain ⟨c, -, hc⟩ := TransGen.tail'_iff.1 hway
  exact h.entry_first c hc

/-- A node in the midst of a way is a place. -/
theorem mem_places_of_flows {a b c : Node} (hab : f.Flows a b) (hbc : f.Flows b c) :
    b ∈ f.places := by
  have hb : b ∈ f.nodes := (Graph.mem_nodes_of_mem_successors hab).2
  refine mem_places.2 ⟨hb, ?_⟩
  -- Entry has nothing before it, and Exit nothing after it
  by_contra hmarker
  obtain rfl | rfl := h.marker b hb (by simpa using hmarker)
  · exact h.entry_first a hab
  · exact h.not_flows_exit c hbc

/-- **A way between places** was discovered, step by step. -/
theorem discovered_of_flows {a b : Node} (hway : TransGen f.Flows a b) (ha : a ∈ f.places)
    (hb : b ∈ f.places) : TransGen f.Discovered a b := by
  -- on the first step, which arrives in the midst of the way or at its end
  induction hway using TransGen.head_induction_on with
  | single hab => exact .single ⟨ha, hb, hab⟩
  | head hac hcb ih =>
    obtain ⟨d, hcd, -⟩ := TransGen.head'_iff.1 hcb
    have hc := h.mem_places_of_flows hac hcd
    exact .head ⟨ha, hc, hac⟩ (ih hc)

/-- A cycle of control is one of `Discovered`: none passes through a marker. -/
theorem acyclic_flows (hacyclic : Acyclic f.Discovered) : Acyclic f.Flows := by
  intro n hway
  obtain ⟨a, -, ha⟩ := TransGen.tail'_iff.1 hway
  obtain ⟨b, hb, -⟩ := TransGen.head'_iff.1 hway
  have hn := h.mem_places_of_flows ha hb
  exact hacyclic n (h.discovered_of_flows hway hn hn)

/-- **Steps of `Completed` that are not of `Flows`** lead to Exit only, so they are on no way to
another node `n`. -/
theorem flows_of_completed {s n : Node} (hway : ReflTransGen f.Completed s n) (hn : n ≠ f.exit) :
    ReflTransGen f.Flows s n := by
  induction hway with
  | refl => exact .refl
  | @tail x y _ hstep ih =>
    obtain hflow | ⟨-, rfl⟩ := hstep
    · have hx : x ≠ f.exit := by
        rintro rfl
        exact h.not_flows_exit y hflow
      exact (ih hx).tail hflow
    · exact absurd rfl hn

/-! ### Ways of dependence -/

/-- Exit depends on no decision: every way comes to it. -/
theorem controlDependent_ne_exit {c n : Node}
    (hc : ControlDependent f.Flows f.Completed f.exit c n) : n ≠ f.exit := by
  rintro rfl
  obtain ⟨-, s, hs, -, -, hnot⟩ := hc
  have hsure : PostDominates f.Completed f.exit f.exit c := fun q hq => hq.last_mem
  have hc : c = f.exit := by
    by_contra hne
    exact hnot ⟨hsure, Ne.symm hne⟩
  exact h.not_flows_exit s (hc ▸ hs)

/-- **A decision `c` comes before** what depends on it. -/
theorem transGen_of_controlDependent {c n : Node}
    (hc : ControlDependent f.Flows f.Completed f.exit c n) : TransGen f.Flows c n := by
  have hn := h.controlDependent_ne_exit hc
  obtain ⟨-, s, hs, -, hsure, -⟩ := hc
  -- some completed way leads from the successor to Exit, and the node is on it
  have hmem := (Graph.mem_nodes_of_mem_successors hs).2
  obtain ⟨q, hq⟩ := exists_path_iff.2 (completed_reaches_exit h hmem)
  obtain ⟨q', hq'⟩ := hq.upTo (hsure q hq)
  have hway : ReflTransGen f.Completed s n := exists_path_iff.1 ⟨q', hq'.1⟩
  exact .head' hs (h.flows_of_completed hway hn)

end Bounded

/-- **A definition `d` comes before** what it supplies. -/
theorem Supplies.transGen {d n : Node} {v : Value} (h : f.Supplies p d n v) :
    TransGen f.Flows d n := by
  obtain ⟨-, -, interior, hpath, -⟩ := h
  -- the path has at least two nodes, so it starts with a step
  generalize hq : d :: (interior ++ [n]) = q at hpath
  cases hpath with
  | here => simp at hq
  | step first rest => exact .head' first (exists_path_iff.1 ⟨_, rest⟩)

/-- **What bears on `b` comes before it.** -/
theorem BearsOn.transGen (hf : Bounded f) {a b : Node} (h : f.BearsOn p a b) :
    TransGen f.Flows a b := by
  obtain hcontrol | ⟨-, v, hdata⟩ := h
  · exact hf.transGen_of_controlDependent hcontrol
  · exact hdata.transGen

/-- Nothing bears on Exit. -/
theorem BearsOn.ne_exit (hf : Bounded f) {a b : Node} (h : f.BearsOn p a b) : b ≠ f.exit := by
  obtain hcontrol | ⟨-, v, hdata⟩ := h
  · exact hf.controlDependent_ne_exit hcontrol
  · exact (ne_markers_of_mem_places hdata.mem_places).2

/-- Where no instruction stands twice, a cycle of `Discovered` is one of the transitions. -/
theorem Outline.acyclic_discovered {stream : List (Option Instruction)}
    {transitions : List (ℕ × ℕ)} (h : Outline stream transitions f)
    (hacyclic : Acyclic fun i j => (i, j) ∈ transitions) : Acyclic f.Discovered := by
  apply hacyclic.of_ways fun n => n.point.index
  intro a b hab
  obtain ⟨ha, hb, hflow⟩ := hab
  have hpos := (h.mem_successors_iff (mem_places.1 ha).1 (mem_places.1 hb).1).1 hflow
  rw [(h.position_of_mem_places ha).1, (h.position_of_mem_places hb).1] at hpos
  exact .single (List.count_pos_iff.1 hpos)

end FlowGraph

/-! ### Analyses -/

/-- **Dependence follows the flow.** Every edge of the combined graph leads from a node to one that
control can pass to; Exit is the end of no edge, and Entry is led to by none. So a slice holds only
nodes from which control can pass to the node that it is about. Where no cycle was discovered,
dependence has none, no node is in its own slice, and there are outputs if and only if there is data
dependence. Transitions without a cycle are enough for this if no instruction stands twice. -/
theorem Analysis.dependence_follows_flow {m : Method} {o : Options} {a : Analysis}
    (ha : (start m o).result = .ok a ∨ (eager m o).result = .ok a)
    (hp : m.toDefUse.Answers a.flow) :
    ∃ d g outputs, (Query.data a).2.result = .ok d ∧ (Query.combined a).2.result = .ok g ∧
      (Query.outputs a).2.result = .ok outputs ∧
      (∀ e ∈ g.edges, TransGen a.flow.Flows e.source e.target ∧ e.source ≠ a.flow.exit ∧
        e.target ≠ a.flow.exit ∧ e.target ≠ a.flow.entry) ∧
      (∀ n ∈ a.flow.nodes, ∃ s, (Query.slice (some n) a).2.result = .ok s ∧
        ∀ x ∈ s.transitive, TransGen a.flow.Flows x n) ∧
      (Acyclic a.flow.Discovered →
        (Acyclic fun x y => y ∈ g.successors x) ∧
        (∀ n ∈ a.flow.nodes, ∀ s, (Query.slice (some n) a).2.result = .ok s → n ∉ s.transitive) ∧
        (outputs = [] ↔ d.edges = [])) ∧
      ∀ stream pairs transitions, m.discover.result = .ok (stream, pairs) →
        FlowGraph.endpoints stream.length pairs = .ok transitions → stream.Nodup →
        Acyclic (fun i j => (i, j) ∈ transitions) → Acyclic a.flow.Discovered := by
  obtain ⟨hfaithful, rfl, hbuild⟩ := faithful_of_opened ha
  have hf := FlowGraph.bounded_of_build hbuild
  obtain ⟨c, d, g, hc, hd, hg, -, -, hedges⟩ := FlowGraph.combine_spec hf hp
  obtain ⟨d', hd', -, -, hdata, -⟩ := FlowGraph.dataDependence_spec hp
  cases hd.symm.trans hd'
  have hbuilt : Derived.data.built a.subject = .ok d := hd
  have hcombined : Derived.combined.built a.subject = .ok g :=
    (Derived.built_combined (s := a.subject) hc hbuilt).trans hg
  have hslice : ∀ n ∈ a.flow.nodes, ∃ s, (Query.slice (some n) a).2.result = .ok s ∧
      ∀ x ∈ s.transitive, TransGen a.flow.Flows x n := by
    intro n hn
    obtain ⟨s, hs, -, -, hmem⟩ := Query.slice_yields hfaithful hf hp hn
    refine ⟨s, hs.result, fun x hx => ?_⟩
    -- each step of dependence is a way of control
    exact ((hmem x).1 hx).lift' id fun x y hxy => hxy.transGen hf
  refine ⟨d, g, d.outputs, ?_, ?_, (Query.outputs_yields hfaithful hbuilt).result, ?_, hslice, ?_,
    ?_⟩
  · rw [(Query.data_yields hfaithful).result, hbuilt]
  · rw [(Query.combined_yields hfaithful).result, hcombined]
  · intro e he
    have hbears := (hedges e.source e.target).1 (Graph.mem_successors.2 ⟨e, he, rfl, rfl⟩)
    have hway := hbears.transGen hf
    -- a way of control neither leaves Exit nor comes to Entry
    refine ⟨hway, fun heq => ?_, hbears.ne_exit hf, fun heq => ?_⟩
    · exact hf.not_transGen_exit _ (heq ▸ hway)
    · exact hf.not_transGen_entry _ (heq ▸ hway)
  · intro hacyclic
    have hflows := hf.acyclic_flows hacyclic
    refine ⟨?_, ?_, ?_⟩
    · exact hflows.of_ways id fun x y hxy => ((hedges x y).1 hxy).transGen hf
    · intro n hn s hs hmem
      obtain ⟨s', hs', hways⟩ := hslice n hn
      cases hs.symm.trans hs'
      exact hflows n (hways n hmem)
    · apply Graph.outputs_eq_nil_iff
      refine hflows.of_ways id fun x y hxy => ?_
      obtain ⟨-, v, hsupplies⟩ := (hdata x y).1 hxy
      exact hsupplies.transGen
  · intro stream pairs transitions hfound hends hdistinct hacyclic
    exact (FlowGraph.outline_of_build hbuild hfound hends hdistinct).acyclic_discovered hacyclic

/-- Two ways that part and meet again: one of them sets the variable that is used where they
meet. -/
def Listing.meeting : Listing where
  name := .text "meeting"
  instructions := (List.range 4).map fun i => some { ident := i, text := "", shown := "" }
  transitions := [.tuple [.int 0, .int 1], .tuple [.int 0, .int 2], .tuple [.int 1, .int 3],
    .tuple [.int 2, .int 3]]
  definitions := .ofList [(.int 1, result)]
  uses := .ofList [(.int 3, result)]
where result : ValueSet := ValueSet.empty.insert ⟨.text "x", Value.unhashable?_text "x"⟩

/-- Where ways only meet and never turn back, dependence has no cycle. -/
theorem Analysis.dependence_follows_flow_meeting :
    ∃ a d g outputs, (start Listing.meeting.method default).result = .ok a ∧
      Listing.meeting.method.toDefUse.Answers a.flow ∧ (Query.data a).2.result = .ok d ∧
      (Query.combined a).2.result = .ok g ∧ (Query.outputs a).2.result = .ok outputs ∧
      (Acyclic fun x y => y ∈ g.successors x) ∧ (outputs = [] ↔ d.edges = []) := by
  have hfound : Listing.meeting.method.discover.result = .ok (Listing.meeting.instructions,
      [(.int 0, .int 1), (.int 0, .int 2), (.int 1, .int 3), (.int 2, .int 3)]) := rfl
  have hends : FlowGraph.endpoints Listing.meeting.instructions.length
      [(.int 0, .int 1), (.int 0, .int 2), (.int 1, .int 3), (.int 2, .int 3)] =
        .ok [(0, 1), (0, 2), (1, 3), (2, 3)] := rfl
  obtain ⟨f, hbuild⟩ := FlowGraph.exists_build 0 .none hfound hends
  have hstart : (start Listing.meeting.method default).result = .ok _ :=
    start_eq_ok.2 ⟨f, hbuild, rfl⟩
  have hanswers := Listing.answers hbuild
  obtain ⟨d, g, outputs, hd, hg, houtputs, -, -, hacyclic, hlink⟩ :=
    dependence_follows_flow (.inl hstart) hanswers
  have hforward : ∀ i j : ℕ, (i, j) ∈ [(0, 1), (0, 2), (1, 3), (2, 3)] → i < j := by
    intro i j hmem
    have hall : ∀ t ∈ [(0, 1), (0, 2), (1, 3), (2, 3)], t.1 < t.2 := by decide
    exact hall (i, j) hmem
  obtain ⟨hcombined, -, houts⟩ :=
    hacyclic (hlink _ _ _ hfound hends (by decide) (acyclic_of_lt hforward))
  exact ⟨_, d, g, outputs, hstart, hanswers, hd, hg, houtputs, hcombined, houts⟩

end Dependence
