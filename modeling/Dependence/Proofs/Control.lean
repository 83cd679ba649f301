import Dependence.Control.Basic
import Dependence.Proofs.Digraph.Roots
import Dependence.Proofs.Dominance.Tree
import Dependence.Proofs.Flow.Build
import Mathlib.Data.List.TakeWhile

/-!
# Control dependence is exact

Post-dominators are dominators of the reversed flow, seen from Exit. Code that never reaches Exit
has none; the crawl against the flow takes nodes of it as extra roots, which is to say that they are
taken to lead to Exit (`FlowGraph.Completed`). On the completed flow every node reaches Exit, and
the map that is computed is the one of its paths (`FlowGraph.postDominators_spec`).

The dependents of a controller are met on the ways up from its successors, as far as its own
immediate post-dominator. This post-dominates each successor, so each way up does come to it, and
what lies before it are the post-dominators of the successor that are not strict post-dominators of
the controller (`FlowGraph.mem_dependents_iff`).

* `ControlDependent` — control dependence, said with paths;
* `FlowGraph.controlDependence_exact` — the graph has exactly these pairs as edges, each once.
-/

namespace Dependence

open Relation

/-- **Control dependence** of `n` on the controller `c`. The controller has several ways to go on.
On one of them `n` is sure to come before the exit; on the whole it is not, unless it is `c` itself.
Whether a node is sure to come is asked of a completion of the flow. -/
def ControlDependent {α : Type} (flows completed : α → α → Prop) (exit c n : α) : Prop :=
  (∃ s t, flows c s ∧ flows c t ∧ s ≠ t) ∧
    ∃ s, flows c s ∧ s ≠ c ∧ PostDominates completed exit n s ∧
      ¬ (PostDominates completed exit n c ∧ n ≠ c)

/-- A list without repetition has two members just if it has two different ones. -/
theorem exists_ne_iff_two_le_length {α : Type} {l : List α} (h : l.Nodup) :
    (∃ a b, a ∈ l ∧ b ∈ l ∧ a ≠ b) ↔ 2 ≤ l.length := by
  match l with
  | [] => simp
  | [a] => simp
  | a :: b :: rest =>
    have hne : a ≠ b := fun heq => (List.nodup_cons.1 h).1 (heq ▸ List.mem_cons_self)
    simp only [List.length_cons, Nat.le_add_left, iff_true]
    exact ⟨a, b, List.mem_cons_self, List.mem_cons_of_mem _ List.mem_cons_self, hne⟩

namespace Graph

variable {ν : Type} [DecidableEq ν] {g : Graph ν}

/-- `successorMap` has a row for each node, in the order of the nodes. -/
theorem entries_successorMap (g : Graph ν) :
    g.successorMap.entries = g.nodes.map fun n => (n, g.successors n) :=
  OrderedMap.entries_ofList (List.pairwise_map.2 (g.nodup.imp fun h => beq_eq_false_iff_ne.2 h))

/-- `successorMap` has the nodes as keys. -/
theorem mem_keys_successorMap {n : ν} : n ∈ g.successorMap.keys ↔ n ∈ g.nodes := by
  simp [OrderedMap.keys, entries_successorMap]

/-- `successorMap` leads where the edges lead. -/
theorem leads_successorMap {a b : ν} : g.successorMap.Leads a b ↔ b ∈ g.successors a := by
  rw [Digraph.leads_iff, entries_successorMap]
  constructor
  · rintro ⟨row, hrow, ha, hb⟩
    obtain ⟨n, -, rfl⟩ := List.mem_map.1 hrow
    obtain rfl := eq_of_beq ha
    exact List.contains_iff_mem.1 hb
  · intro hb
    refine ⟨(a, g.successors a), List.mem_map.2 ⟨a, ?_, rfl⟩, BEq.rfl, List.contains_iff_mem.2 hb⟩
    exact (mem_nodes_of_mem_successors hb).1

/-- The crawl against the edges, from `exit`, by which `Digraph.postDominators` numbers the nodes.
-/
def crawlBack (g : Graph ν) (exit : ν) : Digraph.Crawl ν := g.successorMap.transpose.crawl exit

end Graph

namespace FlowGraph

variable {f : FlowGraph}

/-- Control passes from `a` to `b`, along an edge. -/
def Flows (f : FlowGraph) (a b : Node) : Prop := b ∈ f.successors a

/-- The flow against its direction, as `postDominators` crawls it from Exit. -/
def reversed (f : FlowGraph) : Digraph Node := f.successorMap.transpose

/-- The nodes that the crawl takes to lead to Exit, for the code that does not. -/
def extraRoots (f : FlowGraph) : List Node := (f.crawlBack f.exit).extraRoots

/-- The flow, with the extra roots led to Exit. -/
def Completed (f : FlowGraph) (a b : Node) : Prop := f.Flows a b ∨ a ∈ f.extraRoots ∧ b = f.exit

/-! ### Post-dominators -/

/-- `reversed` leads against the flow. -/
theorem leads_reversed {a b : Node} : f.reversed.Leads b a ↔ f.Flows a b :=
  Digraph.leads_transpose.trans Graph.leads_successorMap

/-- What the crawl goes along (`Digraph.Attached`) is `Completed` against its direction. -/
theorem attached_reversed {a b : Node} :
    f.reversed.Attached f.exit (f.reversed.crawl f.exit) b a ↔ f.Completed a b := by
  rw [Digraph.Attached, leads_reversed, Completed, beq_iff_eq, List.contains_iff_mem, extraRoots]
  exact or_congr_right And.comm

/-- Dominators of what the crawl goes along are post-dominators of `Completed`. -/
theorem dominates_reversed {a b : Node} :
    Dominates (f.reversed.Attached f.exit (f.reversed.crawl f.exit)) f.exit a b ↔
      PostDominates f.Completed f.exit a b := by
  have hsame : f.reversed.Attached f.exit (f.reversed.crawl f.exit) = fun x y => f.Completed y x :=
    funext₂ fun x y => propext attached_reversed
  rw [postDominates_iff, hsame]

/-- `reversed` has the nodes of the flow graph as keys. -/
theorem mem_keys_reversed {n : Node} : n ∈ f.reversed.keys ↔ n ∈ f.nodes := by
  rw [OrderedMap.mem_keys_iff_contains, reversed, Digraph.contains_transpose,
    ← OrderedMap.mem_keys_iff_contains, Graph.mem_keys_successorMap]
  refine ⟨fun h => h.elim id ?_, .inl⟩
  -- a key that came from a row is the target of an edge
  rintro ⟨a, ha⟩
  exact (Graph.mem_nodes_of_mem_successors (Graph.leads_successorMap.1 ha)).2

theorem mem_nodes_of_mem_extraRoots {r : Node} (h : r ∈ f.extraRoots) : r ∈ f.nodes :=
  mem_keys_reversed.1 ((Digraph.crawl_spec f.reversed f.exit).roots r h).1

/-- The nodes of the flow graph are those that the crawl lists. -/
theorem mem_order_iff (h : Bounded f) {n : Node} :
    n ∈ (f.reversed.crawl f.exit).order ↔ n ∈ f.nodes := by
  have hcovers := Digraph.crawl_spec f.reversed f.exit
  constructor
  · intro hn
    -- a node of the order is Exit, or it leads to the node from which it was met
    rcases hcovers.parent n hn with rfl | ⟨u, hu, -⟩
    · exact h.exit_mem
    · rcases attached_reversed.1 hu with hflow | ⟨hroot, -⟩
      · exact (Graph.mem_nodes_of_mem_successors hflow).1
      · exact mem_nodes_of_mem_extraRoots hroot
  · intro hn
    exact List.contains_iff_mem.1 (hcovers.keys n (mem_keys_reversed.2 hn))

/-- `d` has the immediate post-dominators of `f`: its map climbs the post-dominators of `Completed`.
-/
abbrev PostClimbs (f : FlowGraph) (d : Dominators Node) : Prop :=
  Climbs d.idoms (PostDominates f.Completed f.exit) (· ∈ f.nodes)
    (Digraph.number (f.crawlBack f.exit).order)

/-- **`postDominators`** does not fail, and its map is the one of the paths to Exit. -/
theorem postDominators_spec (h : Bounded f) : ∃ d, f.postDominators = .ok d ∧ f.PostClimbs d := by
  obtain ⟨d, hd, hclimbs⟩ := Digraph.dominators_spec f.reversed f.exit
  have hdom : Dominates (f.reversed.Attached f.exit (f.reversed.crawl f.exit)) f.exit =
      PostDominates f.Completed f.exit := funext₂ fun a b => propext dominates_reversed
  -- a flow graph that is bounded has no nodes but those of the crawl
  have hinside : (· ∈ (f.reversed.crawl f.exit).order) = (· ∈ f.nodes) :=
    funext fun n => propext (mem_order_iff h)
  rw [hdom, hinside] at hclimbs
  exact ⟨d, hd, hclimbs⟩

/-- A post-dominator of a node is a node. -/
theorem mem_nodes_of_postDominates (h : Bounded f) {a n : Node} (hn : n ∈ f.nodes)
    (hdom : PostDominates f.Completed f.exit a n) : a ∈ f.nodes := by
  rw [← mem_order_iff h] at hn ⊢
  exact (Digraph.crawl_spec f.reversed f.exit).mem_of_dominates hn (dominates_reversed.2 hdom)

/-- **`extraRoots`** are the nodes that reach neither Exit nor a node before them. -/
theorem mem_extraRoots_iff {r : Node} :
    r ∈ f.extraRoots ↔
      Uncovered (fun s r => ReflTransGen f.Flows r s) f.exit f.reversed.keys r := by
  have hcovers : ReflTransGen f.reversed.Leads = fun s r => ReflTransGen f.Flows r s := by
    have hswap : f.reversed.Leads = Function.swap f.Flows :=
      funext₂ fun a b => propext leads_reversed
    funext s r
    rw [hswap]
    exact propext reflTransGen_swap
  rw [← hcovers]
  exact Digraph.mem_extraRoots_crawl

/-- **Where every node reaches Exit**, there are no extra roots. -/
theorem extraRoots_eq_nil (hreach : ∀ n ∈ f.nodes, ReflTransGen f.Flows n f.exit) :
    f.extraRoots = [] := by
  refine List.eq_nil_iff_forall_not_mem.2 fun r hr => ?_
  -- an extra root does not reach Exit
  obtain ⟨before, after, -, hnew⟩ := mem_extraRoots_iff.1 hr
  exact hnew f.exit List.mem_cons_self (hreach r (mem_nodes_of_mem_extraRoots hr))

/-- Without extra roots, `Completed` is the flow itself. -/
theorem completed_of_extraRoots_eq_nil (h : f.extraRoots = []) : f.Completed = f.Flows := by
  funext a b
  simp [Completed, h]

/-! ### Dependents -/

/-- An edge of the flow hands strict post-dominators of its source to its target. -/
theorem postDominates_of_flows {a c s : Node} (h : PostDominates f.Completed f.exit a c)
    (hne : a ≠ c) (hflow : f.Flows c s) : PostDominates f.Completed f.exit a s := by
  rw [postDominates_iff] at h ⊢
  exact h.of_step hne (.inl hflow)

section Dependents

variable {d : Dominators Node} (hd : f.PostClimbs d) {c : Node} (hc : c ∈ f.nodes)

include hd hc

/-- The strict post-dominators of a controller are those that its immediate post-dominator has; one
that has none is post-dominated by itself only. -/
theorem strict_postDominates_iff {n : Node} :
    (PostDominates f.Completed f.exit n c ∧ n ≠ c) ↔
      ∃ stop, d.idoms.find? c = some stop ∧ PostDominates f.Completed f.exit n stop := by
  cases hfind : d.idoms.find? c with
  | none =>
    -- nothing lies above `c`
    have htop := hd.top c hc hfind n
    simp [htop]
  | some stop =>
    obtain ⟨-, -, hself, hup⟩ := hd.up c stop hc hfind
    -- `hup` says what post-dominates `c`: `c` itself, and what post-dominates `stop`
    rw [hup]
    constructor
    · rintro ⟨heq | hstop, hne⟩
      · exact absurd heq hne
      · exact ⟨stop, rfl, hstop⟩
    · rintro ⟨stop', heq, hstop⟩
      cases heq
      exact ⟨.inr hstop, fun heq => hself (heq ▸ hstop)⟩

/-- **`climbTo`** goes from a successor `s` up to the immediate post-dominator of the controller
`c`. -/
theorem mem_climbTo_iff {n s : Node} (hs : f.Flows c s) :
    n ∈ climbTo d (d.idoms.find? c) s ↔
      PostDominates f.Completed f.exit n s ∧
        ¬ (PostDominates f.Completed f.exit n c ∧ n ≠ c) := by
  have hsmem : s ∈ f.nodes := (Graph.mem_nodes_of_mem_successors hs).2
  rw [strict_postDominates_iff hd hc, climbTo]
  cases hfind : d.idoms.find? c with
  | none =>
    -- nothing to stop at: the whole way up
    rw [List.takeWhile_eq_self_iff.2 (by simp), hd.mem_ancestors hsmem]
    simp
  | some stop =>
    -- the stop is on the way: it post-dominates the successor too
    obtain ⟨hstop, -, hself, hup⟩ := hd.up c stop hc hfind
    have hne : stop ≠ c := fun heq => hself (heq ▸ hd.refl hstop)
    have hway : PostDominates f.Completed f.exit stop s :=
      postDominates_of_flows ((hup stop).2 (.inr (hd.refl hstop))) hne hs
    have hpred : (fun r => some r != some stop) = (· != stop) := by
      funext r
      simp [bne, Option.some_beq_some]
    rw [hpred, hd.mem_takeWhile_ancestors hsmem hway]
    simp

/-- A successor that post-dominates the controller is of no use: what post-dominates it strictly
post-dominates the controller. -/
theorem strict_of_postDominates {n s : Node} (hne : s ≠ c)
    (hsc : PostDominates f.Completed f.exit s c) (hns : PostDominates f.Completed f.exit n s) :
    PostDominates f.Completed f.exit n c ∧ n ≠ c := by
  refine ⟨hd.trans n s c hns hsc, ?_⟩
  rintro rfl
  exact hne (hd.antisymm hc hsc hns)

/-- **`dependents`** of a controller are the nodes that are control dependent on it. -/
theorem mem_dependents_iff {n : Node} :
    n ∈ f.dependents d c ↔ ControlDependent f.Flows f.Completed f.exit c n := by
  have hseveral : (∃ s t, f.Flows c s ∧ f.Flows c t ∧ s ≠ t) ↔ ¬ (f.successors c).length < 2 := by
    rw [Nat.not_lt, ← exists_ne_iff_two_le_length (f.nodup_successors c)]
    simp only [Flows, exists_and_left]
  rw [ControlDependent, hseveral, dependents]
  -- a node with one way to go on controls nothing
  by_cases hfew : (f.successors c).length < 2
  · simp [hfew]
  rw [if_neg hfew, List.mem_eraseDups, List.mem_flatMap]
  refine ⟨?_, ?_⟩
  · rintro ⟨s, hs, hn⟩
    obtain ⟨hflow, hundecided⟩ := List.mem_filter.1 hs
    rw [mem_climbTo_iff hd hc hflow] at hn
    refine ⟨hfew, s, hflow, ?_, hn⟩
    -- `s = c` was filtered out, since a node post-dominates itself
    rintro rfl
    simp [(hd.dominates_iff hc).2 (hd.refl hc)] at hundecided
  · rintro ⟨-, s, hflow, hne, hn⟩
    refine ⟨s, List.mem_filter.2 ⟨hflow, ?_⟩, (mem_climbTo_iff hd hc hflow).2 hn⟩
    rw [Bool.not_eq_true', ← Bool.not_eq_true, hd.dominates_iff hc]
    exact fun hsc => hn.2 (strict_of_postDominates hd hc hne hsc hn.1)

end Dependents

theorem nodup_dependents (f : FlowGraph) (d : Dominators Node) (c : Node) :
    (f.dependents d c).Nodup := by
  simp only [dependents]
  split
  · exact List.nodup_nil
  · exact nodup_eraseDups _

/-! ### The graph -/

/-- `controllers` are all the nodes. -/
theorem mem_controllers (h : Bounded f) {n : Node} : n ∈ f.controllers ↔ n ∈ f.nodes := by
  simp only [controllers, List.cons_append, List.mem_cons, List.mem_append, mem_places,
    List.not_mem_nil, or_false]
  constructor
  · rintro (rfl | ⟨hn, -⟩ | rfl)
    · exact h.entry_mem
    · exact hn
    · exact h.exit_mem
  · intro hn
    by_cases hmarker : n.isMarker = true
    · exact (h.marker n hn hmarker).imp_right .inr
    · exact .inr (.inl ⟨hn, eq_false_of_ne_true hmarker⟩)

/-- No node is a controller twice: Entry comes first, Exit last, the places in between. -/
theorem nodup_controllers (f : FlowGraph) : f.controllers.Nodup := by
  have hne : f.entry ≠ f.exit := by simp [entry, exit, NodeTable.entry, NodeTable.exit]
  have hplaces : ∀ n ∈ f.places, n ≠ f.entry ∧ n ≠ f.exit := fun n => ne_markers_of_mem_places
  rw [controllers, List.cons_append, List.nodup_cons, List.mem_append, List.nodup_append]
  refine ⟨?_, f.nodup_places, List.nodup_singleton _, ?_⟩
  · rintro (h | h)
    · exact (hplaces _ h).1 rfl
    · exact hne (List.mem_singleton.1 h)
  · intro a ha b hb
    obtain rfl := List.mem_singleton.1 hb
    exact (hplaces a ha).2

/-- The edges that `addDependents` adds for the controller `c`. -/
def controlArcs (f : FlowGraph) (d : Dominators Node) (c : Node) : List (Arc Node) :=
  (f.dependents d c).map fun n => (c, n, .empty)

/-- **`addDependents`** adds an edge from the controller to each of its dependents. -/
theorem addDependents_spec {d : Dominators Node} {g : Graph Node} {c : Node}
    (hnodes : g.nodes = f.nodes) (hc : c ∈ f.nodes) (hdep : ∀ n ∈ f.dependents d c, n ∈ f.nodes) :
    ∃ g', (f.addDependents d g c).result = .ok g' ∧ Graph.Extends g (f.controlArcs d c) g' := by
  have hmember : f.dependentsOf d (some c) = .ok (f.dependents d c) := by
    rw [dependentsOf, Graph.member, if_pos (List.contains_iff_mem.2 hc)]
    rfl
  rw [addDependents, hmember, controlArcs]
  generalize f.dependents d c = found at hdep
  -- a controller without dependents is passed over, and is not logged
  cases found with
  | nil => exact ⟨g, rfl, .refl g⟩
  | cons n rest =>
    simp only [Outcome.result_bind, Outcome.result_write, Outcome.result_liftM_fault, liftM_ok,
      ok_bind, Outcome.result_foldlM]
    rw [List.map_eq_flatMap]
    refine Graph.foldlM_extends _ _ _ fun m hm g' hg' => ?_
    obtain ⟨g'', hadd, hext⟩ := Graph.addEdge_spec (g := g') (s := c) (t := m)
      (by rw [hg', hnodes]; exact hc) (by rw [hg', hnodes]; exact hdep m hm) .empty
    exact ⟨g'', by rw [hadd]; rfl, hext⟩

/-- **The edges of `controlDependenceWith`**, controller by controller. -/
theorem controlDependenceWith_spec (h : Bounded f) {d : Dominators Node} (hd : f.PostClimbs d) :
    ∃ g, (f.controlDependenceWith d).result = .ok g ∧ g.nodes = f.nodes ∧
      g.edges.map Edge.arc = f.controllers.flatMap (f.controlArcs d) := by
  obtain ⟨hnodes, hedges⟩ := Graph.nodes_ofNodes (.text "cdg") f.nodup
  have hsteps := Graph.foldlM_extends (fun g c => (f.addDependents d g c).result)
    (f.controlArcs d) f.controllers (g := Graph.ofNodes (.text "cdg") f.nodes) fun c hc g hg => by
      -- dependents post-dominate a successor of the controller, so they are nodes
      have hcmem := (mem_controllers h).1 hc
      refine addDependents_spec (hg.trans hnodes) hcmem fun n hn => ?_
      obtain ⟨-, s, hflow, -, hns, -⟩ := (mem_dependents_iff hd hcmem).1 hn
      exact mem_nodes_of_postDominates h (Graph.mem_nodes_of_mem_successors hflow).2 hns
  obtain ⟨g, hg, hext⟩ := hsteps
  refine ⟨g, ?_, hext.nodes.trans hnodes, ?_⟩
  · rw [controlDependenceWith, Outcome.result_foldlM]
    exact hg
  · rw [hext.arcs, hedges]
    rfl

/-- **`controlDependence`** does not fail: the graph has an edge for each pair of a controller and a
node that is control dependent on it, and no parallel edges. -/
theorem controlDependence_spec (h : Bounded f) :
    ∃ g, f.controlDependence.result = .ok g ∧ g.nodes = f.nodes ∧ g.Simple ∧
      ∀ c n, n ∈ g.successors c ↔ ControlDependent f.Flows f.Completed f.exit c n := by
  obtain ⟨d, hd, hclimbs⟩ := postDominators_spec h
  obtain ⟨g, hg, hnodes, harcs⟩ := controlDependenceWith_spec h hclimbs
  refine ⟨g, ?_, hnodes, ?_, fun c n => ?_⟩
  · simp only [controlDependence, analyseControl, Outcome.result_bind, Outcome.result_liftM_fault,
      Outcome.result_pure, hd, liftM_ok, ok_bind, hg]
  · -- an edge is in the group of its source, where each dependent stands once
    refine Graph.simple_of_groups Prod.fst harcs f.nodup_controllers (fun c => ?_) ?_
    · rw [controlArcs, List.map_map]
      exact (f.nodup_dependents d c).map fun m n heq => (Prod.mk.inj heq).2
    · intro c x hx
      obtain ⟨n, -, rfl⟩ := List.mem_map.1 hx
      rfl
  · rw [Graph.mem_successors_iff_arc, harcs]
    constructor
    · rintro ⟨attributes, hmem⟩
      obtain ⟨c', hc', hn⟩ := List.mem_flatMap.1 hmem
      obtain ⟨n', hn', heq⟩ := List.mem_map.1 hn
      cases heq
      exact (mem_dependents_iff hclimbs ((mem_controllers h).1 hc')).1 hn'
    · intro hdep
      obtain ⟨-, s, hflow, -⟩ := id hdep
      have hc : c ∈ f.nodes := (Graph.mem_nodes_of_mem_successors hflow).1
      exact ⟨.empty, List.mem_flatMap.2 ⟨c, (mem_controllers h).2 hc,
        List.mem_map.2 ⟨n, (mem_dependents_iff hclimbs hc).2 hdep, rfl⟩⟩⟩

/-- Along `Completed`, every node reaches Exit. -/
theorem completed_reaches_exit (h : Bounded f) {n : Node} (hn : n ∈ f.nodes) :
    ReflTransGen f.Completed n f.exit := by
  have hreach := (Digraph.crawl_spec f.reversed f.exit).reach ((mem_order_iff h).2 hn)
  exact ReflTransGen.mono (fun a b hab => attached_reversed.1 hab) _ _ hreach.swap

/-- **Control dependence is exact**, for every flow graph that was built, whatever its topology. The
graph is on the nodes of the flow graph; it has an edge from `c` to `n` just if `n` is control
dependent on `c`, by the paths of the flow completed with the extra roots of the crawl; and never
two. Where every node reaches Exit there are no extra roots, and the paths are those of the flow. -/
theorem controlDependence_exact {m : Method} {table : ℕ} {given : Value} {f : FlowGraph}
    (hbuild : (build m table given).result = .ok f) :
    ∃ g, f.controlDependence.result = .ok g ∧ g.nodes = f.nodes ∧
      (∀ c n, (∃ e ∈ g.edges, e.source = c ∧ e.target = n) ↔
        ControlDependent f.Flows f.Completed f.exit c n) ∧
      (∀ c n, (g.between c n).length ≤ 1) ∧
      (∀ n ∈ f.nodes, ReflTransGen f.Completed n f.exit) ∧
      ((∀ n ∈ f.nodes, ReflTransGen f.Flows n f.exit) →
        f.extraRoots = [] ∧ ∀ a b, PostDominates f.Completed f.exit a b ↔
          PostDominates f.Flows f.exit a b) := by
  have hbounded := bounded_of_build hbuild
  obtain ⟨g, hg, hnodes, hsimple, hedges⟩ := controlDependence_spec hbounded
  refine ⟨g, hg, hnodes, fun c n => ?_, hsimple.length_between_le,
    fun n hn => completed_reaches_exit hbounded hn, fun hreach => ?_⟩
  · rw [← hedges, Graph.mem_successors]
  · have hnil := extraRoots_eq_nil hreach
    exact ⟨hnil, fun a b => by rw [completed_of_extraRoots_eq_nil hnil]⟩

/-- The branch into a loop that never ends, with a way out beside it. -/
theorem controlDependence_exact_spin :
    ∃ f g,
      (build (Listing.ofSteps 4 [(0, 1), (1, 2), (2, 1), (0, 3)]).method 0 .none).result = .ok f ∧
      f.controlDependence.result = .ok g ∧ g.nodes = f.nodes ∧
      ∀ c n, (∃ e ∈ g.edges, e.source = c ∧ e.target = n) ↔
        ControlDependent f.Flows f.Completed f.exit c n := by
  obtain ⟨f, hf⟩ := exists_build
    (m := (Listing.ofSteps 4 [(0, 1), (1, 2), (2, 1), (0, 3)]).method) 0 .none rfl rfl
  obtain ⟨g, hg, hnodes, hedges, -⟩ := controlDependence_exact hf
  exact ⟨f, g, hf, hg, hnodes, hedges⟩

end FlowGraph

end Dependence
