import Dependence.Proofs.Combined
import Dependence.Proofs.Graph.Listing

/-!
# The combined graph loses nothing

Two graphs are combined by reading the edges of both off their listings, and adding them to a graph
without edges. A listing goes by source and target, and edges that were in different graphs become
parallel; still every edge is there as often as before. An edge is always added under a key of its
own, so the arcs of the combined graph are those of the two listings (`Graph.union_ensures`), and a
listing has the edges of its graph, up to their order (`Graph.listing_perm`).

The two kinds of edge can be told apart again by their attributes (`Graph.isOfKind`). Taking the
kind away from an edge of data dependence gives back the attributes that it had
(`Graph.without_kind_merge`).

* `FlowGraph.combine_lossless` — what can be read off a combined graph, and when there is none.
-/

namespace Dependence

namespace Graph

/-! ### Kinds of edges -/

/-- Whether `attributes` say that an edge is of the kind `kind`. -/
def isOfKind (kind : String) (attributes : Attributes) : Bool :=
  match attributes.find? "kind" with
  | some (.value (.text k)) => k == kind
  | _ => false

section Kinds

variable {attributes : Attributes} (h : attributes.contains "kind" = false)

include h

/-- `merge` puts the kind first among the attributes. -/
theorem entries_kind_merge (kind : String) :
    ((ofKind kind).merge attributes).entries =
      ("kind", .value (.text kind)) :: attributes.entries := by
  refine OrderedMap.entries_merge fun e he e' he' => eq_false_of_ne_true fun hkey => ?_
  obtain rfl := List.mem_singleton.1 he
  rw [OrderedMap.contains_iff.2 ⟨e', he', BEq.symm hkey⟩] at h
  cases h

theorem isOfKind_merge (kind kind' : String) :
    isOfKind kind ((ofKind kind').merge attributes) = (kind' == kind) := by
  rw [isOfKind, OrderedMap.find?, entries_kind_merge h]
  rfl

/-- **Taking the kind away** again gives back `attributes`. -/
theorem without_kind_merge (kind : String) :
    ((ofKind kind).merge attributes).without "kind" = attributes := by
  -- no other attribute is a kind, so only the first one goes
  have hkept : (attributes.entries.filter fun e => !(e.1 == "kind")) = attributes.entries := by
    refine List.filter_eq_self.2 fun e he => ?_
    have hkey : (e.1 == "kind") = false := eq_false_of_ne_true fun hkey => by
      rw [OrderedMap.contains_iff.2 ⟨e, he, hkey⟩] at h
      cases h
    rw [hkey]
    rfl
  apply OrderedMap.ext
  show (((ofKind kind).merge attributes).entries.filter fun e => !(e.1 == "kind")) = _
  rw [entries_kind_merge h, List.filter_cons_of_neg (by simp), hkept]

end Kinds

theorem isOfKind_ofKind (kind kind' : String) : isOfKind kind (ofKind kind') = (kind' == kind) :=
  isOfKind_merge (rfl : (OrderedMap.empty : Attributes).contains "kind" = false) kind kind'

/-! ### What is read off the union -/

variable {ν : Type} [DecidableEq ν]

/-- What `f` reads off those edges of `listing` that are of the kind `kind`, up to order. -/
theorem map_filter_listing_perm {β : Type} (g : Graph ν) (kind : String) (f : Arc ν → β) :
    ((g.listing.filter fun e => isOfKind kind e.attributes).map fun e => f e.arc).Perm
      (((g.edges.map Edge.arc).filter fun a => isOfKind kind a.2.2).map f) := by
  rw [List.filter_map, List.map_map]
  exact (g.listing_perm.filter _).map _

section Union

variable {control data u : Graph ν}
  (harcs : u.edges.map Edge.arc =
    control.listing.map (fun e => (e.source, e.target, ofKind "control")) ++
      data.listing.map fun e => (e.source, e.target, (ofKind "data").merge e.attributes))

include harcs

theorem length_edges_union : u.edges.length = control.edges.length + data.edges.length := by
  -- a listing has as many edges as its graph
  have hlength := congrArg List.length harcs
  rwa [List.length_append, List.length_map, List.length_map, List.length_map,
    control.listing_perm.length_eq, data.listing_perm.length_eq] at hlength

variable (hkind : ∀ e ∈ data.edges, e.attributes.contains "kind" = false)

include hkind

/-- The arcs of one kind are those that came from one of the graphs `control` and `data`. -/
theorem filter_arcs_union :
    ((u.edges.map Edge.arc).filter fun a => isOfKind "control" a.2.2) =
        control.listing.map (fun e => (e.source, e.target, ofKind "control")) ∧
      ((u.edges.map Edge.arc).filter fun a => isOfKind "data" a.2.2) =
        data.listing.map fun e => (e.source, e.target, (ofKind "data").merge e.attributes) := by
  have hcontrol : ∀ a ∈ control.listing.map fun e => (e.source, e.target, ofKind "control"),
      ∀ kind, isOfKind kind a.2.2 = ("control" == kind) := by
    intro a ha kind
    obtain ⟨e, -, rfl⟩ := List.mem_map.1 ha
    exact isOfKind_ofKind kind "control"
  have hdata : ∀ a ∈ data.listing.map fun e =>
      (e.source, e.target, (ofKind "data").merge e.attributes),
      ∀ kind, isOfKind kind a.2.2 = ("data" == kind) := by
    intro a ha kind
    obtain ⟨e, he, rfl⟩ := List.mem_map.1 ha
    exact isOfKind_merge (hkind e (mem_listing.1 he)) kind "data"
  -- the kinds differ, so a filter keeps one part of the arcs and drops the other
  rw [harcs, List.filter_append, List.filter_append]
  constructor
  · rw [List.filter_eq_self.2 fun a ha => hcontrol a ha "control",
      List.filter_eq_nil_iff.2 fun a ha => by rw [hdata a ha]; decide, List.append_nil]
  · rw [List.filter_eq_self.2 fun a ha => hdata a ha "data",
      List.filter_eq_nil_iff.2 fun a ha => by rw [hcontrol a ha]; decide, List.nil_append]

/-- **The edges of control dependence** are those of `control`. -/
theorem control_listing_perm :
    ((u.listing.filter fun e => isOfKind "control" e.attributes).map fun e =>
        (e.source, e.target)).Perm (control.listing.map fun e => (e.source, e.target)) := by
  have hperm := u.map_filter_listing_perm "control" fun a => (a.1, a.2.1)
  rw [(filter_arcs_union harcs hkind).1, List.map_map] at hperm
  exact hperm

/-- **The edges of data dependence**, their kind taken away, are those of `data`. -/
theorem data_listing_perm :
    ((u.listing.filter fun e => isOfKind "data" e.attributes).map fun e =>
        (e.source, e.target, e.attributes.without "kind")).Perm (data.listing.map Edge.arc) := by
  have hperm := u.map_filter_listing_perm "data" fun a => (a.1, a.2.1, a.2.2.without "kind")
  -- taking the kind away gives back the arc that was read off
  have hback : ∀ e ∈ data.listing,
      (e.source, e.target, ((ofKind "data").merge e.attributes).without "kind") = e.arc := by
    intro e he
    rw [without_kind_merge (hkind e (mem_listing.1 he)), Edge.arc]
  rw [(filter_arcs_union harcs hkind).2, List.map_map] at hperm
  exact hperm.trans (.of_eq (List.map_congr_left hback))

/-- There are no edges of another kind. -/
theorem isOfKind_of_mem_listing {e : Edge ν} (he : e ∈ u.listing) :
    isOfKind "control" e.attributes = true ∨ isOfKind "data" e.attributes = true := by
  have hmem : e.arc ∈ u.edges.map Edge.arc := List.mem_map_of_mem (mem_listing.1 he)
  obtain ⟨hcontrol, hdata⟩ := filter_arcs_union harcs hkind
  rw [harcs] at hmem
  refine (List.mem_append.1 hmem).imp (fun hmem => ?_) fun hmem => ?_
  · rw [← hcontrol] at hmem
    exact (List.mem_filter.1 hmem).2
  · rw [← hdata] at hmem
    exact (List.mem_filter.1 hmem).2

end Union

end Graph

namespace FlowGraph

/-- **The combined graph is the union of two graphs, without loss**: of any two graphs, as long as
no edge of the second one has a kind already.

If all their edges lead from node to node of the flow graph, there is a combined graph, and it has
the nodes of the flow graph. Its edges of control dependence are those of the first graph, its edges
of data dependence are, their kind taken away, those of the second, each as often as it is there,
and there are no others. So the numbers of edges add up, and a node has the neighbours that it has
in one of the two.

If some edge leads out of the flow graph, a rule is broken: the error names such an edge. -/
theorem combine_lossless (f : FlowGraph) (control data : Graph Node)
    (hkind : ∀ e ∈ data.edges, e.attributes.contains "kind" = false) :
    ((∀ e ∈ control.edges ++ data.edges, e.source ∈ f.nodes ∧ e.target ∈ f.nodes) →
      ∃ u, (f.combine control data).result = .ok u ∧ u.nodes = f.nodes ∧
        ((u.listing.filter fun e => Graph.isOfKind "control" e.attributes).map fun e =>
          (e.source, e.target)).Perm (control.listing.map fun e => (e.source, e.target)) ∧
        ((u.listing.filter fun e => Graph.isOfKind "data" e.attributes).map fun e =>
          (e.source, e.target, e.attributes.without "kind")).Perm
            (data.listing.map fun e => (e.source, e.target, e.attributes)) ∧
        (∀ e ∈ u.listing, Graph.isOfKind "control" e.attributes = true ∨
          Graph.isOfKind "data" e.attributes = true) ∧
        u.edges.length = control.edges.length + data.edges.length ∧
        ∀ n m, (m ∈ u.successors n ↔ m ∈ control.successors n ∨ m ∈ data.successors n) ∧
          (m ∈ u.predecessors n ↔ m ∈ control.predecessors n ∨ m ∈ data.predecessors n)) ∧
    ((∃ e ∈ control.edges ++ data.edges, ¬ (e.source ∈ f.nodes ∧ e.target ∈ f.nodes)) →
      ∃ c, (f.combine control data).result = .error (.fault c) ∧ c.kind = .brokenRule ∧
        ∃ e ∈ control.edges ++ data.edges, ¬ (e.source ∈ f.nodes ∧ e.target ∈ f.nodes) ∧
          c = .strayEdge e.source.shown e.target.shown (.text "pdg")) := by
  rw [result_combine]
  have hunion : Ensures (Graph.union f.nodes control data) _ _ :=
    Graph.union_ensures f.nodup hkind
  cases hresult : Graph.union f.nodes control data with
  | ok u =>
    -- no edge leads out, and all is read off the arcs
    rw [hresult] at hunion
    obtain ⟨hnodes, harcs, hwithin⟩ := hunion
    refine ⟨fun _ => ⟨u, rfl, hnodes, Graph.control_listing_perm harcs hkind,
      Graph.data_listing_perm harcs hkind, fun e => Graph.isOfKind_of_mem_listing harcs hkind,
      Graph.length_edges_union harcs, fun n m => ⟨Graph.mem_successors_union harcs, ?_⟩⟩, ?_⟩
    · simp only [Graph.mem_predecessors_iff, Graph.mem_successors_union harcs]
    · rintro ⟨e, he, hstray⟩
      exact absurd (hwithin e he) hstray
  | error c =>
    -- the edge at which it failed leads out
    rw [hresult] at hunion
    obtain ⟨e, he, hstray, rfl⟩ := hunion
    exact ⟨fun hwithin => absurd (hwithin e he) hstray,
      fun _ => ⟨_, rfl, rfl, e, he, hstray, rfl⟩⟩

end FlowGraph

/-- A graph on the two markers of a table, with two parallel edges that are labelled alike. -/
def Graph.doubled (t : NodeTable) (label : Attributes) : Graph Node where
  name := .text "doubled"
  nodes := [t.exit, t.entry]
  edges := [⟨t.entry, t.exit, .int 0, label⟩, ⟨t.entry, t.exit, .int 1, label⟩]
  nodup := by simp [NodeTable.entry, NodeTable.exit]
  ends := by simp

/-- Parallel edges of both graphs between the same nodes make four parallel edges. Edges of another
table lead out of the flow graph. -/
theorem FlowGraph.combine_lossless_doubled :
    (∃ u, ((new (.new 0) .none).combine (.doubled (.new 0) .empty)
        (.doubled (.new 0) (aboutVariables .empty))).result = .ok u ∧
      u.nodes = [(NodeTable.new 0).entry, (NodeTable.new 0).exit] ∧ u.edges.length = 4 ∧
      ((u.listing.filter fun e => Graph.isOfKind "data" e.attributes).map fun e =>
        (e.source, e.target, e.attributes.without "kind")).Perm
          (List.replicate 2
            ((NodeTable.new 0).entry, (NodeTable.new 0).exit, aboutVariables .empty))) ∧
    ∃ c, ((new (.new 0) .none).combine (.doubled (.new 0) .empty)
      (.doubled (.new 1) (aboutVariables .empty))).result = .error (.fault c) ∧
        c.kind = .brokenRule := by
  have hkind : ∀ t, ∀ e ∈ (Graph.doubled t (aboutVariables .empty)).edges,
      e.attributes.contains "kind" = false := by
    intro t e he
    obtain rfl | he := List.mem_cons.1 he
    · rfl
    · obtain rfl := List.mem_singleton.1 he
      rfl
  have hwithin : ∀ e ∈ (Graph.doubled (.new 0) .empty).edges ++
      (Graph.doubled (.new 0) (aboutVariables .empty)).edges,
      e.source ∈ (new (.new 0) .none).nodes ∧ e.target ∈ (new (.new 0) .none).nodes := by
    have hends : (NodeTable.new 0).entry ∈ (new (.new 0) .none).nodes ∧
        (NodeTable.new 0).exit ∈ (new (.new 0) .none).nodes := by decide
    simp only [Graph.doubled, List.cons_append, List.nil_append, List.forall_mem_cons, hends,
      List.not_mem_nil, false_implies, implies_true, and_self]
  obtain ⟨u, hu, hnodes, -, hdata, -, hlength, -⟩ := (combine_lossless (new (.new 0) .none)
    (.doubled (.new 0) .empty) (.doubled (.new 0) (aboutVariables .empty)) (hkind _)).1 hwithin
  obtain ⟨c, hc, hbroken, -⟩ := (combine_lossless (new (.new 0) .none)
    (.doubled (.new 0) .empty) (.doubled (.new 1) (aboutVariables .empty)) (hkind _)).2
      ⟨_, List.mem_append_right _ List.mem_cons_self, by decide⟩
  exact ⟨⟨u, hu, hnodes, hlength, hdata⟩, c, hc, hbroken⟩

end Dependence
