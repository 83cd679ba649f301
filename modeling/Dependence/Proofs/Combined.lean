import Dependence.Combined
import Dependence.Proofs.Data

/-!
# The combined graph joins what either graph joins

The listing of a graph has its edges, all of them and no others (`Graph.mem_listing`). Adding the
listings of two graphs to given nodes gives a graph with the edges of both, as long as no edge of
the second one has a kind already, and fails just if one of them leads out of the nodes
(`Graph.union_ensures`). Edges about variables have no kind, so the dependences of a flow graph can
always be combined (`FlowGraph.combine_spec`).
-/

namespace Dependence

/-- Both ends of `e` are among `nodes`. -/
def Edge.Within {ν : Type} (nodes : List ν) (e : Edge ν) : Prop :=
  e.source ∈ nodes ∧ e.target ∈ nodes

namespace Graph

variable {ν : Type} [DecidableEq ν]

theorem mem_listing {g : Graph ν} {e : Edge ν} : e ∈ g.listing ↔ e ∈ g.edges := by
  simp only [listing, outgoing, List.mem_flatMap, List.mem_filter, beq_iff_eq]
  constructor
  · rintro ⟨s, -, t, -, ⟨he, -⟩, -⟩
    exact he
  · -- an edge is listed with its source, among the edges to its target
    intro he
    exact ⟨e.source, (g.ends e he).1, e.target, mem_successors.2 ⟨e, he, rfl, rfl⟩, ⟨he, rfl⟩, rfl⟩

variable [Labelled ν]

/-- **Adding the edges `es` one by one**, each with its `label`, succeeds just if all of them lead
from node to node, and fails at one that does not. -/
theorem foldlM_addEdge_ensures (step : Graph ν → Edge ν → Except Fault (Graph ν))
    (label : Edge ν → Attributes) (es : List (Edge ν)) (g : Graph ν)
    (hstep : ∀ e ∈ es, ∀ g, step g e = g.addEdge e.source e.target (label e)) :
    Ensures (es.foldlM step g)
      (fun g' => Extends g (es.map fun e => (e.source, e.target, label e)) g' ∧
        ∀ e ∈ es, e.Within g.nodes)
      fun c => ∃ e ∈ es, ¬ e.Within g.nodes ∧
        c = .strayEdge (Labelled.shown e.source) (Labelled.shown e.target) g.name := by
  -- on the edges still to be added; the nodes stay the same, so `Within` does
  induction es generalizing g with
  | nil => exact ⟨.refl g, List.forall_mem_nil _⟩
  | cons e es ih =>
    obtain ⟨he, hes⟩ := List.forall_mem_cons.1 hstep
    rw [List.foldlM_cons, he]
    by_cases hwithin : e.Within g.nodes
    · obtain ⟨g', hadd, hext⟩ := addEdge_spec hwithin.1 hwithin.2 (label e)
      rw [hadd, ok_bind]
      refine (ih g' hes).imp (fun u hu => ?_) fun c hc => ?_
      · rw [hext.nodes] at hu
        exact ⟨hext.trans hu.1, List.forall_mem_cons.2 ⟨hwithin, hu.2⟩⟩
      · rw [hext.nodes, hext.name] at hc
        obtain ⟨e', he', hstray⟩ := hc
        exact ⟨e', List.mem_cons_of_mem e he', hstray⟩
    · -- the first edge that leads out ends it
      rw [addEdge_eq_error hwithin]
      exact ⟨e, List.mem_cons_self, hwithin, rfl⟩

/-- **`union`** of two graphs over `nodes` has the edges of the first, then those of the second,
each with its kind. It fails just if one of them leads out of the nodes. -/
theorem union_ensures {nodes : List ν} {control data : Graph ν} (hnodup : nodes.Nodup)
    (hkind : ∀ e ∈ data.edges, e.attributes.contains "kind" = false) :
    Ensures (union nodes control data)
      (fun u => u.nodes = nodes ∧
        u.edges.map Edge.arc =
          control.listing.map (fun e => (e.source, e.target, ofKind "control")) ++
            data.listing.map (fun e => (e.source, e.target, (ofKind "data").merge e.attributes)) ∧
        ∀ e ∈ control.edges ++ data.edges, e.Within nodes)
      fun c => ∃ e ∈ control.edges ++ data.edges, ¬ e.Within nodes ∧
        c = .strayEdge (Labelled.shown e.source) (Labelled.shown e.target) (.text "pdg") := by
  obtain ⟨hnodes, hedges⟩ := nodes_ofNodes (.text "pdg") hnodup
  have hname := name_ofNodes (.text "pdg") nodes
  have hcontrol := foldlM_addEdge_ensures addControl (fun _ => ofKind "control") control.listing
    (ofNodes (.text "pdg") nodes) fun _ _ _ => rfl
  rw [hnodes, hname] at hcontrol
  refine (hcontrol.imp (fun _ h => h) fun c hc => ?_).bind fun g hg => ?_
  · obtain ⟨e, he, hstray⟩ := hc
    exact ⟨e, List.mem_append_left _ (mem_listing.1 he), hstray⟩
  -- the edges of `data` come to a graph that has those of `control`, on the same nodes
  have hdata := foldlM_addEdge_ensures addData (fun e => (ofKind "data").merge e.attributes)
    data.listing g fun e he g' => by
      rw [addData, if_neg (by rw [hkind e (mem_listing.1 he)]; exact Bool.false_ne_true)]
  rw [hg.1.nodes, hg.1.name, hnodes, hname] at hdata
  refine hdata.imp (fun u hu => ⟨?_, ?_, ?_⟩) fun c hc => ?_
  · rw [hu.1.nodes, hg.1.nodes, hnodes]
  · rw [(hg.1.trans hu.1).arcs, hedges]
    rfl
  · exact List.forall_mem_append.2 ⟨fun e he => hg.2 e (mem_listing.2 he),
      fun e he => hu.2 e (mem_listing.2 he)⟩
  · obtain ⟨e, he, hstray⟩ := hc
    exact ⟨e, List.mem_append_right _ (mem_listing.1 he), hstray⟩

/-- `union` does not fail on graphs over the same nodes. -/
theorem union_spec {nodes : List ν} {control data : Graph ν} (hnodup : nodes.Nodup)
    (hcontrol : control.nodes = nodes) (hdata : data.nodes = nodes)
    (hkind : ∀ e ∈ data.edges, e.attributes.contains "kind" = false) :
    ∃ u, union nodes control data = .ok u ∧ u.nodes = nodes ∧
      u.edges.map Edge.arc =
        control.listing.map (fun e => (e.source, e.target, ofKind "control")) ++
          data.listing.map fun e => (e.source, e.target, (ofKind "data").merge e.attributes) := by
  -- an edge of either graph is within its nodes, so none leads out
  have hwithin : ∀ e ∈ control.edges ++ data.edges, e.Within nodes :=
    List.forall_mem_append.2 ⟨hcontrol ▸ control.ends, hdata ▸ data.ends⟩
  refine ((union_ensures hnodup hkind).imp (fun u hu => ⟨hu.1, hu.2.1⟩) fun c hc => ?_).exists_ok
  obtain ⟨e, he, hstray, -⟩ := hc
  exact hstray (hwithin e he)

omit [Labelled ν] in
/-- A node leads to another in the union just if it does in one of the two graphs. -/
theorem mem_successors_union {control data u : Graph ν}
    (h : u.edges.map Edge.arc =
      control.listing.map (fun e => (e.source, e.target, ofKind "control")) ++
        data.listing.map fun e => (e.source, e.target, (ofKind "data").merge e.attributes))
    {s t : ν} : t ∈ u.successors s ↔ t ∈ control.successors s ∨ t ∈ data.successors s := by
  -- whichever labels they have, the arcs of the union are those of the two graphs
  rw [mem_successors_iff_arc, h, mem_successors, mem_successors]
  simp only [List.mem_append, List.mem_map, mem_listing, Prod.mk.injEq, exists_or]
  constructor
  · rintro (⟨a, e, he, rfl, rfl, -⟩ | ⟨a, e, he, rfl, rfl, -⟩)
    · exact .inl ⟨e, he, rfl, rfl⟩
    · exact .inr ⟨e, he, rfl, rfl⟩
  · rintro (⟨e, he, rfl, rfl⟩ | ⟨e, he, rfl, rfl⟩)
    · exact .inl ⟨_, e, he, rfl, rfl, rfl⟩
    · exact .inr ⟨_, e, he, rfl, rfl, rfl⟩

end Graph

namespace FlowGraph

/-- `a` bears on `b`: by what it decides, or by what it defines. -/
def BearsOn (f : FlowGraph) (p : DefUse) (a b : Node) : Prop :=
  ControlDependent f.Flows f.Completed f.exit a b ∨ a ≠ b ∧ ∃ v, f.Supplies p a b v

/-- `combine` is `Graph.union`, apart from its log. -/
theorem result_combine (f : FlowGraph) (control data : Graph Node) :
    (f.combine control data).result =
      (liftM (Graph.union f.nodes control data) : Except Error (Graph Node)) := by
  simp only [combine, Graph.noteCombined, Outcome.result_bind, Outcome.result_liftM_fault,
    Outcome.result_write, Outcome.result_pure, ok_bind]
  exact bind_pure _

/-- **`combine`** succeeds on graphs over the nodes of `f`, where the edges of the second one are
about variables. -/
theorem combine_arcs {f : FlowGraph} {control data : Graph Node}
    (hcontrol : control.nodes = f.nodes) (hdata : data.nodes = f.nodes)
    (hlabels : ∀ e ∈ data.edges, ∃ vars, e.attributes = aboutVariables vars) :
    ∃ combined, (f.combine control data).result = .ok combined ∧ combined.nodes = f.nodes ∧
      combined.edges.map Edge.arc =
        control.listing.map (fun e => (e.source, e.target, Graph.ofKind "control")) ++
          data.listing.map fun e =>
            (e.source, e.target, (Graph.ofKind "data").merge e.attributes) := by
  -- a label about variables has no kind yet
  have hkind : ∀ e ∈ data.edges, e.attributes.contains "kind" = false := by
    intro e he
    obtain ⟨vars, hvars⟩ := hlabels e he
    rw [hvars]
    rfl
  obtain ⟨combined, hunion, hnodes, harcs⟩ := Graph.union_spec f.nodup hcontrol hdata hkind
  refine ⟨combined, ?_, hnodes, harcs⟩
  rw [result_combine, hunion, liftM_ok]

/-- What `combine` gives leads wherever one of the two graphs does. -/
theorem combine_of_nodes {f : FlowGraph} {control data : Graph Node}
    (hcontrol : control.nodes = f.nodes) (hdata : data.nodes = f.nodes)
    (hlabels : ∀ e ∈ data.edges, ∃ vars, e.attributes = aboutVariables vars) :
    ∃ combined, (f.combine control data).result = .ok combined ∧ combined.nodes = f.nodes ∧
      ∀ a b, b ∈ combined.successors a ↔ b ∈ control.successors a ∨ b ∈ data.successors a := by
  obtain ⟨combined, hcombine, hnodes, harcs⟩ := combine_arcs hcontrol hdata hlabels
  exact ⟨combined, hcombine, hnodes, fun a b => Graph.mem_successors_union harcs⟩

/-- **The dependences of a flow graph**: all graphs are built without a fault, and the combined
graph leads from a node to those that it bears on. -/
theorem combine_spec {f : FlowGraph} {p : DefUse} (hf : Bounded f) (hp : p.Answers f) :
    ∃ control data combined, f.controlDependence.result = .ok control ∧
      (f.dataDependence p).result = .ok data ∧
      (f.combine control data).result = .ok combined ∧
      data.nodes = f.nodes ∧ combined.nodes = f.nodes ∧
      ∀ a b, b ∈ combined.successors a ↔ f.BearsOn p a b := by
  obtain ⟨control, hcontrol, hcnodes, -, hcedges⟩ := controlDependence_spec hf
  obtain ⟨data, hdata, hdnodes, -, hdedges, hlabels⟩ := dataDependence_spec hp
  obtain ⟨combined, hcombined, hnodes, hedges⟩ := combine_of_nodes hcnodes hdnodes fun e he =>
    (hlabels e he).imp fun vars hvars => hvars.1
  refine ⟨control, data, combined, hcontrol, hdata, hcombined, hdnodes, hnodes, fun a b => ?_⟩
  rw [hedges, hcedges, hdedges, BearsOn]

end FlowGraph

end Dependence
