import Dependence.Proofs.Method.Bytecode
import Dependence.Proofs.Slice

/-!
# How an analysis fails

An analysis can fail at two stages only, and each failure says at which.

* The flow graph cannot be built. The faults that listings and bytecode come up with when their
  transitions are read are all of the kinds that this stage takes for a failure of its own
  (`Method.FaultsInFlow`), and what is read is always connected to a graph
  (`FlowGraph.isFlowFailure_of_build`).
* A variable cannot be looked up. Nothing else goes wrong in data dependence: the search stays
  within the graph, and so does every edge that is added (`FlowGraph.dataDependence_ensures`). A
  listing knows all its instructions; what goes wrong with bytecode is of a kind that this stage
  reports (`DefUse.FaultsInLookup`).

Control dependence and the combined graph are always built. Once the graphs are there
(`Subject.Complete`), every query is answered (`Analysis.Answering`). An output is an instruction,
and is in its own slice, so nothing is divided by zero; a metric is undefined only where there are
no outputs.
-/

namespace Dependence

/-! ### Errors -/

namespace Error

/-- The flow graph of `unit` could not be built. -/
def IsFlowFailure (unit : Value) : Error → Prop
  | .analysis e => e.sort = .failure ∧ e.stage = some .flow ∧ e.unit = unit
  | .fault _ => False

/-- The variables of a node could not be looked up. -/
def IsLookupFailure : Error → Prop
  | .analysis e => e.sort = .general ∧ e.stage = some .data
  | .fault _ => False

/-- A metric has no value. -/
def IsUndefinedMetric : Error → Prop
  | .analysis e => e.sort = .undefinedMetric ∧ e.stage = some .metrics
  | .fault _ => False

end Error

/-! ### Reading values -/

/-- `Value.pair` fails with faults that spoil the flow. -/
theorem Value.pair_ensures (v : Value) :
    Ensures v.pair (fun _ => True) fun c => c.kind.spoilsFlow = true := by
  unfold Value.pair
  -- two parts, too many, too few, or none at all
  split
  · exact trivial
  · rfl
  · rfl
  · rfl

theorem Value.hashed_ensures (v : Value) :
    Ensures v.hashed (fun _ => True) fun c => c.kind.spoilsFlow = true := by
  unfold Value.hashed
  split
  · rfl
  · exact trivial

theorem Value.parts_ensures (v : Value) :
    Ensures v.parts (fun _ => True) fun c => c.kind.spoilsLookup = true := by
  unfold Value.parts
  split
  · exact trivial
  · rfl

theorem ValueSet.ofList_ensures (vs : List Value) :
    Ensures (ofList vs) (fun _ => True) fun c => c.kind.spoilsLookup = true := by
  -- only a member that cannot be hashed stops the set
  apply Ensures.foldlM vs trivial
  intro v _ s _
  have helement : Ensures v.element (fun _ => True) fun c => c.kind.spoilsLookup = true := by
    unfold Value.element
    split
    · rfl
    · exact trivial
  exact helement.bind fun x _ => trivial

/-! ### The flow graph -/

/-- What `m` comes up with when it is read are faults that spoil the flow. -/
def Method.FaultsInFlow (m : Method) : Prop :=
  Ensures m.discover.result (fun _ => True) fun e => ∃ c, e = .fault c ∧ c.kind.spoilsFlow = true

theorem Transitions.pairs_ensures {t : Transitions}
    (h : ∀ e, t.failure = some e → ∃ c, e = .fault c ∧ c.kind.spoilsFlow = true) :
    Ensures t.pairs.result (fun _ => True)
      fun e => ∃ c, e = .fault c ∧ c.kind.spoilsFlow = true := by
  unfold Transitions.pairs
  apply (Ensures.mapM t.items fun v _ => v.pair_ensures.liftM).bind
  intro found _
  -- the pairs are read first, and then the failure that ended them
  cases hfailure : t.failure with
  | none => exact trivial
  | some e => exact h e hfailure

/-- A method whose stream can be read only fails by its transitions. -/
theorem Method.faultsInFlow_of_transitions {m : Method} {stream : List (Option Instruction)}
    (hstream : m.stream = .ok stream)
    (h : ∀ e, m.transitions.failure = some e → ∃ c, e = .fault c ∧ c.kind.spoilsFlow = true) :
    m.FaultsInFlow := by
  unfold Method.FaultsInFlow Method.discover
  rw [Outcome.result_bind, Outcome.result_liftM, hstream, ok_bind, Outcome.result_bind]
  exact (Transitions.pairs_ensures h).bind fun found _ => trivial

/-- **Where `build` gives no graph**, the error is a failure of this stage. -/
theorem FlowGraph.isFlowFailure_of_build {m : Method} {table : ℕ} {given : Value} {e : Error}
    (hm : m.FaultsInFlow) (h : (build m table given).result = .error e) :
    e.IsFlowFailure (if given.isTruthy then given else m.name) := by
  unfold build at h
  unfold Method.FaultsInFlow at hm
  cases hfound : m.discover.result with
  | error e' =>
    rw [hfound] at hm
    -- the fault spoils the flow, so it is wrapped
    obtain ⟨c, rfl, hc⟩ := hm
    simp only [hfound, onDiscoveryError, if_pos hc] at h
    cases h
    exact ⟨rfl, rfl, rfl⟩
  | ok found =>
    obtain ⟨stream, pairs⟩ := found
    simp only [hfound, ofDiscovery] at h
    cases hends : endpoints stream.length pairs with
    | error v =>
      rw [hends] at h
      cases h
      exact ⟨rfl, rfl, rfl⟩
    | ok transitions =>
      -- what was read is always connected
      obtain ⟨layout, f, hconnect, -⟩ :=
        connect_spec table (if given.isTruthy then given else m.name) stream transitions
      simp only [hends, hconnect] at h
      cases h

/-! ### Data dependence -/

namespace FlowGraph

variable {f : FlowGraph} {p : DefUse}

/-- The error `e` of a look-up by `p` at some node of `f`. -/
def LookupError (f : FlowGraph) (p : DefUse) (e : Error) : Prop :=
  ∃ n ∈ f.nodes, f.definedBy p n = .error e ∨ f.usedBy p n = .error e

theorem definedBy_ensures {n : Node} (hn : n ∈ f.nodes) :
    Ensures (f.definedBy p n) (fun _ => True) (f.LookupError p) := by
  cases h : f.definedBy p n with
  | ok s => exact trivial
  | error e => exact ⟨n, hn, .inl h⟩

theorem usedBy_ensures {n : Node} (hn : n ∈ f.nodes) :
    Ensures (f.usedBy p n) (fun _ => True) (f.LookupError p) := by
  cases h : f.usedBy p n with
  | ok s => exact trivial
  | error e => exact ⟨n, hn, .inr h⟩

theorem defines_ensures {n : Node} (hn : n ∈ f.nodes) (x : Element) :
    Ensures (f.defines p x.val n) (fun _ => True) (f.LookupError p) := by
  -- an element of a set can be hashed
  have hhashed : x.val.hashed = .ok x.val := by rw [Value.hashed, x.property]
  unfold defines
  apply (definedBy_ensures hn).bind
  intro defined _
  rw [hhashed]
  exact trivial

theorem mem_nodes_of_mem_predecessors {n m : Node} (hm : m ∈ f.predecessors n) : m ∈ f.nodes :=
  (Graph.mem_nodes_of_mem_successors (Graph.mem_predecessors_iff.1 hm)).1

/-- **`reachingFrom` stays within the graph**, and fails only where a look-up does. -/
theorem reachingFrom_ensures (x : Element) (visited pending : List Node)
    (hpending : ∀ n ∈ pending, n ∈ f.nodes) :
    Ensures (f.reachingFrom p x.val visited pending) (fun found => ∀ d ∈ found, d ∈ f.nodes)
      (f.LookupError p) := by
  induction visited, pending using reachingFrom.induct f with
  | case1 visited =>
    rw [reachingFrom]
    intro d hd
    cases hd
  | case2 visited n pending hn ih =>
    rw [reachingFrom, if_pos hn]
    exact ih (List.forall_mem_cons.1 hpending).2
  | case3 visited n pending hn hnone ih =>
    rw [reachingFrom, if_neg hn, if_pos hnone]
    exact ih (List.forall_mem_cons.1 hpending).2
  | case4 visited n pending hn hsome ih₁ ih₂ =>
    -- a place, where the definitions are looked up
    obtain ⟨hnmem, hrest⟩ := List.forall_mem_cons.1 hpending
    rw [reachingFrom, if_neg hn, if_neg hsome]
    apply (defines_ensures hnmem x).bind
    intro found _
    cases found with
    | true => exact (ih₁ hrest).bind fun ds hds => List.forall_mem_cons.2 ⟨hnmem, hds⟩
    | false =>
      -- the search goes on before the node
      apply ih₂
      intro m hm
      obtain hm | hm := List.mem_append.1 hm
      · exact mem_nodes_of_mem_predecessors hm
      · exact hrest m hm

theorem nearestDefinitions_ensures {n : Node} (hn : n ∈ f.nodes) (x : Element) :
    Ensures (f.nearestDefinitions p (some n) x.val) (fun found => ∀ d ∈ found, d ∈ f.nodes)
      (f.LookupError p) := by
  rw [nearestDefinitions, Graph.predecessorsOf, Graph.member, if_pos (List.contains_iff_mem.2 hn)]
  exact reachingFrom_ensures x [] (f.predecessors n) fun m => mem_nodes_of_mem_predecessors

/-- The definitions of the supply `s` are among `nodes`. -/
def Supply.Within (nodes : List Node) (s : Supply) : Prop := ∀ e ∈ s.entries, e.1 ∈ nodes

theorem Supply.within_foldl_note {nodes : List Node} (x : Element) (ds : List Node)
    (hds : ∀ d ∈ ds, d ∈ nodes) {s : Supply} (hs : s.Within nodes) :
    (ds.foldl (Supply.note x) s).Within nodes := by
  induction ds generalizing s with
  | nil => exact hs
  | cons d ds ih =>
    obtain ⟨hd, hrest⟩ := List.forall_mem_cons.1 hds
    apply ih hrest
    intro e he
    -- noting a definition adds no key but the definition
    obtain ⟨e', he', hkey⟩ | hkey := OrderedMap.key_mem_upsertEntries he
    · exact hkey ▸ hs e' he'
    · exact hkey ▸ hd

/-- `supply` fails only where a look-up does, and names nodes only. -/
theorem supply_ensures {n : Node} (hn : n ∈ f.nodes) :
    Ensures (f.supply p n).result (Supply.Within f.nodes) (f.LookupError p) := by
  rw [supply, Outcome.result_bind, Outcome.result_liftM]
  apply (usedBy_ensures hn).bind
  intro used _
  have hempty : Supply.Within f.nodes .empty := by
    intro e he
    cases he
  rw [Outcome.result_foldlM]
  apply Ensures.foldlM _ hempty
  intro x _ s hs
  -- one variable: its definitions are searched and noted, the node itself left out
  simp only [supplyOne, noteData, Outcome.result_bind, Outcome.result_liftM, Outcome.result_write,
    Outcome.result_pure, ok_bind]
  apply (nearestDefinitions_ensures hn x).bind
  intro found hfound
  exact Supply.within_foldl_note x _ (fun d hd => hfound d (List.mem_of_mem_filter hd)) hs

/-- What is sure of a data dependence graph, whatever was looked up: its edges are about variables,
and lead to places. -/
structure DataShaped (f : FlowGraph) (g : Graph Node) : Prop where
  nodes : g.nodes = f.nodes
  arcs : ∀ a ∈ g.edges.map Edge.arc, a.2.1 ∈ f.places ∧ ∃ vars, a.2.2 = aboutVariables vars

theorem addEdge_ensures {g : Graph Node} {d n : Node} (vars : ValueSet) (hg : f.DataShaped g)
    (hd : d ∈ f.nodes) (hn : n ∈ f.places) :
    ∃ g', g.addEdge d n (aboutVariables vars) = .ok g' ∧ f.DataShaped g' := by
  obtain ⟨g', hadd, hext⟩ := Graph.addEdge_spec (hg.nodes ▸ hd) (hg.nodes ▸ (mem_places.1 hn).1)
    (aboutVariables vars)
  refine ⟨g', hadd, hext.nodes.trans hg.nodes, fun a ha => ?_⟩
  rw [hext.arcs] at ha
  -- an edge of the graph before, or the new one
  obtain ha | ha := List.mem_append.1 ha
  · exact hg.arcs a ha
  · obtain rfl := List.mem_singleton.1 ha
    exact ⟨hn, vars, rfl⟩

theorem addSupply_ensures {g : Graph Node} {n : Node} (hg : f.DataShaped g) (hn : n ∈ f.places) :
    Ensures (f.addSupply p g n).result f.DataShaped (f.LookupError p) := by
  rw [addSupply, Outcome.result_bind]
  apply (supply_ensures (mem_places.1 hn).1).bind
  intro s hs
  rw [Outcome.result_foldlM]
  apply Ensures.foldlM _ hg
  intro e he g hg
  obtain ⟨g', hadd, hg'⟩ := addEdge_ensures e.2 hg (hs e he) hn
  rw [Outcome.result_liftM_fault, hadd]
  exact hg'

/-- The graph that `dataDependence` starts from. -/
theorem dataShaped_empty (f : FlowGraph) : f.DataShaped (.ofNodes (.text "ddg") f.nodes) := by
  obtain ⟨hnodes, hedges⟩ := Graph.nodes_ofNodes (.text "ddg") f.nodup
  refine ⟨hnodes, fun a ha => ?_⟩
  rw [hedges] at ha
  cases ha

/-- **`dataDependence`** fails only where a look-up does. -/
theorem dataDependence_ensures (f : FlowGraph) (p : DefUse) :
    Ensures (f.dataDependence p).result f.DataShaped (f.LookupError p) := by
  rw [dataDependence, Outcome.result_bind, Outcome.result_foldlM]
  apply (Ensures.foldlM f.places f.dataShaped_empty fun n hn g hg => addSupply_ensures hg hn).bind
  intro g hg
  exact hg

end FlowGraph

/-! ### All graphs -/

/-- All graphs of `s` have been built, data dependence as `d` and the combined graph as `g`. -/
structure Subject.Complete (s : Subject) (d g : Graph Node) : Prop where
  control : ∃ c, Derived.control.built s = .ok c
  data : Derived.data.built s = .ok d
  combined : Derived.combined.built s = .ok g
  shaped : s.flow.DataShaped d
  nodes : g.nodes = s.flow.nodes

/-- Nothing but data dependence stands in the way of the combined graph. -/
theorem Subject.exists_complete {s : Subject} (hf : s.flow.Bounded) {d : Graph Node}
    (hd : Derived.data.built s = .ok d) (hshaped : s.flow.DataShaped d) :
    ∃ g, s.Complete d g := by
  obtain ⟨c, hc, hcnodes, -⟩ := FlowGraph.controlDependence_spec hf
  obtain ⟨g, hg, hnodes, -⟩ := FlowGraph.combine_of_nodes hcnodes hshaped.nodes fun e he =>
    (hshaped.arcs e.arc (List.mem_map_of_mem he)).2
  exact ⟨g, ⟨c, hc⟩, hd, (Derived.built_combined hc hd).trans hg, hshaped, hnodes⟩

/-- The combined graph fails as data dependence does. -/
theorem Subject.combined_eq_error {s : Subject} (hf : s.flow.Bounded) {e : Error}
    (hd : Derived.data.built s = .error e) : Derived.combined.built s = .error e := by
  obtain ⟨c, hc, -⟩ := FlowGraph.controlDependence_spec hf
  change Derived.control.built s >>= (fun c => Derived.data.built s >>= fun d =>
    (s.flow.combine c d).result) = _
  have hcontrol : Derived.control.built s = .ok c := hc
  rw [hcontrol, ok_bind, hd]
  rfl

/-- **The graphs of a subject** are all built, unless a look-up fails. -/
theorem Subject.complete_ensures {s : Subject} (hf : s.flow.Bounded) :
    Ensures (Derived.combined.built s) (fun g => ∃ d, s.Complete d g)
      (s.flow.LookupError s.method.toDefUse) := by
  -- control dependence never fails, so data dependence decides
  have hdata : Ensures (Derived.data.built s) s.flow.DataShaped
    (s.flow.LookupError s.method.toDefUse) := s.flow.dataDependence_ensures s.method.toDefUse
  cases hd : Derived.data.built s with
  | error e =>
    rw [hd] at hdata
    rw [combined_eq_error hf hd]
    exact hdata
  | ok d =>
    rw [hd] at hdata
    obtain ⟨g, hcomplete⟩ := exists_complete hf hd hdata
    rw [hcomplete.combined]
    exact ⟨d, hcomplete⟩

/-- Data dependence is a part of the combined graph. -/
theorem Subject.Complete.mem_successors_of_data {s : Subject} {d g : Graph Node}
    (h : s.Complete d g) (hf : s.flow.Bounded) {a b : Node} (hab : b ∈ d.successors a) :
    b ∈ g.successors a := by
  obtain ⟨c, hc, hcnodes, -⟩ := FlowGraph.controlDependence_spec hf
  obtain ⟨g', hg', -, hedges⟩ := FlowGraph.combine_of_nodes hcnodes h.shaped.nodes fun e he =>
    (h.shaped.arcs e.arc (List.mem_map_of_mem he)).2
  -- the combined graph is the one that `combine` is known to give
  have heq : g = g' := by
    have hcombined := h.combined
    rw [Derived.built_combined hc h.data, hg'] at hcombined
    exact (Except.ok.inj hcombined).symm
  rw [heq, hedges]
  exact .inr hab

/-- Where an analysis gives the combined graph, all its graphs are built. -/
theorem Analysis.Faithful.exists_complete {a : Analysis} (ha : a.Faithful) (hf : a.flow.Bounded)
    {g : Graph Node} (hg : (Query.combined a).2.result = .ok g) :
    ∃ d, a.subject.Complete d g := by
  have hcomplete := Subject.complete_ensures (s := a.subject) hf
  rw [← (Query.combined_yields ha).result, hg] at hcomplete
  exact hcomplete

/-! ### Metrics -/

section Numbers

variable {α : Type} [NatCast α] [Add α] [Div α]

omit [Add α] in
theorem quotient_eq_ok (a : ℕ) {b : ℕ} (hb : b ≠ 0) :
    (quotient a b : Except Fault α) = .ok (Nat.cast a / Nat.cast b) :=
  if_neg hb

theorem average_eq_ok {xs : List α} (h : xs ≠ []) :
    average xs = .ok (xs.foldl (· + ·) (Nat.cast 0) / Nat.cast xs.length) :=
  if_neg (by rwa [List.isEmpty_iff])

end Numbers

/-- Nothing that is divided by is zero. -/
structure Shared.Proper (s : Shared) : Prop where
  instructions : s.instructions ≠ 0
  sizes_ne_nil : s.sizes ≠ []
  sizes : ∀ size ∈ s.sizes, size ≠ 0

/-- The slice of the output `o` in `g`, with the output and without markers. -/
def Graph.outputSlice (g : Graph Node) (o : Node) : List Node :=
  Shared.withOutput o (g.collect [] (g.predecessors o))

theorem Shared.withOutput_ne_nil (output : Node) (behind : List Node) :
    withOutput output behind ≠ [] := by
  simp only [withOutput]
  split
  · rename_i hmem
    exact List.ne_nil_of_mem (List.contains_iff_mem.1 hmem)
  · exact List.append_ne_nil_of_right_ne_nil _ (List.cons_ne_nil _ _)

namespace Shared.Proper

variable {α : Type} [NatCast α] [Add α] [Div α] {s : Shared} (hs : s.Proper)

include hs

omit [Add α] in
theorem tightness_eq :
    (s.tightness : Except Fault α) = .ok (Nat.cast s.common / Nat.cast s.instructions) :=
  quotient_eq_ok s.common hs.instructions

/-- `overlap` has one part for each slice, so there is something to average. -/
theorem overlap_eq :
    (s.overlap : Except Fault α) =
      .ok ((s.sizes.map fun size => (Nat.cast s.common / Nat.cast size : α)).foldl (· + ·)
        (Nat.cast 0) / Nat.cast s.sizes.length) := by
  have hparts : (s.sizes.mapM (quotient s.common) : Except Fault (List α)) =
      .ok (s.sizes.map fun size => Nat.cast s.common / Nat.cast size) :=
    mapM_of_forall_ok fun size hsize => quotient_eq_ok s.common (hs.sizes size hsize)
  have hne : (s.sizes.map fun size => (Nat.cast s.common / Nat.cast size : α)) ≠ [] := by
    rw [ne_eq, List.map_eq_nil_iff]
    exact hs.sizes_ne_nil
  change (s.sizes.mapM (quotient s.common) >>= average : Except Fault α) = _
  rw [hparts, ok_bind, average_eq_ok hne, List.length_map]

end Shared.Proper

theorem Metric.ofShared_eq_ok (m : Metric) {s : Shared} (hs : s.Proper) :
    ∃ x : Float, m.ofShared s = .ok x := by
  cases m with
  | tightness => exact ⟨_, hs.tightness_eq⟩
  | overlap => exact ⟨_, hs.overlap_eq⟩

theorem Metric.ofLastSlice_eq_ok (m : Metric) (size : ℕ) {outputs : ℕ} (h : outputs ≠ 0) :
    ∃ x, m.ofLastSlice size outputs = .ok x := by
  cases m with
  | tightness => exact ⟨_, quotient_eq_ok size h⟩
  | overlap =>
    refine ⟨Float.pow size.toFloat (Nat.cast 1 / Nat.cast outputs), ?_⟩
    rw [ofLastSlice, quotient_eq_ok 1 h, ok_bind]
    rfl

theorem Metric.result_needsOutputs (m : Metric) (outputs : ℕ) (unit : Value) :
    (m.needsOutputs outputs unit).result =
      if outputs = 0 then .error (.analysis (m.undefined unit)) else .ok () := by
  unfold needsOutputs
  split <;> rfl

/-- **`compute` gives no value** where there are no outputs. -/
theorem Metric.compute_eq_error (m : Metric) (g : Graph Node) {d : Graph Node}
    (houtputs : d.outputs = []) (last : Option (Slice Node)) (mode : MetricMode) (unit : Value) :
    (m.compute g d last mode unit).result = .error (.analysis (m.undefined unit)) := by
  unfold Metric.compute
  rw [Outcome.result_bind, m.result_needsOutputs, houtputs]
  rfl

namespace Subject.Complete

variable {s : Subject} {d g : Graph Node} (h : s.Complete d g)

include h

/-- An output of `d` is a place: it uses what another node defines. -/
theorem mem_places_of_mem_outputs {n : Node} (hn : n ∈ d.outputs) : n ∈ s.flow.places := by
  -- a sink has an edge to it, and edges of `d` lead to places
  have hsink : n ∈ d.sinks := (List.mergeSort_perm d.sinks _).mem_iff.1 hn
  obtain ⟨-, hpred⟩ := List.mem_filter.1 hsink
  rw [Bool.and_eq_true, Bool.not_eq_true', List.isEmpty_eq_false_iff] at hpred
  obtain ⟨m, hm⟩ := List.exists_mem_of_ne_nil _ hpred.1
  obtain ⟨e, he, rfl, -⟩ := Graph.mem_predecessors.1 hm
  exact (h.shaped.arcs e.arc (List.mem_map_of_mem he)).1

/-- **`Shared.ofOutputs`** finds the slices of the outputs. -/
theorem ofOutputs_eq_ok :
    Shared.ofOutputs g d.outputs = .ok (.ofSlices (Shared.instructionCount g.nodes)
      (d.outputs.map g.outputSlice)) := by
  have hslices : (d.outputs.mapM fun o =>
        (return Shared.withOutput o (← g.transitivePredecessors (some o)) :
          Except Fault (List Node))) = .ok (d.outputs.map g.outputSlice) := by
    apply mapM_of_forall_ok
    intro n hn
    have hmem : n ∈ g.nodes :=
      h.nodes ▸ (FlowGraph.mem_places.1 (h.mem_places_of_mem_outputs hn)).1
    rw [Graph.transitivePredecessors_eq_ok hmem]
    rfl
  rw [Shared.ofOutputs, hslices, ok_bind]
  rfl

/-- The slices of the outputs give numbers that can be divided by. -/
theorem proper_ofOutputs (houtputs : d.outputs ≠ []) :
    (Shared.ofSlices (Shared.instructionCount g.nodes) (d.outputs.map g.outputSlice)).Proper := by
  refine ⟨?_, ?_, ?_⟩
  · -- an output is an instruction
    obtain ⟨n, hn⟩ := List.exists_mem_of_ne_nil _ houtputs
    obtain ⟨hmem, hmarker⟩ := FlowGraph.mem_places.1 (h.mem_places_of_mem_outputs hn)
    have hinstruction : n ∈ g.nodes.filter fun n => !n.isMarker :=
      List.mem_filter.2 ⟨h.nodes ▸ hmem, by rw [hmarker]; rfl⟩
    exact Nat.ne_of_gt (List.length_pos_of_mem hinstruction)
  · -- there is a slice for each output
    simpa [Shared.ofSlices] using houtputs
  · intro size hsize
    obtain ⟨slice, hslice, rfl⟩ := List.mem_map.1 hsize
    obtain ⟨o, -, rfl⟩ := List.mem_map.1 hslice
    rw [ne_eq, List.length_eq_zero_iff]
    -- the output itself is in its slice
    exact Shared.withOutput_ne_nil o _

/-- `compute` from all outputs gives what `ofShared` does. -/
theorem compute_allOutputs (houtputs : d.outputs ≠ []) {m : Metric} {x : Float}
    (hx : m.ofShared (.ofSlices (Shared.instructionCount g.nodes) (d.outputs.map g.outputSlice)) =
      .ok x) (last : Option (Slice Node)) (unit : Value) :
    (m.compute g d last .allOutputs unit).result = .ok x := by
  have hcount : d.outputs.length ≠ 0 := mt List.length_eq_zero_iff.1 houtputs
  unfold Metric.compute
  rw [Outcome.result_bind, m.result_needsOutputs, if_neg hcount, ok_bind]
  simp only [Outcome.result_bind, Outcome.result_liftM_fault, h.ofOutputs_eq_ok, liftM_ok, ok_bind,
    hx]

/-- **`compute` gives a value** where there are outputs, given a slice if it needs one. -/
theorem compute_eq_ok (houtputs : d.outputs ≠ []) (m : Metric) {last : Option (Slice Node)}
    {mode : MetricMode} (hlast : mode = .allOutputs ∨ last.isSome) (unit : Value) :
    ∃ x, (m.compute g d last mode unit).result = .ok x := by
  have hcount : d.outputs.length ≠ 0 := mt List.length_eq_zero_iff.1 houtputs
  cases mode with
  | lastSlice =>
    obtain ⟨slice, rfl⟩ := Option.isSome_iff_exists.1 (hlast.resolve_left nofun)
    obtain ⟨x, hx⟩ := m.ofLastSlice_eq_ok slice.transitive.length hcount
    refine ⟨x, ?_⟩
    unfold Metric.compute
    rw [Outcome.result_bind, m.result_needsOutputs, if_neg hcount, ok_bind]
    change (liftM (m.ofLastSlice slice.transitive.length d.outputs.length) :
      Outcome Float).result = _
    rw [Outcome.result_liftM_fault, hx]
    rfl
  | allOutputs =>
    obtain ⟨x, hx⟩ := m.ofShared_eq_ok (h.proper_ofOutputs houtputs)
    exact ⟨x, h.compute_allOutputs houtputs hx last unit⟩

end Subject.Complete

/-! ### Queries -/

/-- **Every query is answered.** A metric that has the slice it needs is undefined where there are
no outputs, and has a value otherwise. -/
structure Analysis.Answering (a : Analysis) : Prop where
  graphs : ∀ k : Derived, ∃ g, (k.query a).2.result = .ok g
  stats : ∃ s, (Query.stats a).2.result = .ok s
  outputs : ∃ outputs, (Query.outputs a).2.result = .ok outputs
  slices : ∀ n ∈ a.flow.nodes, ∃ s, (Query.slice (some n) a).2.result = .ok s
  undefined : (Query.outputs a).2.result = .ok [] → ∀ m last, ∃ e,
    (Query.metric m last a).2.result = .error e ∧ e.IsUndefinedMetric
  defined : (Query.outputs a).2.result ≠ .ok [] → ∀ m last,
    a.options.metricMode = .allOutputs ∨ last.isSome →
      ∃ x, (Query.metric m last a).2.result = .ok x

/-- An analysis whose graphs are all built answers every query. -/
theorem Analysis.Faithful.answering {a : Analysis} (ha : a.Faithful) {d g : Graph Node}
    (h : a.subject.Complete d g) : a.Answering := by
  -- every answer is that of the request's plan, evaluated on the graphs that are built
  have hresult : ∀ r : Request, (r.ask a).2.result = r.plan.direct a.subject := fun r =>
    (r.ask_yields ha).result
  obtain ⟨c, hc⟩ := h.control
  have houtputs : (Query.outputs a).2.result = .ok d.outputs :=
    (Query.outputs_yields ha h.data).result
  have hmetric : ∀ m last, (Query.metric m last a).2.result =
      (m.compute g d last a.options.metricMode a.flow.unit).result := by
    intro m last
    refine (hresult (.metric m last)).trans ?_
    simp only [Request.plan, Plan.direct, h.combined, h.data, ok_bind]
    rfl
  refine ⟨fun k => ?_, ?_, ⟨_, houtputs⟩, fun n hn => ?_, fun hnone m last => ?_,
    fun hsome m last hlast => ?_⟩
  · rw [(Query.graph_yields ha k).result]
    cases k with
    | control => exact ⟨c, hc⟩
    | data => exact ⟨d, h.data⟩
    | combined => exact ⟨g, h.combined⟩
  · have hstats := hresult .stats
    simp only [Request.plan, Plan.direct, hc, h.data, ok_bind, Outcome.result_pure] at hstats
    exact ⟨_, hstats⟩
  · obtain ⟨found, hslice, -⟩ := Slice.backward_spec (h.nodes ▸ hn : n ∈ g.nodes)
      (h.shaped.nodes ▸ hn : n ∈ d.nodes) a.flow.unit
    refine ⟨⟨n, d.predecessors n, found⟩, (hresult (.slice (some n))).trans ?_⟩
    simp only [Request.plan, Plan.direct, h.combined, h.data, ok_bind]
    exact hslice
  · have hnil : d.outputs = [] := Except.ok.inj (houtputs.symm.trans hnone)
    exact ⟨_, (hmetric m last).trans (m.compute_eq_error g hnil last _ _), rfl, rfl⟩
  · have hne : d.outputs ≠ [] := fun hnil => hsome (hnil ▸ houtputs)
    obtain ⟨x, hx⟩ := h.compute_eq_ok hne m hlast a.flow.unit
    exact ⟨x, (hmetric m last).trans hx⟩

namespace Analysis

variable {m : Method} {o : Options}

/-- **`eager`** where the flow graph is built: every query is answered from then on, unless a
look-up fails. -/
theorem eager_ensures_of_build {f : FlowGraph}
    (hbuild : (FlowGraph.build m 0 .none).result = .ok f) :
    Ensures (eager m o).result (fun a => ∀ history, (a.after history).Answering)
      (f.LookupError m.toDefUse) := by
  have hstart : (start m o).result = .ok ⟨m, o, f, none, none, none⟩ :=
    start_eq_ok.2 ⟨f, hbuild, rfl⟩
  obtain ⟨hfaithful, -, -⟩ := faithful_of_start hstart
  have hcomplete := Subject.complete_ensures (s := ⟨m, o, f⟩) (FlowGraph.bounded_of_build hbuild)
  rw [eager_of_start hstart, (Query.combined_yields hfaithful).result]
  apply hcomplete.map
  rintro g ⟨d, hd⟩ history
  -- asking for the combined graph was the first query of all
  rw [← after_append]
  obtain ⟨hafter, hsubject, -⟩ := hfaithful.after ([.graph .combined] ++ history)
  apply hafter.answering
  rw [hsubject]
  exact hd

/-- **`eager`** fails where the flow graph is not built, or where a look-up fails. -/
theorem eager_ensures (hm : m.FaultsInFlow) :
    Ensures (eager m o).result (fun a => ∀ history, (a.after history).Answering) fun e =>
      e.IsFlowFailure m.name ∨
        ∃ f, (FlowGraph.build m 0 .none).result = .ok f ∧ f.LookupError m.toDefUse e := by
  cases hbuild : (FlowGraph.build m 0 .none).result with
  | error e =>
    have heager : (eager m o).result = .error e := by
      simp only [eager, start, Outcome.result_bind, hbuild]
      rfl
    rw [heager]
    exact .inl (FlowGraph.isFlowFailure_of_build hm hbuild)
  | ok f => exact (eager_ensures_of_build hbuild).imp (fun a ha => ha) fun e he => .inr ⟨f, rfl, he⟩

end Analysis

/-! ### Listings and bytecode -/

theorem Listing.faultsInFlow (l : Listing) : l.method.FaultsInFlow := by
  apply Method.faultsInFlow_of_transitions rfl
  intro e he
  cases he

/-- No look-up fails for a listing: it knows the instructions of its flow graph. -/
theorem Listing.not_lookupError {l : Listing} {f : FlowGraph} {e : Error}
    (h : (FlowGraph.build l.method 0 .none).result = .ok f) :
    ¬ f.LookupError l.method.toDefUse e := by
  rintro ⟨n, hn, hdefined | hused⟩
  · obtain ⟨s, hs, -⟩ := FlowGraph.definedBy_spec (Listing.answers h) hn
    cases hs.symm.trans hdefined
  · obtain ⟨s, hs, -⟩ := FlowGraph.usedBy_spec (Listing.answers h) hn
    cases hs.symm.trans hused

namespace Bytecode

theorem jumpTarget_ensures (b : Bytecode) (o : Operation) :
    Ensures (b.jumpTarget o) (fun _ => True) fun c => c.kind.spoilsFlow = true := by
  unfold jumpTarget
  apply o.argument.hashed_ensures.bind
  intro v _
  split
  · exact trivial
  · rfl

theorem successors_ensures (b : Bytecode) (i : ℕ) :
    Ensures (b.successors i) (fun _ => True) fun c => c.kind.spoilsFlow = true := by
  cases ho : b.operations[i]? with
  | none =>
    rw [successors_of_none ho]
    exact trivial
  | some o =>
    cases hjumps : o.jumps b.jumpCodes with
    | false =>
      rw [successors_of_not_jumps ho hjumps]
      exact trivial
    | true =>
      -- only a jump reads its argument
      rw [successors_of_jumps ho hjumps]
      exact (b.jumpTarget_ensures o).map _ fun _ _ => trivial

/-- `explore` fails only where `successors` does. -/
theorem explore_ensures (b : Bytecode) (unseen pending : List ℕ) :
    Ensures (b.explore unseen pending) (fun _ => True) fun c => c.kind.spoilsFlow = true := by
  induction unseen, pending using explore.induct with
  | case1 unseen =>
    rw [explore]
    exact trivial
  | case2 unseen i pending ih =>
    rw [explore]
    apply (b.successors_ensures i).bind
    intro next _
    exact (ih next).bind fun rest _ => trivial

theorem faultsInFlow (b : Bytecode) : b.method.FaultsInFlow := by
  apply Method.faultsInFlow_of_transitions rfl
  intro e he
  have hreachable : Ensures b.reachable (fun _ => True) fun c => c.kind.spoilsFlow = true :=
    (b.explore_ensures _ _).bind fun found _ => trivial
  -- what ends the transitions is the fault that ended the exploration
  change b.transitions.failure = some e at he
  unfold transitions at he
  split at he
  · cases he
  · cases hresult : b.reachable with
    | error c =>
      rw [hresult] at he hreachable
      cases he
      exact ⟨c, rfl, hreachable⟩
    | ok found =>
      rw [hresult] at he
      cases he

theorem operationOf_ensures (name : Value) (code : List (Instruction × Operation))
    (i : Option Instruction) :
    Ensures (operationOf name code i) (fun _ => True) fun c => c.kind.spoilsLookup = true := by
  unfold operationOf
  split
  · exact trivial
  · rfl

end Bytecode

theorem Operation.inRole_ensures (o : Operation) (single : List String) (role : Bool) :
    Ensures (o.inRole single role) (fun _ => True) fun c => c.kind.spoilsLookup = true := by
  unfold inRole
  split
  · exact ValueSet.ofList_ensures _
  · split
    · exact o.argument.parts_ensures.bind fun named _ => ValueSet.ofList_ensures _
    · exact trivial

/-- What goes wrong when `p` looks variables up are faults that this stage reports. -/
def DefUse.FaultsInLookup (p : DefUse) : Prop :=
  ∀ i, Ensures (p.definitions i) (fun _ => True)
      (fun e => ∃ c, e = .fault c ∧ c.kind.spoilsLookup = true) ∧
    Ensures (p.uses i) (fun _ => True) fun e => ∃ c, e = .fault c ∧ c.kind.spoilsLookup = true

theorem Bytecode.faultsInLookup (b : Bytecode) : b.method.toDefUse.FaultsInLookup := by
  intro i
  refine ⟨Ensures.liftM ?_, Ensures.liftM ?_⟩
  · exact (operationOf_ensures _ _ i).bind fun o _ => o.inRole_ensures _ _
  · exact (operationOf_ensures _ _ i).bind fun o _ => o.inRole_ensures _ _

namespace FlowGraph

variable {f : FlowGraph} {e : Error}

/-- `variablesOf` reports a look-up that fails with the node and the fault. -/
theorem eq_lookupFailed_of_variablesOf {ask : Option Instruction → Except Error ValueSet}
    (hask : ∀ i, Ensures (ask i) (fun _ => True)
      fun e => ∃ c, e = .fault c ∧ c.kind.spoilsLookup = true) {n : Node}
    (h : f.variablesOf ask n = .error e) :
    ∃ i c, n.instruction? = some i ∧ ask (some i) = .error (.fault c) ∧
      e = .analysis (f.lookupFailed n c) := by
  unfold variablesOf at h
  cases hi : n.instruction? with
  | none =>
    -- a marker has no variables to look up
    rw [hi] at h
    cases h
  | some i =>
    have hanswer := hask (some i)
    simp only [hi] at h
    cases hread : ask (some i) with
    | ok s =>
      rw [hread] at h
      cases h
    | error e' =>
      rw [hread] at hanswer
      obtain ⟨c, rfl, hc⟩ := hanswer
      simp only [hread, if_pos hc] at h
      cases h
      exact ⟨i, c, rfl, hread, rfl⟩

theorem isLookupFailure_of_variablesOf {ask : Option Instruction → Except Error ValueSet}
    (hask : ∀ i, Ensures (ask i) (fun _ => True)
      fun e => ∃ c, e = .fault c ∧ c.kind.spoilsLookup = true) {n : Node}
    (h : f.variablesOf ask n = .error e) : e.IsLookupFailure := by
  obtain ⟨i, c, -, -, rfl⟩ := eq_lookupFailed_of_variablesOf hask h
  exact ⟨rfl, rfl⟩

theorem LookupError.isLookupFailure {p : DefUse} (hp : p.FaultsInLookup)
    (h : f.LookupError p e) : e.IsLookupFailure := by
  -- the error comes from a definition or from a use
  obtain ⟨n, -, hdefined | hused⟩ := h
  · exact isLookupFailure_of_variablesOf (fun i => (hp i).1) hdefined
  · exact isLookupFailure_of_variablesOf (fun i => (hp i).2) hused

end FlowGraph

/-- A listing is analysed just if its transitions are pairs of positions. -/
theorem Listing.exists_eager_iff (l : Listing) (o : Options) :
    (∃ a, (Analysis.eager l.method o).result = .ok a) ↔
      ∃ pairs transitions, l.method.discover.result = .ok (l.instructions, pairs) ∧
        FlowGraph.endpoints l.instructions.length pairs = .ok transitions := by
  constructor
  · rintro ⟨a, ha⟩
    obtain ⟨-, -, hbuild⟩ := Analysis.faithful_of_opened (.inr ha)
    obtain ⟨stream, pairs, transitions, unit, hfound, hends, -⟩ :=
      FlowGraph.exists_connect_of_build hbuild
    obtain ⟨rfl, -⟩ := discover_eq_ok.1 hfound
    exact ⟨pairs, transitions, hfound, hends⟩
  · rintro ⟨pairs, transitions, hfound, hends⟩
    obtain ⟨f, hbuild⟩ := FlowGraph.exists_build 0 .none hfound hends
    have hopened := (Analysis.eager_ensures_of_build (o := o) hbuild).imp (fun a ha => ha)
      fun e => not_lookupError hbuild
    obtain ⟨a, ha, -⟩ := hopened.exists_ok
    exact ⟨a, ha⟩

/-- **An analysis fails in known ways only.** A listing is analysed just if its transitions are
pairs of positions; otherwise the error says that its flow graph cannot be built, along with its
name. Bytecode is analysed, unless its flow graph cannot be built or a look-up fails. Once an
analysis is there, it answers every query about its nodes, whatever was asked before, and a metric
is undefined only where there are no outputs. -/
theorem Analysis.eager_fails_only (o : Options) :
    (∀ l : Listing, Ensures (eager l.method o).result
        (fun a => ∀ history, (a.after history).Answering) (fun e => e.IsFlowFailure l.name) ∧
      ((∃ a, (eager l.method o).result = .ok a) ↔
        ∃ pairs transitions, l.method.discover.result = .ok (l.instructions, pairs) ∧
          FlowGraph.endpoints l.instructions.length pairs = .ok transitions)) ∧
    ∀ b : Bytecode, Ensures (eager b.method o).result
      (fun a => ∀ history, (a.after history).Answering)
      fun e => e.IsFlowFailure b.name ∨ e.IsLookupFailure := by
  refine ⟨fun l => ⟨?_, l.exists_eager_iff o⟩, fun b => ?_⟩
  · apply (eager_ensures l.faultsInFlow).imp
    · exact fun a ha => ha
    · intro e he
      obtain hflow | ⟨f, hbuild, hlookup⟩ := he
      · exact hflow
      · exact absurd hlookup (Listing.not_lookupError hbuild)
  · apply (eager_ensures b.faultsInFlow).imp
    · exact fun a ha => ha
    · intro e he
      obtain hflow | ⟨f, -, hlookup⟩ := he
      · exact .inl hflow
      · exact .inr (hlookup.isLookupFailure b.faultsInLookup)

end Dependence
