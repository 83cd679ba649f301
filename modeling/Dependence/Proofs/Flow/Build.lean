import Dependence.Flow.Build
import Dependence.Method.Listing
import Dependence.Proofs.Graph.Edges

/-!
# What building a flow graph gives

`FlowGraph.connect` lays a flow graph out transition by transition, then bounds it by Entry and
Exit. In a layout the nodes are those of the table, in the order of their numbers: the two markers,
and one node for each instruction that was mentioned (`FlowGraph.Layout`). Placing a position keeps
this (`Layout.place`), and so does a transition, which adds its edge (`Layout.addTransition`).
Bounding a node looks at no edge of another node, so all nodes are bounded as the finished layout
says (`FlowGraph.foldlM_bound`).

* `FlowGraph.connect_spec` — a stream and its transitions always give a graph, with these edges;
* `FlowGraph.Bounded` — what any flow graph that was built has: markers at the ends only.
-/

namespace Dependence

/-! ### Tables -/

namespace NodeTable

variable {t : NodeTable} {i : Option Instruction}

/-- What `lookup?` finds is a node of the table, and stands for the instruction. -/
theorem lookup?_eq_some {n : Node} (h : t.lookup? i = some n) :
    n ∈ t.nodes ∧ standsFor i n = true :=
  ⟨List.mem_of_find?_eq_some h, List.find?_some h⟩

/-- What `lookup?` found before `append` it finds afterwards. -/
theorem lookup?_append {p : Number} {j : Option Instruction} {n : Node}
    (h : t.lookup? j = some n) : (t.append i p).1.lookup? j = some n := by
  rw [lookup?, append, List.find?_append]
  rw [lookup?] at h
  rw [h, Option.some_or]

/-- The node that `append` makes is found. -/
theorem lookup?_append_self {p : Number} (h : t.lookup? i = none) :
    (t.append i p).1.lookup? i = some (t.append i p).2 := by
  rw [lookup?] at h
  simp only [lookup?, append, List.find?_append, h, Option.none_or]
  simp [standsFor]

/-- Only places stand for an instruction; the position is of no account. -/
theorem standsFor_iff {n : Node} : standsFor i n = true ↔ ∃ p, n.content = .place i p := by
  unfold standsFor
  cases n.content with
  | entry => simp
  | exit => simp
  | place j p => simp

end NodeTable

namespace FlowGraph

/-- What `stream` holds at position `i`: nothing behind its end. -/
def instructionAt (stream : List (Option Instruction)) (i : ℕ) : Option Instruction :=
  stream[i]?.getD none

/-- `entry` is read off the table. -/
theorem entry_congr {f g : FlowGraph} (h : g.table = f.table) : g.entry = f.entry := by
  rw [entry, h, entry]

/-- `exit` is read off the table. -/
theorem exit_congr {f g : FlowGraph} (h : g.table = f.table) : g.exit = f.exit := by
  rw [exit, h, exit]

/-- The node of position `i`, once `place` has made it. -/
def nodeOf? (f : FlowGraph) (stream : List (Option Instruction)) (i : ℕ) : Option Node :=
  f.table.lookup? (instructionAt stream i)

/-! ### Laying out -/

/-- **A layout**: a flow graph before it is bounded. The positions `mentioned` so far have nodes,
and the `transitions` so far are its edges. -/
structure Layout (stream : List (Option Instruction)) (mentioned : List ℕ)
    (transitions : List (ℕ × ℕ)) (f : FlowGraph) : Prop where
  nodes_eq : f.nodes = f.table.nodes
  index_eq : f.nodes.map Node.index = List.range f.nodes.length
  /-- After the markers come nodes for positions that were mentioned. -/
  markers : ∃ places, f.nodes = f.entry :: f.exit :: places ∧
    ∀ n ∈ places, ∃ i ∈ mentioned, n.content = .place (instructionAt stream i) (.int i)
  /-- A node is the one that is found for its instruction. -/
  unique : ∀ n ∈ f.nodes, ∀ i, NodeTable.standsFor i n = true → f.table.lookup? i = some n
  found : ∀ i ∈ mentioned, (f.nodeOf? stream i).isSome
  edges : f.edges.map (fun e => (some e.source, some e.target)) =
    transitions.map fun t => (f.nodeOf? stream t.1, f.nodeOf? stream t.2)

/-- `FlowGraph.new` is the layout of nothing. -/
theorem Layout.new (stream : List (Option Instruction)) (table : ℕ) (unit : Value) :
    Layout stream [] [] (new (.new table) unit) := by
  have hnodes : (FlowGraph.new (.new table) unit).nodes =
      [(NodeTable.new table).entry, (NodeTable.new table).exit] := by
    simp [FlowGraph.new, Graph.ofNodes, Graph.addNode, Graph.empty, NodeTable.entry,
      NodeTable.exit]
  refine ⟨hnodes, by rw [hnodes]; rfl, ⟨[], hnodes, by simp⟩, ?_, by simp, ?_⟩
  · -- both nodes are markers, which stand for no instruction
    intro n hn i hi
    rw [hnodes] at hn
    obtain ⟨p, hp⟩ := NodeTable.standsFor_iff.1 hi
    rcases List.mem_cons.1 hn with rfl | hn
    · cases hp
    · obtain rfl := List.mem_singleton.1 hn
      cases hp
  · simp [FlowGraph.new, Graph.ofNodes, Graph.empty]

section Place

variable {stream : List (Option Instruction)} {mentioned : List ℕ}
  {transitions : List (ℕ × ℕ)} {f : FlowGraph}

/-- What `nodeOf?` finds is a node of the graph. -/
theorem Layout.mem_of_nodeOf? (h : Layout stream mentioned transitions f) {i : ℕ} {n : Node}
    (hn : f.nodeOf? stream i = some n) : n ∈ f.nodes :=
  h.nodes_eq ▸ (NodeTable.lookup?_eq_some hn).1

/-- `place` adds nothing where the instruction has a node. -/
theorem place_of_found (h : Layout stream mentioned transitions f) {i : ℕ} {n : Node}
    (hfind : f.nodeOf? stream i = some n) : f.place stream i = (f, n) := by
  have hfor : f.table.nodeFor (stream[i]?.getD none) (.int i) = (f.table, n) := by
    rw [nodeOf?, instructionAt] at hfind
    rw [NodeTable.nodeFor, hfind]
  have hadd : f.toGraph.addNode n = f.toGraph := dif_pos (h.mem_of_nodeOf? hfind)
  rw [FlowGraph.place, hfor]
  exact congrArg (·, n) (by rw [hadd])

/-- `place` makes a node where the instruction has none, and puts it last. -/
theorem place_of_new (h : Layout stream mentioned transitions f) {i : ℕ}
    (hfind : f.nodeOf? stream i = none) :
    (f.place stream i).1.table = (f.table.append (instructionAt stream i) (.int i)).1 ∧
      (f.place stream i).2 = (f.table.append (instructionAt stream i) (.int i)).2 ∧
      (f.place stream i).1.nodes = f.nodes ++ [(f.place stream i).2] ∧
      (f.place stream i).1.edges = f.edges := by
  have hfor : f.table.nodeFor (stream[i]?.getD none) (.int i) =
      f.table.append (instructionAt stream i) (.int i) := by
    rw [nodeOf?, instructionAt] at hfind
    rw [NodeTable.nodeFor, hfind]
    rfl
  -- were it there, `lookup?` would have found it
  have hnew : (f.table.append (instructionAt stream i) (.int i)).2 ∉ f.nodes := fun hmem => by
    have := h.unique _ hmem (instructionAt stream i) (NodeTable.standsFor_iff.2 ⟨_, rfl⟩)
    rw [nodeOf?, this] at hfind
    cases hfind
  rw [FlowGraph.place, hfor]
  refine ⟨rfl, rfl, ?_, Graph.edges_addNode _ _⟩
  simp only [Graph.addNode, dif_neg hnew]

/-- After `place`, position `i` has its node, and positions that had one keep it. -/
theorem nodeOf?_place (h : Layout stream mentioned transitions f) (i : ℕ) :
    (f.place stream i).1.nodeOf? stream i = some (f.place stream i).2 ∧
      ∀ j n, f.nodeOf? stream j = some n → (f.place stream i).1.nodeOf? stream j = some n := by
  cases hfind : f.nodeOf? stream i with
  | some n =>
    rw [place_of_found h hfind]
    exact ⟨hfind, fun j m hm => hm⟩
  | none =>
    obtain ⟨htable, hnode, -, -⟩ := place_of_new h hfind
    constructor
    · rw [nodeOf?, htable, hnode]
      exact NodeTable.lookup?_append_self hfind
    · intro j n hn
      rw [nodeOf?, htable]
      exact NodeTable.lookup?_append hn

/-- After `place`, all positions mentioned have nodes, `i` included. -/
theorem found_place (h : Layout stream mentioned transitions f) (i : ℕ) :
    ∀ j ∈ mentioned ++ [i], ((f.place stream i).1.nodeOf? stream j).isSome := by
  obtain ⟨hself, hkeep⟩ := nodeOf?_place h i
  intro j hj
  rcases List.mem_append.1 hj with hj | hj
  · obtain ⟨n, hn⟩ := Option.isSome_iff_exists.1 (h.found j hj)
    exact Option.isSome_iff_exists.2 ⟨n, hkeep j n hn⟩
  · obtain rfl := List.mem_singleton.1 hj
    exact Option.isSome_iff_exists.2 ⟨_, hself⟩

/-- **Placing a position** keeps the layout, if the position has no node yet. -/
theorem Layout.place_new (h : Layout stream mentioned transitions f) {i : ℕ}
    (hfind : f.nodeOf? stream i = none) :
    Layout stream (mentioned ++ [i]) transitions (f.place stream i).1 := by
  obtain ⟨htable, hnode, hnodes, hedges⟩ := place_of_new h hfind
  obtain ⟨hself, hkeep⟩ := nodeOf?_place h i
  refine ⟨?_, ?_, ?_, ?_, found_place h i, ?_⟩
  · rw [hnodes, htable, h.nodes_eq, hnode]
    rfl
  · -- the new node has the next number
    have hindex : (f.place stream i).2.index = f.nodes.length := by
      rw [hnode, h.nodes_eq]
      rfl
    rw [hnodes, List.map_append, h.index_eq, List.map_singleton, hindex, List.length_append]
    exact List.range_succ.symm
  · -- `append` leaves the markers where they are, and the new node is one more place
    obtain ⟨places, hplaces, hcontent⟩ := h.markers
    refine ⟨places ++ [(f.place stream i).2], ?_, fun m hm => ?_⟩
    · have hentry : (f.place stream i).1.entry = f.entry := by
        rw [FlowGraph.entry, htable]
        rfl
      have hexit : (f.place stream i).1.exit = f.exit := by
        rw [FlowGraph.exit, htable]
        rfl
      rw [hnodes, hplaces, hentry, hexit]
      rfl
    · rcases List.mem_append.1 hm with hm | hm
      · exact (hcontent m hm).imp fun j hj => ⟨List.mem_append_left _ hj.1, hj.2⟩
      · obtain rfl := List.mem_singleton.1 hm
        exact ⟨i, by simp, hnode ▸ rfl⟩
  · intro m hm j hj
    rw [hnodes] at hm
    rcases List.mem_append.1 hm with hm | hm
    · rw [htable]
      exact NodeTable.lookup?_append (h.unique m hm j hj)
    · -- the new node stands for the instruction of its position only
      obtain rfl := List.mem_singleton.1 hm
      obtain ⟨p, hp⟩ := NodeTable.standsFor_iff.1 hj
      rw [hnode] at hp
      obtain rfl : instructionAt stream i = j := (Node.Content.place.inj hp).1
      exact hself
  · rw [hedges, h.edges]
    refine List.map_congr_left fun t ht => ?_
    -- the ends of an edge have been found before
    have hmem : (f.nodeOf? stream t.1, f.nodeOf? stream t.2) ∈
        f.edges.map fun e => (some e.source, some e.target) := by
      rw [h.edges]
      exact List.mem_map_of_mem ht
    obtain ⟨e, -, he⟩ := List.mem_map.1 hmem
    obtain ⟨hs, ht⟩ := Prod.mk.inj he
    rw [hkeep _ _ hs.symm, hkeep _ _ ht.symm, ← hs, ← ht]

/-- **Placing a position** keeps the layout. -/
theorem Layout.place (h : Layout stream mentioned transitions f) (i : ℕ) :
    Layout stream (mentioned ++ [i]) transitions (f.place stream i).1 := by
  cases hfind : f.nodeOf? stream i with
  | some n =>
    -- the graph stays; the position joins those that were mentioned
    have hfound := found_place h i
    rw [place_of_found h hfind] at hfound ⊢
    refine { h with markers := ?_, found := hfound }
    obtain ⟨places, hplaces, hcontent⟩ := h.markers
    exact ⟨places, hplaces, fun m hm =>
      (hcontent m hm).imp fun j hj => ⟨List.mem_append_left _ hj.1, hj.2⟩⟩
  | none => exact h.place_new hfind

end Place

/-- `link` between nodes of a flow graph adds one edge. -/
theorem link_spec {f : FlowGraph} {s t : Node} (hs : s ∈ f.nodes) (ht : t ∈ f.nodes) :
    ∃ f', f.link s t = .ok f' ∧ f'.table = f.table ∧ f'.unit = f.unit ∧
      Graph.Extends f.toGraph [(s, t, .empty)] f'.toGraph := by
  obtain ⟨g, hg, hext⟩ := Graph.addEdge_spec hs ht .empty
  refine ⟨{ f with toGraph := g }, ?_, rfl, rfl, hext⟩
  rw [link, hg]
  rfl

section Transitions

variable {stream : List (Option Instruction)}

/-- **A transition** keeps the layout: `addTransition` places both positions, then joins them. -/
theorem Layout.addTransition {mentioned : List ℕ} {transitions : List (ℕ × ℕ)} {f : FlowGraph}
    (h : Layout stream mentioned transitions f) (t : ℕ × ℕ) :
    ∃ f', f.addTransition stream t = .ok f' ∧ f'.unit = f.unit ∧
      Layout stream (mentioned ++ [t.1, t.2]) (transitions ++ [t]) f' := by
  have h₁ := h.place t.1
  have h₂ := h₁.place t.2
  -- the source has its node still when the target is placed
  obtain ⟨hsource, -⟩ := nodeOf?_place h t.1
  obtain ⟨htarget, hkeep⟩ := nodeOf?_place h₁ t.2
  have hsource' := hkeep _ _ hsource
  obtain ⟨f', hlink, htable, hunit, hext⟩ :=
    link_spec (h₂.mem_of_nodeOf? hsource') (h₂.mem_of_nodeOf? htarget)
  have hnodeOf : ∀ i, f'.nodeOf? stream i =
      ((f.place stream t.1).1.place stream t.2).1.nodeOf? stream i := fun i => by
    rw [nodeOf?, htable, nodeOf?]
  refine ⟨f', hlink, hunit, ?_⟩
  rw [List.append_assoc] at h₂
  -- nodes and table are those of `h₂`; only the edges are others
  refine ⟨?_, ?_, ?_, ?_, ?_, ?_⟩
  · rw [hext.nodes, htable, h₂.nodes_eq]
  · rw [hext.nodes]
    exact h₂.index_eq
  · rw [hext.nodes, FlowGraph.entry, FlowGraph.exit, htable]
    exact h₂.markers
  · rw [hext.nodes, htable]
    exact h₂.unique
  · intro i hi
    rw [hnodeOf]
    exact h₂.found i hi
  · have harcs : ∀ g : Graph Node, g.edges.map (fun e => (some e.source, some e.target)) =
        (g.edges.map Edge.arc).map fun a => (some a.1, some a.2.1) := fun g => by
      rw [List.map_map]
      rfl
    rw [harcs, hext.arcs, List.map_append, ← harcs, h₂.edges, List.map_append]
    simp only [hnodeOf]
    rw [List.map_singleton, List.map_singleton, hsource', htarget]

/-- The positions that transitions mention. -/
def positionsOf (transitions : List (ℕ × ℕ)) : List ℕ := transitions.flatMap fun t => [t.1, t.2]

/-- **All transitions** keep the layout, one after another. -/
theorem Layout.foldlM {mentioned : List ℕ} {before : List (ℕ × ℕ)} {f : FlowGraph}
    (h : Layout stream mentioned before f) (transitions : List (ℕ × ℕ)) :
    ∃ f', transitions.foldlM (FlowGraph.addTransition stream) f = .ok f' ∧ f'.unit = f.unit ∧
      Layout stream (mentioned ++ positionsOf transitions) (before ++ transitions) f' := by
  -- on the transitions still to come, whatever was laid out `before`
  induction transitions generalizing mentioned before f with
  | nil => exact ⟨f, rfl, rfl, by simpa [positionsOf] using h⟩
  | cons t transitions ih =>
    obtain ⟨f₁, hstep, hunit, h₁⟩ := h.addTransition t
    obtain ⟨f₂, hrest, hunit', h₂⟩ := ih h₁
    refine ⟨f₂, ?_, hunit'.trans hunit, by simpa [positionsOf] using h₂⟩
    rw [List.foldlM_cons, hstep, ok_bind, hrest]

end Transitions

/-! ### Bounding -/

/-- The edges that `bound` adds at `n`: to Exit if it has no successor, from Entry if it has no
predecessor. -/
def boundArcs (f : FlowGraph) (n : Node) : List (Arc Node) :=
  (if (f.successors n).isEmpty then [(n, f.exit, .empty)] else []) ++
    if (f.predecessors n).isEmpty then [(f.entry, n, .empty)] else []

theorem mem_boundArcs {f : FlowGraph} {n : Node} {a : Arc Node} :
    a ∈ f.boundArcs n ↔
      f.successors n = [] ∧ a = (n, f.exit, .empty) ∨
        f.predecessors n = [] ∧ a = (f.entry, n, .empty) := by
  unfold boundArcs
  by_cases hs : f.successors n = [] <;> by_cases hp : f.predecessors n = [] <;> simp [hs, hp]

/-- `link_spec` for an edge that is added under a condition. -/
theorem link_if_spec {f : FlowGraph} {s t : Node} (hs : s ∈ f.nodes) (ht : t ∈ f.nodes)
    (c : Prop) [Decidable c] :
    ∃ f', (if c then f.link s t else .ok f) = .ok f' ∧ f'.table = f.table ∧ f'.unit = f.unit ∧
      Graph.Extends f.toGraph (if c then [(s, t, .empty)] else []) f'.toGraph := by
  by_cases hc : c
  · simp only [if_pos hc]
    exact link_spec hs ht
  · simp only [if_neg hc]
    exact ⟨f, rfl, rfl, rfl, .refl _⟩

/-- `bound` in two steps: the edge to Exit, then the edge from Entry. -/
theorem bound_eq (f : FlowGraph) (n : Node) :
    f.bound n = (if (f.successors n).isEmpty then f.link n f.exit else .ok f) >>=
      fun f => if (f.predecessors n).isEmpty then f.link f.entry n else .ok f := by
  unfold bound
  split <;> rfl

/-- **Bounding a node** `n` of `g`, which is `f` with further edges, none of them at `n`: the edges
added are those that `f` calls for. -/
theorem bound_spec {f g : FlowGraph} {arcs : List (Arc Node)} {n : Node}
    (hext : Graph.Extends f.toGraph arcs g.toGraph) (htable : g.table = f.table)
    (hentry : f.entry ∈ f.nodes) (hexit : f.exit ∈ f.nodes) (hn : n ∈ f.nodes)
    (hne : n ≠ f.exit) (harcs : ∀ a ∈ arcs, a.1 ≠ n ∧ a.2.1 ≠ n) :
    ∃ g', g.bound n = .ok g' ∧ g'.table = g.table ∧ g'.unit = g.unit ∧
      Graph.Extends g.toGraph (f.boundArcs n) g'.toGraph := by
  have hexit' : g.exit = f.exit := exit_congr htable
  -- the further edges make no successor of `n`
  have hsucc : (g.successors n).isEmpty = (f.successors n).isEmpty := by
    rw [Bool.eq_iff_iff, List.isEmpty_iff, List.isEmpty_iff]
    exact hext.successors_eq_nil_iff fun a ha => (harcs a ha).1
  obtain ⟨g₁, hfirst, htable₁, hunit₁, hext₁⟩ := link_if_spec (f := g) (s := n) (t := g.exit)
    (hext.nodes ▸ hn) (hext.nodes ▸ hexit' ▸ hexit) ((g.successors n).isEmpty = true)
  -- the edge to Exit does not make a predecessor of the node
  have hpred : (g₁.predecessors n).isEmpty = (f.predecessors n).isEmpty := by
    rw [Bool.eq_iff_iff, List.isEmpty_iff, List.isEmpty_iff]
    refine (hext.trans hext₁).predecessors_eq_nil_iff fun a ha => ?_
    rcases List.mem_append.1 ha with ha | ha
    · exact (harcs a ha).2
    · split at ha
      · obtain rfl := List.mem_singleton.1 ha
        exact fun heq => hne (heq.symm.trans hexit')
      · cases ha
  have hentry₁ : g₁.entry = f.entry := entry_congr (htable₁.trans htable)
  obtain ⟨g₂, hsecond, htable₂, hunit₂, hext₂⟩ := link_if_spec (f := g₁) (s := g₁.entry) (t := n)
    (by rw [hext₁.nodes, hext.nodes, hentry₁]; exact hentry)
    (by rw [hext₁.nodes, hext.nodes]; exact hn) ((g₁.predecessors n).isEmpty = true)
  refine ⟨g₂, ?_, htable₂.trans htable₁, hunit₂.trans hunit₁, ?_⟩
  · rw [bound_eq, hfirst, ok_bind, hsecond]
  · rw [boundArcs, ← hsucc, ← hpred, ← hexit', ← hentry₁]
    exact hext₁.trans hext₂

/-- **Bounding node after node**: each is bounded as `f`, the graph at the start, calls for. -/
theorem foldlM_bound {f g : FlowGraph} {arcs : List (Arc Node)} {items : List Node}
    (hext : Graph.Extends f.toGraph arcs g.toGraph) (htable : g.table = f.table)
    (hentry : f.entry ∈ f.nodes) (hexit : f.exit ∈ f.nodes) (hnodup : items.Nodup)
    (hitems : ∀ n ∈ items, n ∈ f.nodes ∧ n ≠ f.entry ∧ n ≠ f.exit)
    (harcs : ∀ a ∈ arcs, ∀ n ∈ items, a.1 ≠ n ∧ a.2.1 ≠ n) :
    ∃ g', items.foldlM FlowGraph.bound g = .ok g' ∧ g'.table = g.table ∧ g'.unit = g.unit ∧
      Graph.Extends g.toGraph (items.flatMap f.boundArcs) g'.toGraph := by
  -- on the nodes still to be bounded; `arcs` are the edges added so far
  induction items generalizing g arcs with
  | nil => exact ⟨g, rfl, rfl, rfl, .refl _⟩
  | cons n items ih =>
    obtain ⟨hn, hrest⟩ := List.forall_mem_cons.1 hitems
    obtain ⟨hnew, hnodup⟩ := List.nodup_cons.1 hnodup
    obtain ⟨g₁, hstep, htable₁, hunit₁, hext₁⟩ := bound_spec hext htable hentry hexit hn.1 hn.2.2
      fun a ha => harcs a ha n List.mem_cons_self
    -- the edges of this node join it with a marker, so none is at a node that is still to come
    have harcs₁ : ∀ a ∈ arcs ++ f.boundArcs n, ∀ m ∈ items, a.1 ≠ m ∧ a.2.1 ≠ m := by
      intro a ha m hm
      rcases List.mem_append.1 ha with ha | ha
      · exact harcs a ha m (List.mem_cons_of_mem _ hm)
      · have hnm : n ≠ m := fun heq => hnew (heq ▸ hm)
        have hm' := hrest m hm
        rcases mem_boundArcs.1 ha with ⟨-, rfl⟩ | ⟨-, rfl⟩
        · exact ⟨hnm, Ne.symm hm'.2.2⟩
        · exact ⟨Ne.symm hm'.2.1, hnm⟩
    obtain ⟨g₂, hfold, htable₂, hunit₂, hext₂⟩ :=
      ih (hext.trans hext₁) (htable₁.trans htable) hnodup hrest harcs₁
    refine ⟨g₂, ?_, htable₂.trans htable₁, hunit₂.trans hunit₁, hext₁.trans hext₂⟩
    rw [List.foldlM_cons, hstep, ok_bind, hfold]

/-! ### The whole graph -/

/-- `places` are the nodes that are no markers. -/
theorem mem_places {f : FlowGraph} {n : Node} :
    n ∈ f.places ↔ n ∈ f.nodes ∧ n.isMarker = false := by
  simp [places]

theorem nodup_places (f : FlowGraph) : f.places.Nodup :=
  (List.mergeSort_perm _ _).nodup_iff.2 (f.nodup.filter _)

/-- **The ends of a flow graph**: the markers stand at its two ends, and nowhere else. -/
structure Bounded (f : FlowGraph) : Prop where
  entry_mem : f.entry ∈ f.nodes
  exit_mem : f.exit ∈ f.nodes
  marker : ∀ n ∈ f.nodes, n.isMarker = true → n = f.entry ∨ n = f.exit
  entry_first : ∀ n, f.entry ∉ f.successors n
  exit_last : f.successors f.exit = []

section Connect

variable {stream : List (Option Instruction)} {transitions : List (ℕ × ℕ)}

/-- The positions that `connect` places: the first one, and those of the transitions. -/
def mentions (stream : List (Option Instruction)) (transitions : List (ℕ × ℕ)) : List ℕ :=
  (if stream.isEmpty then [] else [0]) ++ positionsOf transitions

/-- The edges that `connect` adds to a layout: those that bound its places, and one from Entry to
Exit if there are none. -/
def closingArcs (f : FlowGraph) : List (Arc Node) :=
  f.places.flatMap f.boundArcs ++
    if f.nodes.length = 2 then [(f.entry, f.exit, .empty)] else []

/-- Markers are no places. -/
theorem ne_markers_of_mem_places {f : FlowGraph} {n : Node} (hn : n ∈ f.places) :
    n ≠ f.entry ∧ n ≠ f.exit := by
  have hmarker := (mem_places.1 hn).2
  refine ⟨?_, ?_⟩
  · rintro rfl
    cases hmarker
  · rintro rfl
    cases hmarker

/-- **The edges of a closed layout** `g`: those of the layout `f`, and its `closingArcs`. -/
theorem mem_successors_closed {f g : FlowGraph}
    (hext : Graph.Extends f.toGraph f.closingArcs g.toGraph) {a b : Node} :
    b ∈ g.successors a ↔
      b ∈ f.successors a ∨ (a ∈ f.places ∧ f.successors a = [] ∧ b = f.exit) ∨
        (b ∈ f.places ∧ f.predecessors b = [] ∧ a = f.entry) ∨
          (f.nodes.length = 2 ∧ a = f.entry ∧ b = f.exit) := by
  rw [hext.mem_successors]
  refine or_congr_right ?_
  simp only [closingArcs, List.mem_append, List.mem_flatMap, mem_boundArcs]
  -- the arcs, one kind after another: to Exit, from Entry, from Entry to Exit
  constructor
  · rintro ⟨attributes, ⟨n, hn, ⟨hs, heq⟩ | ⟨hp, heq⟩⟩ | hlast⟩
    · cases heq
      exact .inl ⟨hn, hs, rfl⟩
    · cases heq
      exact .inr (.inl ⟨hn, hp, rfl⟩)
    · split at hlast
      · cases List.mem_singleton.1 hlast
        exact .inr (.inr ⟨‹_›, rfl, rfl⟩)
      · cases hlast
  · rintro (⟨hn, hs, rfl⟩ | ⟨hn, hp, rfl⟩ | ⟨hlength, rfl, rfl⟩)
    · exact ⟨_, .inl ⟨a, hn, .inl ⟨hs, rfl⟩⟩⟩
    · exact ⟨_, .inl ⟨b, hn, .inr ⟨hp, rfl⟩⟩⟩
    · exact ⟨_, .inr (by rw [if_pos hlength]; exact List.mem_singleton_self _)⟩

namespace Layout

variable {mentioned : List ℕ} {f : FlowGraph} (h : Layout stream mentioned transitions f)

include h

theorem entry_mem : f.entry ∈ f.nodes := by
  obtain ⟨places, hplaces, -⟩ := h.markers
  rw [hplaces]
  exact List.mem_cons_self

theorem exit_mem : f.exit ∈ f.nodes := by
  obtain ⟨places, hplaces, -⟩ := h.markers
  rw [hplaces]
  exact List.mem_cons_of_mem _ List.mem_cons_self

/-- A node of a layout is a marker, or the place of a position that was mentioned. -/
theorem cases_node {n : Node} (hn : n ∈ f.nodes) :
    n = f.entry ∨ n = f.exit ∨
      ∃ i ∈ mentioned, n.content = .place (instructionAt stream i) (.int i) := by
  obtain ⟨places, hplaces, hcontent⟩ := h.markers
  rw [hplaces] at hn
  rcases List.mem_cons.1 hn with rfl | hn
  · exact .inl rfl
  · rcases List.mem_cons.1 hn with rfl | hn
    · exact .inr (.inl rfl)
    · exact .inr (.inr (hcontent n hn))

/-- In a layout, a node leads to another just if a transition joins their positions. -/
theorem mem_successors_iff {a b : Node} :
    b ∈ f.successors a ↔
      ∃ t ∈ transitions, f.nodeOf? stream t.1 = some a ∧ f.nodeOf? stream t.2 = some b := by
  have hmem : b ∈ f.successors a ↔
      (some a, some b) ∈ f.edges.map fun e => (some e.source, some e.target) := by
    rw [Graph.mem_successors]
    simp only [List.mem_map, Prod.mk.injEq, Option.some.injEq]
  rw [hmem, h.edges]
  simp only [List.mem_map, Prod.mk.injEq]

/-- Transitions join places. -/
theorem mem_places_of_mem_successors {a b : Node} (hab : b ∈ f.successors a) :
    a ∈ f.places ∧ b ∈ f.places := by
  -- what `nodeOf?` finds stands for an instruction, so it is no marker
  have hplace : ∀ i n, f.nodeOf? stream i = some n → n ∈ f.places := by
    intro i n hn
    obtain ⟨p, hp⟩ := NodeTable.standsFor_iff.1 (NodeTable.lookup?_eq_some hn).2
    exact mem_places.2 ⟨h.mem_of_nodeOf? hn, by rw [Node.isMarker, hp]⟩
  obtain ⟨t, -, hsource, htarget⟩ := h.mem_successors_iff.1 hab
  exact ⟨hplace _ _ hsource, hplace _ _ htarget⟩

end Layout

/-- **`connect` never fails**: it lays out the transitions and closes the layout. -/
theorem connect_spec (table : ℕ) (unit : Value) (stream : List (Option Instruction))
    (transitions : List (ℕ × ℕ)) :
    ∃ layout f, connect table unit stream transitions = .ok f ∧
      Layout stream (mentions stream transitions) transitions layout ∧ f.table = layout.table ∧
      f.unit = unit ∧ Graph.Extends layout.toGraph layout.closingArcs f.toGraph := by
  -- the first position is placed, if there is one
  have hstart : ∃ f₀, (if stream.isEmpty then FlowGraph.new (.new table) unit
        else ((FlowGraph.new (.new table) unit).place stream 0).1) = f₀ ∧ f₀.unit = unit ∧
      Layout stream (if stream.isEmpty then [] else [0]) [] f₀ := by
    have hnew := Layout.new stream table unit
    split
    · exact ⟨_, rfl, rfl, hnew⟩
    · exact ⟨_, rfl, rfl, hnew.place 0⟩
  obtain ⟨f₀, hf₀, hunit₀, h₀⟩ := hstart
  obtain ⟨layout, hfold, hunit₁, hlayout⟩ := h₀.foldlM transitions
  -- then the places are bounded; at the start no edge has been added
  obtain ⟨g, hbound, htable₂, hunit₂, hext₂⟩ := foldlM_bound (.refl layout.toGraph) rfl
    hlayout.entry_mem hlayout.exit_mem layout.nodup_places
    (fun n hn => ⟨(mem_places.1 hn).1, ne_markers_of_mem_places hn⟩) nofun
  -- and Entry leads to Exit if there is nothing in between
  have hentry : g.entry = layout.entry := entry_congr htable₂
  have hexit : g.exit = layout.exit := exit_congr htable₂
  obtain ⟨f, hlast, htable₃, hunit₃, hext₃⟩ := link_if_spec (f := g) (s := g.entry) (t := g.exit)
    (by rw [hext₂.nodes, hentry]; exact hlayout.entry_mem)
    (by rw [hext₂.nodes, hexit]; exact hlayout.exit_mem) (g.nodes.length = 2)
  refine ⟨layout, f, ?_, hlayout, htable₃.trans htable₂, ?_, ?_⟩
  · rw [connect]
    simp only [hf₀, hfold, ok_bind, hbound, hlast]
  · rw [hunit₃, hunit₂, hunit₁, hunit₀]
  · rw [hentry, hexit, hext₂.nodes] at hext₃
    exact hext₂.trans hext₃

/-- **A closed layout is bounded** by its markers. -/
theorem Layout.bounded {mentioned : List ℕ} {layout f : FlowGraph}
    (h : Layout stream mentioned transitions layout) (htable : f.table = layout.table)
    (hext : Graph.Extends layout.toGraph layout.closingArcs f.toGraph) : Bounded f := by
  have hentry : f.entry = layout.entry := entry_congr htable
  have hexit : f.exit = layout.exit := exit_congr htable
  have hne : layout.exit ≠ layout.entry := by
    simp [FlowGraph.exit, FlowGraph.entry, NodeTable.exit, NodeTable.entry]
  refine ⟨?_, ?_, ?_, ?_, ?_⟩
  · rw [hentry, hext.nodes]
    exact h.entry_mem
  · rw [hexit, hext.nodes]
    exact h.exit_mem
  · intro n hn hmarker
    rw [hext.nodes] at hn
    rw [hentry, hexit]
    rcases h.cases_node hn with hn | hn | ⟨i, -, hi⟩
    · exact .inl hn
    · exact .inr hn
    · rw [Node.isMarker, hi] at hmarker
      cases hmarker
  · -- no edge of the closed graph arrives at Entry, and none leaves Exit
    intro n hn
    rw [hentry, mem_successors_closed hext] at hn
    rcases hn with hn | ⟨-, -, hn⟩ | ⟨hn, -⟩ | ⟨-, -, hn⟩
    · exact (ne_markers_of_mem_places (h.mem_places_of_mem_successors hn).2).1 rfl
    · exact hne hn.symm
    · exact (ne_markers_of_mem_places hn).1 rfl
    · exact hne hn.symm
  · refine List.eq_nil_iff_forall_not_mem.2 fun b hb => ?_
    rw [hexit, mem_successors_closed hext] at hb
    rcases hb with hb | ⟨hb, -⟩ | ⟨-, -, hb⟩ | ⟨-, hb, -⟩
    · exact (ne_markers_of_mem_places (h.mem_places_of_mem_successors hb).1).2 rfl
    · exact (ne_markers_of_mem_places hb).2 rfl
    · exact hne hb
    · exact hne hb

end Connect

/-- **What `build` gives** was connected from the stream and the transitions that it discovered. -/
theorem exists_connect_of_build {m : Method} {table : ℕ} {given : Value} {f : FlowGraph}
    (h : (build m table given).result = .ok f) :
    ∃ stream pairs transitions unit, m.discover.result = .ok (stream, pairs) ∧
      endpoints stream.length pairs = .ok transitions ∧
      connect table unit stream transitions = .ok f := by
  unfold build at h
  -- every branch but the last is an error
  cases hfound : m.discover.result with
  | error e =>
    simp only [hfound] at h
    cases e with
    | fault c =>
      simp only [onDiscoveryError] at h
      split at h <;> cases h
    | analysis e => cases h
  | ok found =>
    obtain ⟨stream, pairs⟩ := found
    simp only [hfound, ofDiscovery] at h
    cases hends : endpoints stream.length pairs with
    | error v =>
      rw [hends] at h
      cases h
    | ok transitions =>
      rw [hends] at h
      simp only at h
      cases hconnect : connect table (if given.isTruthy then given else m.name) stream
          transitions with
      | error c =>
        rw [hconnect] at h
        cases h
      | ok g =>
        rw [hconnect] at h
        cases h
        exact ⟨stream, pairs, transitions, _, rfl, hends, hconnect⟩

/-- **`build` succeeds** where the stream and the transitions can be discovered and all endpoints
are positions. -/
theorem exists_build {m : Method} {stream : List (Option Instruction)}
    {pairs : List (Value × Value)} {transitions : List (ℕ × ℕ)} (table : ℕ) (given : Value)
    (hfound : m.discover.result = .ok (stream, pairs))
    (hends : endpoints stream.length pairs = .ok transitions) :
    ∃ f, (build m table given).result = .ok f := by
  obtain ⟨layout, f, hconnect, -⟩ :=
    connect_spec table (if given.isTruthy then given else m.name) stream transitions
  refine ⟨f, ?_⟩
  simp only [build, hfound, ofDiscovery, hends, hconnect]

/-- What `build` gives is bounded by its markers. -/
theorem bounded_of_build {m : Method} {table : ℕ} {given : Value} {f : FlowGraph}
    (h : (build m table given).result = .ok f) : Bounded f := by
  obtain ⟨stream, pairs, transitions, unit, -, -, hconnect⟩ := exists_connect_of_build h
  obtain ⟨layout, f', hconnect', hlayout, htable, -, hext⟩ :=
    connect_spec table unit stream transitions
  rw [hconnect] at hconnect'
  cases hconnect'
  exact hlayout.bounded htable hext

end FlowGraph

/-- `discover` on a listing: its instructions, and its transitions read as pairs. -/
theorem Listing.discover_eq_ok {l : Listing} {stream : List (Option Instruction)}
    {pairs : List (Value × Value)} :
    l.method.discover.result = .ok (stream, pairs) ↔
      stream = l.instructions ∧ l.transitions.mapM
        (fun v => (liftM v.pair : Except Error (Value × Value))) = .ok pairs := by
  have hresult : l.method.discover.result =
      l.method.transitions.pairs.result >>= fun pairs => .ok (l.instructions, pairs) := by
    simp only [Method.discover, Outcome.result_bind, Outcome.result_pure]
    rfl
  have hpairs : l.method.transitions.pairs.result =
      l.transitions.mapM (fun v => (liftM v.pair : Except Error (Value × Value))) := by
    show (l.transitions.mapM _ >>= Except.ok) = _
    cases l.transitions.mapM (fun v => (liftM v.pair : Except Error (Value × Value))) <;> rfl
  rw [hresult, hpairs, bind_eq_ok]
  constructor
  · rintro ⟨found, hfound, heq⟩
    cases heq
    exact ⟨rfl, hfound⟩
  · rintro ⟨rfl, hfound⟩
    exact ⟨pairs, hfound, rfl⟩

/-- A listing of `count` statements without variables, with `steps` between their positions. -/
def Listing.ofSteps (count : ℕ) (steps : List (ℕ × ℕ)) : Listing where
  name := .text "steps"
  instructions := (List.range count).map fun i => some { ident := i, text := "", shown := "" }
  transitions := steps.map fun s => .tuple [.int s.1, .int s.2]
  definitions := .empty
  uses := .empty

end Dependence
