import Dependence.Proofs.Flow.Topology

/-!
# The shape of a flow graph

A flow graph is given, edge for edge, by the length of its stream and the transitions that were
discovered: `edgeCount` says how many edges lead from one program point to another, and a graph that
fits has an `Outline`. The edges of a layout are the transitions one by one
(`DistinctLayout.points_edges`); those that close it have no two between the same program points
(`DistinctLayout.nodup_closingPoints`), so all edges are counted (`DistinctLayout.count_points`).

All else is read off the outline: which nodes lead to which, that only the markers have no
neighbours on one side, which places there are and which of them Entry leads to, and which nodes
branch. A node that leads to Exit leads nowhere else, so it makes no difference that Exit is not
counted among the targets of a branch (`Outline.mem_branches_iff`).
-/

namespace Dependence

/-- `v` is the whole number `i`, in one of the spellings that `Number.index?` reads. -/
def Value.IsWhole (v : Value) (i : ℕ) : Prop :=
  ∃ n : Number, v = .number n ∧ n.index? = some (i : ℤ)

/-- `Number.le` on whole numbers is their order. -/
theorem Number.le_int (i j : ℤ) : (Number.int i).le (.int j) = decide (i ≤ j) := by
  simp only [Number.le, Number.exact, Exact.lt, Nat.pow_eq, pow_zero, Nat.cast_one, mul_one,
    ← decide_not, not_lt]

/-- The position of a program point that is no end; `0` at the ends. -/
def ProgramPoint.index : ProgramPoint → ℕ
  | .position i => i
  | _ => 0

/-- The program points that `e` joins. -/
def Edge.points (e : Edge Node) : ProgramPoint × ProgramPoint := (e.source.point, e.target.point)

/-- `isMarker` says that a node stands at an end. -/
theorem Node.isMarker_iff_point {n : Node} :
    n.isMarker = true ↔ n.point = .entry ∨ n.point = .exit := by
  unfold Node.isMarker Node.point
  cases n.content <;> simp

namespace FlowGraph

/-- **The number of edges between program points.** Between positions these are the transitions. A
position from which no transition starts leads to Exit, one at which no transition ends is entered
from Entry, and an empty stream leads from Entry to Exit. -/
def edgeCount (stream : List (Option Instruction)) (transitions : List (ℕ × ℕ)) :
    ProgramPoint → ProgramPoint → ℕ
  | .position i, .position j => transitions.count (i, j)
  | .position i, .exit =>
    if i ∈ mentions stream transitions ∧ ∀ t ∈ transitions, t.1 ≠ i then 1 else 0
  | .entry, .position j =>
    if j ∈ mentions stream transitions ∧ ∀ t ∈ transitions, t.2 ≠ j then 1 else 0
  | .entry, .exit => if stream = [] then 1 else 0
  | _, _ => 0

section EdgeCount

variable {stream : List (Option Instruction)} {transitions : List (ℕ × ℕ)}

/-- Exit is led to from the positions that no transition starts from. -/
theorem edgeCount_exit_pos {i : ℕ} : 0 < edgeCount stream transitions (.position i) .exit ↔
    i ∈ mentions stream transitions ∧ ∀ t ∈ transitions, t.1 ≠ i := by
  simp only [edgeCount]
  split
  · rename_i hlast
    exact iff_of_true Nat.one_pos hlast
  · rename_i hlast
    exact iff_of_false (Nat.lt_irrefl 0) hlast

/-- Entry leads to the positions that no transition ends at. -/
theorem edgeCount_entry_pos {j : ℕ} : 0 < edgeCount stream transitions .entry (.position j) ↔
    j ∈ mentions stream transitions ∧ ∀ t ∈ transitions, t.2 ≠ j := by
  simp only [edgeCount]
  split
  · rename_i hfirst
    exact iff_of_true Nat.one_pos hfirst
  · rename_i hfirst
    exact iff_of_false (Nat.lt_irrefl 0) hfirst

end EdgeCount

/-- **The outline of a flow graph** `f`, as `stream` and `transitions` give it. -/
structure Outline (stream : List (Option Instruction)) (transitions : List (ℕ × ℕ))
    (f : FlowGraph) : Prop where
  /-- The nodes are listed as in the table, and numbered in this order. -/
  nodes_eq : f.nodes = f.table.nodes
  index_eq : f.nodes.map Node.index = List.range f.nodes.length
  entry_mem : f.entry ∈ f.nodes
  exit_mem : f.exit ∈ f.nodes
  /-- There is one node at each end and one at each position that is mentioned. -/
  nodup_points : (f.nodes.map Node.point).Nodup
  mem_points : ∀ s, s ∈ f.nodes.map Node.point ↔
    s = .entry ∨ s = .exit ∨ ∃ i ∈ mentions stream transitions, s = .position i
  content : ∀ n ∈ f.nodes, ∀ i, n.point = .position i →
    n.content = .place (instructionAt stream i) (.int i)
  /-- The edges, counted by the program points that they join. -/
  edges : ∀ s t, (f.edges.map Edge.points).count (s, t) = edgeCount stream transitions s t

/-! ### The edges of a closed layout -/

/-- The program point of a place, given those of an edge of `boundArcs` at it. -/
def pointBounded : ProgramPoint × ProgramPoint → ProgramPoint
  | (.entry, t) => t
  | (s, _) => s

/-- Transitions join positions only, so no other pair of program points is among theirs. -/
theorem count_transitions_eq_zero {transitions : List (ℕ × ℕ)} {s t : ProgramPoint}
    (hst : ∀ i j, s = .position i → t ≠ .position j) :
    (transitions.map fun e => (ProgramPoint.position e.1, ProgramPoint.position e.2)).count (s, t) =
      0 := by
  refine List.count_eq_zero.2 fun hmem => ?_
  obtain ⟨e, -, heq⟩ := List.mem_map.1 hmem
  cases heq
  exact hst e.1 e.2 rfl rfl

/-- Between positions, transitions are counted as they are listed. -/
theorem count_transitions (transitions : List (ℕ × ℕ)) (i j : ℕ) :
    (transitions.map fun e => (ProgramPoint.position e.1, ProgramPoint.position e.2)).count
      (.position i, .position j) = transitions.count (i, j) := by
  have hinj : Function.Injective fun e : ℕ × ℕ =>
      (ProgramPoint.position e.1, ProgramPoint.position e.2) := by
    rintro ⟨i, j⟩ ⟨i', j'⟩ heq
    cases heq
    rfl
  exact List.count_map_of_injective transitions _ hinj (i, j)

namespace DistinctLayout

variable {stream : List (Option Instruction)} {mentioned : List ℕ}
  {transitions : List (ℕ × ℕ)} {f : FlowGraph} (h : DistinctLayout stream mentioned transitions f)

include h

/-- **The edges of a layout** are the transitions, one by one. -/
theorem points_edges :
    f.edges.map Edge.points = transitions.map fun t => (.position t.1, .position t.2) := by
  have hpoint : ∀ i ∈ mentioned, (f.nodeOf? stream i).map Node.point = some (.position i) := by
    intro i hi
    obtain ⟨n, hn⟩ := Option.isSome_iff_exists.1 (h.found i hi)
    rw [hn, Option.map_some, h.point_of_nodeOf? hi hn]
  -- `h.edges` speaks of the nodes found for the positions; each is taken to its program point
  have hedges := congrArg (List.map fun p : Option Node × Option Node =>
    (p.1.map Node.point, p.2.map Node.point)) h.edges
  rw [List.map_map, List.map_map] at hedges
  have hsome : Function.Injective fun p : ProgramPoint × ProgramPoint => (some p.1, some p.2) := by
    rintro ⟨s, t⟩ ⟨s', t'⟩ heq
    cases heq
    rfl
  -- `hedges` is about options, all of them `some`
  apply List.map_injective_iff.2 hsome
  rw [List.map_map, List.map_map]
  refine hedges.trans (List.map_congr_left fun t ht => ?_)
  obtain ⟨hsource, htarget⟩ := h.ends t ht
  change ((f.nodeOf? stream t.1).map Node.point, (f.nodeOf? stream t.2).map Node.point) = _
  rw [hpoint _ hsource, hpoint _ htarget]
  rfl

/-- The program points that `closingArcs` joins. -/
theorem mem_closingPoints {s t : ProgramPoint} :
    (s, t) ∈ f.closingArcs.map (fun a => (a.1.point, a.2.1.point)) ↔
      (∃ i ∈ mentioned, s = .position i ∧ t = .exit ∧ ∀ e ∈ transitions, e.1 ≠ i) ∨
        (∃ j ∈ mentioned, s = .entry ∧ t = .position j ∧ ∀ e ∈ transitions, e.2 ≠ j) ∨
          (mentioned = [] ∧ s = .entry ∧ t = .exit) := by
  rw [← h.length_nodes_eq_two_iff]
  simp only [closingArcs, List.map_append, List.mem_append, List.mem_map, List.mem_flatMap,
    mem_boundArcs]
  -- `last_iff` and `first_iff` take the arcs at a place to its position, and back
  constructor
  · rintro (⟨a, ⟨n, hn, ⟨hs, rfl⟩ | ⟨hp, rfl⟩⟩, heq⟩ | ⟨a, ha, heq⟩)
    · obtain ⟨i, hpoint, hi, hnone⟩ := (h.last_iff (mem_places.1 hn).1).1 ⟨hn, hs⟩
      cases heq
      exact .inl ⟨i, hi, hpoint, rfl, hnone⟩
    · obtain ⟨j, hpoint, hj, hnone⟩ := (h.first_iff (mem_places.1 hn).1).1 ⟨hn, hp⟩
      cases heq
      exact .inr (.inl ⟨j, hj, rfl, hpoint, hnone⟩)
    · split at ha
      · rename_i hlength
        obtain rfl := List.mem_singleton.1 ha
        cases heq
        exact .inr (.inr ⟨hlength, rfl, rfl⟩)
      · cases ha
  · rintro (⟨i, hi, rfl, rfl, hnone⟩ | ⟨j, hj, rfl, rfl, hnone⟩ | ⟨hlength, rfl, rfl⟩)
    · obtain ⟨n, hn, hpoint⟩ := h.exists_point hi
      obtain ⟨hplace, hs⟩ := (h.last_iff hn).2 ⟨i, hpoint, hi, hnone⟩
      exact .inl ⟨_, ⟨n, hplace, .inl ⟨hs, rfl⟩⟩, by rw [hpoint]; rfl⟩
    · obtain ⟨n, hn, hpoint⟩ := h.exists_point hj
      obtain ⟨hplace, hp⟩ := (h.first_iff hn).2 ⟨j, hpoint, hj, hnone⟩
      exact .inl ⟨_, ⟨n, hplace, .inr ⟨hp, rfl⟩⟩, by rw [hpoint]; rfl⟩
    · exact .inr ⟨_, by rw [if_pos hlength]; exact List.mem_singleton_self _, rfl⟩

/-- `pointBounded` finds the place that an edge of `boundArcs` is at. -/
theorem pointBounded_of_mem {n : Node} (hn : n ∈ f.places) {a : Arc Node} (ha : a ∈ f.boundArcs n) :
    pointBounded (a.1.point, a.2.1.point) = n.point := by
  obtain ⟨i, -, hi⟩ := (h.mem_places_iff_point (mem_places.1 hn).1).1 hn
  obtain ⟨-, rfl⟩ | ⟨-, rfl⟩ := mem_boundArcs.1 ha
  · change pointBounded (n.point, .exit) = n.point
    rw [hi]
    rfl
  · rfl

/-- **No two edges of `closingArcs`** join the same program points. -/
theorem nodup_closingPoints : (f.closingArcs.map fun a => (a.1.point, a.2.1.point)).Nodup := by
  rw [closingArcs, List.map_append, List.nodup_append', List.map_flatMap, List.nodup_flatMap]
  refine ⟨⟨?_, ?_⟩, ?_, ?_⟩
  · -- at one place there is at most one edge of each direction
    intro n hn
    obtain ⟨i, -, hi⟩ := (h.mem_places_iff_point (mem_places.1 hn).1).1 hn
    have hentry : f.entry.point = .entry := rfl
    unfold boundArcs
    split <;> split <;> simp [hi, hentry]
  · -- edges at different places differ, since `pointBounded` tells the place
    refine f.nodup_places.imp_of_mem fun {n m} hn hm hne => ?_
    intro ends hends hends'
    obtain ⟨a, ha, rfl⟩ := List.mem_map.1 hends
    obtain ⟨b, hb, heq⟩ := List.mem_map.1 hends'
    apply hne
    apply h.point_inj (mem_places.1 hn).1 (mem_places.1 hm).1
    calc n.point = pointBounded (a.1.point, a.2.1.point) := (h.pointBounded_of_mem hn ha).symm
      _ = pointBounded (b.1.point, b.2.1.point) := congrArg pointBounded heq.symm
      _ = m.point := h.pointBounded_of_mem hm hb
  · split
    · exact List.nodup_singleton _
    · exact List.nodup_nil
  · -- an edge from end to end is at no place
    intro ends hends hends'
    obtain ⟨n, hn, hmem⟩ := List.mem_flatMap.1 hends
    obtain ⟨i, -, hi⟩ := (h.mem_places_iff_point (mem_places.1 hn).1).1 hn
    obtain ⟨a, ha, rfl⟩ := List.mem_map.1 hmem
    obtain ⟨b, hb, heq⟩ := List.mem_map.1 hends'
    split at hb
    · obtain rfl := List.mem_singleton.1 hb
      have hpoint := (congrArg pointBounded heq).trans (h.pointBounded_of_mem hn ha)
      cases hpoint.trans hi
    · cases hb

/-- The edges of a closed layout `g`, counted by the program points that they join. -/
theorem count_points {g : FlowGraph} (hext : Graph.Extends f.toGraph f.closingArcs g.toGraph)
    (ends : ProgramPoint × ProgramPoint) :
    (g.edges.map Edge.points).count ends =
      (transitions.map fun t => (ProgramPoint.position t.1, ProgramPoint.position t.2)).count ends +
        (f.closingArcs.map fun a => (a.1.point, a.2.1.point)).count ends := by
  have harcs : ∀ g : Graph Node,
      g.edges.map Edge.points = (g.edges.map Edge.arc).map fun a => (a.1.point, a.2.1.point) := by
    intro g
    rw [List.map_map]
    rfl
  rw [harcs, hext.arcs, List.map_append, List.count_append, ← harcs, h.points_edges]

end DistinctLayout

/-- Only an empty stream has no position that is mentioned. -/
theorem mentions_eq_nil_iff {stream : List (Option Instruction)} {transitions : List (ℕ × ℕ)}
    (hrange : ∀ t ∈ transitions, t.1 < stream.length ∧ t.2 < stream.length) :
    mentions stream transitions = [] ↔ stream = [] := by
  unfold mentions
  cases stream with
  | nil =>
    -- no transition has an endpoint within an empty stream
    obtain rfl : transitions = [] := List.eq_nil_iff_forall_not_mem.2 fun t ht =>
      absurd (hrange t ht).1 (Nat.not_lt_zero _)
    simp [positionsOf]
  | cons i rest => simp

/-- **The edges of a closed layout** are counted by `edgeCount`. -/
theorem DistinctLayout.count_eq_edgeCount {stream : List (Option Instruction)}
    {transitions : List (ℕ × ℕ)} {f g : FlowGraph}
    (h : DistinctLayout stream (mentions stream transitions) transitions f)
    (hext : Graph.Extends f.toGraph f.closingArcs g.toGraph)
    (hrange : ∀ t ∈ transitions, t.1 < stream.length ∧ t.2 < stream.length) (s t : ProgramPoint) :
    (g.edges.map Edge.points).count (s, t) = edgeCount stream transitions s t := by
  have hmem := h.mem_closingPoints (s := s) (t := t)
  rw [mentions_eq_nil_iff hrange] at hmem
  rw [h.count_points hext, List.Nodup.count h.nodup_closingPoints]
  -- at most one of the two counts is not zero, as the program points `s` and `t` say
  cases s with
  | entry =>
    rw [count_transitions_eq_zero (by simp), Nat.zero_add]
    cases t with
    | entry => exact if_neg (by rw [hmem]; simp)
    | exit => exact if_congr (by rw [hmem]; simp) rfl rfl
    | position j => exact if_congr (by rw [hmem]; simp) rfl rfl
  | exit =>
    rw [count_transitions_eq_zero (by simp), Nat.zero_add, if_neg (by rw [hmem]; simp)]
    cases t <;> rfl
  | position i =>
    cases t with
    | entry => rw [count_transitions_eq_zero (by simp), if_neg (by rw [hmem]; simp)]; rfl
    | exit =>
      rw [count_transitions_eq_zero (by simp), Nat.zero_add]
      exact if_congr (by rw [hmem]; simp) rfl rfl
    | position j =>
      rw [count_transitions, if_neg (by rw [hmem]; simp)]
      rfl

/-- **What `connect` gives has the outline** of its stream and transitions. -/
theorem outline_of_connect {table : ℕ} {unit : Value} {stream : List (Option Instruction)}
    {transitions : List (ℕ × ℕ)} {f : FlowGraph}
    (hconnect : connect table unit stream transitions = .ok f) (hdistinct : stream.Nodup)
    (hrange : ∀ t ∈ transitions, t.1 < stream.length ∧ t.2 < stream.length) :
    Outline stream transitions f := by
  obtain ⟨layout, h, htable, hext⟩ := distinctLayout_of_connect hconnect hdistinct hrange
  have hrealizes := h.realizes hext
  -- what the layout has the closed layout has, which differs in its edges only
  refine ⟨?_, ?_, ?_, ?_, ?_, fun s => ?_, fun n hn i hi => ?_, h.count_eq_edgeCount hext hrange⟩
  · rw [hext.nodes, htable, h.nodes_eq]
  · rw [hext.nodes, h.index_eq]
  · rw [hext.nodes, entry_congr htable]
    exact h.entry_mem
  · rw [hext.nodes, exit_congr htable]
    exact h.exit_mem
  · exact f.nodup.map_on hrealizes.inj
  · rw [List.mem_map]
    exact hrealizes.points s
  · exact h.content_of_point (hext.nodes ▸ hn) hi

/-! ### Reading an outline -/

/-- A node at a position is a place. -/
theorem mem_places_of_point {f : FlowGraph} {n : Node} {i : ℕ} (hn : n ∈ f.nodes)
    (hi : n.point = .position i) : n ∈ f.places := by
  refine mem_places.2 ⟨hn, ?_⟩
  rw [← Bool.not_eq_true, Node.isMarker_iff_point, hi]
  simp

namespace Outline

variable {stream : List (Option Instruction)} {transitions : List (ℕ × ℕ)} {f : FlowGraph}
  (h : Outline stream transitions f)

include h

/-- A node is known by its program point. -/
theorem point_inj {a b : Node} (ha : a ∈ f.nodes) (hb : b ∈ f.nodes) (hab : a.point = b.point) :
    a = b :=
  List.inj_on_of_nodup_map h.nodup_points ha hb hab

/-- A node leads to another if `edgeCount` has an edge between their program points. -/
theorem mem_successors_iff {a b : Node} (ha : a ∈ f.nodes) (hb : b ∈ f.nodes) :
    b ∈ f.successors a ↔ 0 < edgeCount stream transitions a.point b.point := by
  rw [← h.edges, List.count_pos_iff, Graph.mem_successors, List.mem_map]
  constructor
  · rintro ⟨e, he, rfl, rfl⟩
    exact ⟨e, he, rfl⟩
  · -- an edge between the program points is an edge between the nodes
    rintro ⟨e, he, heq⟩
    obtain ⟨hsource, htarget⟩ := Prod.mk.inj heq
    obtain ⟨hs, ht⟩ := f.ends e he
    exact ⟨e, he, h.point_inj hs ha hsource, h.point_inj ht hb htarget⟩

/-- Every position that is mentioned has a node. -/
theorem exists_point {i : ℕ} (hi : i ∈ mentions stream transitions) :
    ∃ n ∈ f.nodes, n.point = .position i :=
  List.mem_map.1 ((h.mem_points _).2 (.inr (.inr ⟨i, hi, rfl⟩)))

/-- A place stands at a position that is mentioned. -/
theorem point_of_mem_places {n : Node} (hn : n ∈ f.places) :
    ∃ i ∈ mentions stream transitions, n.point = .position i := by
  obtain ⟨hmem, hmarker⟩ := mem_places.1 hn
  obtain hentry | hexit | hposition := (h.mem_points n.point).1 (List.mem_map_of_mem hmem)
  · rw [Node.isMarker_iff_point.2 (.inl hentry)] at hmarker
    cases hmarker
  · rw [Node.isMarker_iff_point.2 (.inr hexit)] at hmarker
    cases hmarker
  · exact hposition

/-- Nothing leads to Entry. -/
theorem predecessors_entry : f.predecessors f.entry = [] := by
  refine List.eq_nil_iff_forall_not_mem.2 fun a ha => ?_
  rw [Graph.mem_predecessors_iff] at ha
  -- `edgeCount` has no edge to Entry, wherever it comes from
  have hpos := (h.mem_successors_iff (Graph.mem_nodes_of_mem_successors ha).1 h.entry_mem).1 ha
  change 0 < edgeCount stream transitions a.point .entry at hpos
  cases hs : a.point <;> rw [hs] at hpos <;> cases hpos

/-- Exit leads nowhere. -/
theorem successors_exit : f.successors f.exit = [] := by
  refine List.eq_nil_iff_forall_not_mem.2 fun b hb => ?_
  have hpos := (h.mem_successors_iff h.exit_mem (Graph.mem_nodes_of_mem_successors hb).2).1 hb
  change 0 < edgeCount stream transitions .exit b.point at hpos
  cases ht : b.point <;> rw [ht] at hpos <;> cases hpos

/-- Every place leads on: along a transition, or to Exit. -/
theorem successors_ne_nil {n : Node} (hn : n ∈ f.places) : f.successors n ≠ [] := by
  obtain ⟨i, hi, hpoint⟩ := h.point_of_mem_places hn
  have hmem := (mem_places.1 hn).1
  suffices ∃ b, b ∈ f.successors n by
    obtain ⟨b, hb⟩ := this
    exact List.ne_nil_of_mem hb
  by_cases hstarts : ∃ t ∈ transitions, t.1 = i
  -- the target of a transition is mentioned, so it has a node
  · obtain ⟨t, ht, rfl⟩ := hstarts
    obtain ⟨b, hb, hb'⟩ := h.exists_point (mem_mentions_of_mem stream ht).2
    refine ⟨b, (h.mem_successors_iff hmem hb).2 ?_⟩
    rw [hpoint, hb']
    exact List.count_pos_iff.2 ht
  · have hlast : ∀ t ∈ transitions, t.1 ≠ i := fun t ht heq => hstarts ⟨t, ht, heq⟩
    refine ⟨f.exit, (h.mem_successors_iff hmem h.exit_mem).2 ?_⟩
    rw [hpoint]
    exact edgeCount_exit_pos.2 ⟨hi, hlast⟩

/-- Every place is led to: along a transition, or from Entry. -/
theorem predecessors_ne_nil {n : Node} (hn : n ∈ f.places) : f.predecessors n ≠ [] := by
  obtain ⟨j, hj, hpoint⟩ := h.point_of_mem_places hn
  have hmem := (mem_places.1 hn).1
  suffices ∃ a, n ∈ f.successors a by
    obtain ⟨a, ha⟩ := this
    exact List.ne_nil_of_mem (Graph.mem_predecessors_iff.2 ha)
  by_cases hends : ∃ t ∈ transitions, t.2 = j
  · obtain ⟨t, ht, rfl⟩ := hends
    obtain ⟨a, ha, ha'⟩ := h.exists_point (mem_mentions_of_mem stream ht).1
    refine ⟨a, (h.mem_successors_iff ha hmem).2 ?_⟩
    rw [hpoint, ha']
    exact List.count_pos_iff.2 ht
  · have hfirst : ∀ t ∈ transitions, t.2 ≠ j := fun t ht heq => hends ⟨t, ht, heq⟩
    refine ⟨f.entry, (h.mem_successors_iff h.entry_mem hmem).2 ?_⟩
    rw [hpoint]
    exact edgeCount_entry_pos.2 ⟨hj, hfirst⟩

/-! ### Branches -/

/-- **A place that leads to Exit** leads nowhere else. -/
theorem eq_exit_of_mem_successors {n b : Node} (hn : n ∈ f.places) (hexit : f.exit ∈ f.successors n)
    (hb : b ∈ f.successors n) : b = f.exit := by
  obtain ⟨i, hi, hpoint⟩ := h.point_of_mem_places hn
  have hmem := (mem_places.1 hn).1
  have hmem' := (Graph.mem_nodes_of_mem_successors hb).2
  have hlast : ∀ t ∈ transitions, t.1 ≠ i := by
    have hpos := (h.mem_successors_iff hmem h.exit_mem).1 hexit
    rw [hpoint] at hpos
    exact (edgeCount_exit_pos.1 hpos).2
  have hpos := (h.mem_successors_iff hmem hmem').1 hb
  rw [hpoint] at hpos
  cases ht : b.point with
  | entry =>
    rw [ht] at hpos
    cases hpos
  | exit => exact h.point_inj hmem' h.exit_mem ht
  | position j =>
    -- `hlast` says that no transition starts at `i`
    rw [ht] at hpos
    exact absurd rfl (hlast (i, j) (List.count_pos_iff.1 hpos))

/-- A successor that is a marker is Exit. -/
theorem eq_exit_of_isMarker {n b : Node} (hb : b ∈ f.successors n) (hmarker : b.isMarker = true) :
    b = f.exit := by
  have hmem := (Graph.mem_nodes_of_mem_successors hb).2
  obtain hentry | hexit := Node.isMarker_iff_point.1 hmarker
  · obtain rfl := h.point_inj hmem h.entry_mem hentry
    rw [← Graph.mem_predecessors_iff, h.predecessors_entry] at hb
    cases hb
  · exact h.point_inj hmem h.exit_mem hexit

/-- **`branches`** are the places with more than one successor. -/
theorem mem_branches_iff {n : Node} :
    n ∈ f.branches ↔ n ∈ f.places ∧ 2 ≤ (f.successors n).length := by
  have hbranches : n ∈ f.branches ↔ n ∈ f.places ∧ f.isBranch n = true := by
    simp [branches, mem_places, and_assoc]
  rw [hbranches]
  refine and_congr_right fun hn => ?_
  unfold isBranch
  rw [decide_eq_true_iff]
  by_cases hexit : f.exit ∈ f.successors n
  · -- Exit is the only successor
    have hlength : (f.successors n).length ≤ 1 := by
      have hsub : f.successors n ⊆ [f.exit] := fun b hb =>
        List.mem_singleton.2 (h.eq_exit_of_mem_successors hn hexit hb)
      exact ((f.nodup_successors n).subperm hsub).length_le
    have hfilter := List.length_filter_le (fun s : Node => !s.isMarker) (f.successors n)
    omega
  · -- no successor is a marker
    have hfilter : (f.successors n).filter (fun s => !s.isMarker) = f.successors n := by
      refine List.filter_eq_self.2 fun b hb => ?_
      cases hmarker : b.isMarker with
      | false => rfl
      | true => exact absurd (h.eq_exit_of_isMarker hb hmarker ▸ hb) hexit
    rw [hfilter]
    exact Iff.rfl

/-- Where a place stands, and the position that `Node.positionLe` sorts it by. -/
theorem position_of_mem_places {n : Node} (hn : n ∈ f.places) :
    n.point = .position n.point.index ∧ n.position? = some (.int n.point.index) := by
  obtain ⟨i, -, hi⟩ := h.point_of_mem_places hn
  rw [Node.position?, h.content n (mem_places.1 hn).1 i hi, hi]
  exact ⟨rfl, rfl⟩

/-- **Places sorted by `Node.positionLe`** stand in the order of the stream. -/
theorem points_mergeSort {items : List Node} (hitems : ∀ n ∈ items, n ∈ f.places)
    (hnodup : items.Nodup) :
    ∃ positions : List ℕ, positions.Pairwise (· < ·) ∧
      (items.mergeSort Node.positionLe).map Node.point = positions.map .position := by
  have hle : ∀ a ∈ items, ∀ b ∈ items,
      Node.positionLe a b = decide (a.point.index ≤ b.point.index) := by
    intro a ha b hb
    rw [Node.positionLe, (h.position_of_mem_places (hitems a ha)).2,
      (h.position_of_mem_places (hitems b hb)).2]
    simp only [Number.le_int, Nat.cast_le]
  have hinj : ∀ a ∈ items, ∀ b ∈ items, a.point.index = b.point.index → a = b := by
    intro a ha b hb heq
    apply h.point_inj (mem_places.1 (hitems a ha)).1 (mem_places.1 (hitems b hb)).1
    rw [(h.position_of_mem_places (hitems a ha)).1, (h.position_of_mem_places (hitems b hb)).1, heq]
  -- sorting the places is sorting their positions
  have hsort : (items.mergeSort Node.positionLe).map (fun n => n.point.index) =
      (items.map fun n => n.point.index).mergeSort fun i j => decide (i ≤ j) :=
    List.map_mergeSort hle
  have hsorted : ((items.map fun n => n.point.index).mergeSort fun i j => decide (i ≤ j)).Pairwise
      (· ≤ ·) := by
    have htrans : ∀ i j k : ℕ, decide (i ≤ j) = true → decide (j ≤ k) = true →
        decide (i ≤ k) = true := by
      simp only [decide_eq_true_iff]
      omega
    have htotal : ∀ i j : ℕ, (decide (i ≤ j) || decide (j ≤ i)) = true := by
      simp only [Bool.or_eq_true, decide_eq_true_iff]
      omega
    exact (List.pairwise_mergeSort htrans htotal _).imp of_decide_eq_true
  have hdistinct : ((items.map fun n => n.point.index).mergeSort
      fun i j => decide (i ≤ j)).Nodup :=
    (List.mergeSort_perm _ _).nodup_iff.2 (hnodup.map_on hinj)
  -- in order and distinct, hence in strict order
  refine ⟨_, (hsorted.and hdistinct).imp fun hij => lt_of_le_of_ne hij.1 hij.2, ?_⟩
  rw [← hsort, List.map_map]
  refine List.map_congr_left fun n hn => ?_
  have hitem := (List.mergeSort_perm items _).mem_iff.1 hn
  exact (h.position_of_mem_places (hitems n hitem)).1

/-- **`branches` stand in the order of the stream.** -/
theorem points_branches :
    ∃ positions : List ℕ, positions.Pairwise (· < ·) ∧
      f.branches.map Node.point = positions.map .position := by
  refine h.points_mergeSort (fun n hn => ?_) (f.nodup.filter _)
  simp only [List.mem_filter, Bool.and_eq_true, Bool.not_eq_true'] at hn
  exact mem_places.2 ⟨hn.1, hn.2.1⟩

/-- **`places` stand in the order of the stream**, one at each position that is mentioned, with
the instruction there. -/
theorem content_places :
    ∃ positions : List ℕ, positions.Pairwise (· < ·) ∧
      (∀ i, i ∈ positions ↔ i ∈ mentions stream transitions) ∧
      f.places.map Node.content =
        positions.map fun i => .place (instructionAt stream i) (.int i) := by
  have hitems : ∀ n ∈ f.nodes.filter fun n => !n.isMarker, n ∈ f.places := fun n hn =>
    mem_places.2 (by simpa using hn)
  obtain ⟨positions, hsorted, hpoints⟩ := h.points_mergeSort hitems (f.nodup.filter _)
  change f.places.map Node.point = positions.map .position at hpoints
  refine ⟨positions, hsorted, fun i => ?_, ?_⟩
  · have hposition : i ∈ positions ↔ ProgramPoint.position i ∈ f.places.map Node.point := by
      rw [hpoints]
      simp
    rw [hposition, List.mem_map]
    refine ⟨fun hplace => ?_, fun hi => ?_⟩
    · obtain ⟨n, hn, hpoint⟩ := hplace
      obtain ⟨j, hj, hpoint'⟩ := h.point_of_mem_places hn
      cases hpoint.symm.trans hpoint'
      exact hj
    · obtain ⟨n, hn, hpoint⟩ := h.exists_point hi
      exact ⟨n, mem_places_of_point hn hpoint, hpoint⟩
  · -- what a place holds is told by its program point
    calc f.places.map Node.content
        = f.places.map fun n =>
            .place (instructionAt stream n.point.index) (.int n.point.index) := by
          refine List.map_congr_left fun n hn => ?_
          exact h.content n (mem_places.1 hn).1 _ (h.position_of_mem_places hn).1
      _ = (f.places.map Node.point).map fun s =>
            .place (instructionAt stream s.index) (.int s.index) := by
          rw [List.map_map]
          rfl
      _ = positions.map fun i => .place (instructionAt stream i) (.int i) := by
          rw [hpoints, List.map_map]
          rfl

/-- **Entry leads to the places** that no transition leads to. -/
theorem mem_successors_entry (hstream : stream ≠ []) {n : Node} :
    n ∈ f.successors f.entry ↔
      n ∈ f.places ∧ ∃ j, n.point = .position j ∧ ∀ t ∈ transitions, t.2 ≠ j := by
  refine ⟨fun hn => ?_, fun hn => ?_⟩
  · have hmem := (Graph.mem_nodes_of_mem_successors hn).2
    have hcount : 0 < edgeCount stream transitions .entry n.point :=
      (h.mem_successors_iff h.entry_mem hmem).1 hn
    -- Entry does not lead to itself, and to Exit only if the stream is empty
    obtain hpoint | hpoint | ⟨j, -, hpoint⟩ := (h.mem_points n.point).1 (List.mem_map_of_mem hmem)
    · rw [hpoint] at hcount
      cases hcount
    · rw [hpoint, edgeCount, if_neg hstream] at hcount
      cases hcount
    · rw [hpoint] at hcount
      exact ⟨mem_places_of_point hmem hpoint, j, hpoint, (edgeCount_entry_pos.1 hcount).2⟩
  · obtain ⟨hplace, j, hpoint, hnone⟩ := hn
    obtain ⟨i, hi, hpoint'⟩ := h.point_of_mem_places hplace
    cases hpoint.symm.trans hpoint'
    rw [h.mem_successors_iff h.entry_mem (mem_places.1 hplace).1, hpoint]
    exact edgeCount_entry_pos.2 ⟨hi, hnone⟩

end Outline

/-! ### Building -/

/-- `endpoint` reads a whole number within the stream as it is. -/
theorem endpoint_of_isWhole {length i : ℕ} {v : Value} (hv : v.IsWhole i) (hi : i < length) :
    endpoint length v = .ok i := by
  obtain ⟨n, rfl, hn⟩ := hv
  have hread : endpoint? length (.number n) = some i := by
    change (n.index?.bind fun k => if 0 ≤ k ∧ k < length then some k.toNat else none) = some i
    rw [hn, Option.bind_some, if_pos (by omega), Int.toNat_natCast]
  rw [endpoint, hread]

/-- `endpoints` reads pairs of whole numbers within the stream as they are. -/
theorem endpoints_of_isWhole {length : ℕ} {pairs : List (Value × Value)}
    {transitions : List (ℕ × ℕ)}
    (hpairs : List.Forall₂ (fun p t => p.1.IsWhole t.1 ∧ p.2.IsWhole t.2) pairs transitions)
    (hrange : ∀ t ∈ transitions, t.1 < length ∧ t.2 < length) :
    endpoints length pairs = .ok transitions := by
  induction hpairs with
  | nil => rfl
  | @cons p t pairs transitions hp _ ih =>
    obtain ⟨ht, hrest⟩ := List.forall_mem_cons.1 hrange
    refine mapM_cons_eq_ok.2 ⟨t, transitions, ?_, ih hrest, rfl⟩
    rw [endpoint_of_isWhole hp.1 ht.1, ok_bind, endpoint_of_isWhole hp.2 ht.2, ok_bind]
    rfl

/-- `endpoints_of_isWhole` for the usual spelling. -/
theorem endpoints_int {length : ℕ} {transitions : List (ℕ × ℕ)}
    (hrange : ∀ t ∈ transitions, t.1 < length ∧ t.2 < length) :
    endpoints length (transitions.map fun t => (.int t.1, .int t.2)) = .ok transitions := by
  refine endpoints_of_isWhole ?_ hrange
  rw [List.forall₂_map_left_iff, List.forall₂_same]
  exact fun t _ => ⟨⟨.int t.1, rfl, rfl⟩, .int t.2, rfl, rfl⟩

/-- What `build` gives has the outline of what was read, where no instruction stands twice. -/
theorem outline_of_build {m : Method} {table : ℕ} {given : Value} {f : FlowGraph}
    (hbuild : (build m table given).result = .ok f) {stream : List (Option Instruction)}
    {pairs : List (Value × Value)} {transitions : List (ℕ × ℕ)}
    (hfound : m.discover.result = .ok (stream, pairs))
    (hends : endpoints stream.length pairs = .ok transitions) (hdistinct : stream.Nodup) :
    Outline stream transitions f := by
  obtain ⟨stream', pairs', transitions', unit, hfound', hends', hconnect⟩ :=
    exists_connect_of_build hbuild
  cases hfound.symm.trans hfound'
  cases hends.symm.trans hends'
  exact outline_of_connect hconnect hdistinct fun t => range_of_endpoints hends

/-- `Listing.ofSteps` builds a flow graph, with the outline of its steps. -/
theorem exists_outline_ofSteps (count : ℕ) (steps : List (ℕ × ℕ))
    (hsteps : ∀ t ∈ steps, t.1 < count ∧ t.2 < count) :
    ∃ f, (build (Listing.ofSteps count steps).method 0 .none).result = .ok f ∧
      Outline (Listing.ofSteps count steps).instructions steps f := by
  have hdiscover : (Listing.ofSteps count steps).method.discover.result =
      .ok ((Listing.ofSteps count steps).instructions,
        steps.map fun t => (.int t.1, .int t.2)) := by
    refine Listing.discover_eq_ok.2 ⟨rfl, ?_⟩
    rw [Listing.ofSteps, List.mapM_map]
    exact List.mapM_pure
  have hends : endpoints (Listing.ofSteps count steps).instructions.length
      (steps.map fun t => (.int t.1, .int t.2)) = .ok steps :=
    endpoints_int (by simpa [Listing.ofSteps] using hsteps)
  obtain ⟨f, hbuild⟩ := exists_build 0 .none hdiscover hends
  refine ⟨f, hbuild, outline_of_build hbuild hdiscover hends ?_⟩
  refine List.nodup_range.map fun i j hij => ?_
  simpa using hij

/-- **Building gives exactly the graph of the stream and its transitions**, where no instruction
stands twice and all endpoints are positions. Nothing leads to Entry and Exit leads nowhere; every
place has neighbours on both sides. The branches are the places with more than one successor, in
the order of the stream. -/
theorem build_outline {m : Method} {stream : List (Option Instruction)}
    {pairs : List (Value × Value)} {transitions : List (ℕ × ℕ)} (table : ℕ) (given : Value)
    (hfound : m.discover.result = .ok (stream, pairs)) (hdistinct : stream.Nodup)
    (hpairs : List.Forall₂ (fun p t => p.1.IsWhole t.1 ∧ p.2.IsWhole t.2) pairs transitions)
    (hrange : ∀ t ∈ transitions, t.1 < stream.length ∧ t.2 < stream.length) :
    ∃ f, (build m table given).result = .ok f ∧ Outline stream transitions f ∧
      f.predecessors f.entry = [] ∧ f.successors f.exit = [] ∧
      (∀ n ∈ f.places, f.successors n ≠ [] ∧ f.predecessors n ≠ []) ∧
      (∀ n, n ∈ f.branches ↔ n ∈ f.places ∧ 2 ≤ (f.successors n).length) ∧
      ∃ positions : List ℕ, positions.Pairwise (· < ·) ∧
        f.branches.map Node.point = positions.map .position := by
  have hends := endpoints_of_isWhole hpairs hrange
  obtain ⟨f, hbuild⟩ := exists_build table given hfound hends
  have houtline := outline_of_build hbuild hfound hends hdistinct
  refine ⟨f, hbuild, houtline, houtline.predecessors_entry, houtline.successors_exit, ?_, ?_,
    houtline.points_branches⟩
  · intro n hn
    exact ⟨houtline.successors_ne_nil hn, houtline.predecessors_ne_nil hn⟩
  · intro n
    exact houtline.mem_branches_iff

/-- A listing with a transition that is listed twice, in two spellings, a loop, and an instruction
that is not mentioned. -/
def repeating : Listing where
  name := .text "repeating"
  instructions := (List.range 4).map fun i => some { ident := i, text := "", shown := "" }
  transitions := [.tuple [.int 0, .number (.bool true)], .tuple [.int 0, .int 1],
    .tuple [.int 0, .int 2], .tuple [.int 2, .int 2]]
  definitions := .empty
  uses := .empty

/-- A transition that is listed twice is two edges, and a loop is entered by no other edge. -/
theorem build_outline_repeating :
    ∃ f, (build repeating.method 0 .none).result = .ok f ∧
      Outline repeating.instructions [(0, 1), (0, 1), (0, 2), (2, 2)] f ∧
      (f.edges.map Edge.points).count (.position 0, .position 1) = 2 ∧
      (f.edges.map Edge.points).count (.entry, .position 2) = 0 ∧
      (f.edges.map Edge.points).count (.position 1, .exit) = 1 ∧
      (∀ n ∈ f.places, f.successors n ≠ [] ∧ f.predecessors n ≠ []) := by
  have hpairs : List.Forall₂ (fun (p : Value × Value) (t : ℕ × ℕ) =>
      p.1.IsWhole t.1 ∧ p.2.IsWhole t.2)
      [(.int 0, .number (.bool true)), (.int 0, .int 1), (.int 0, .int 2), (.int 2, .int 2)]
      [(0, 1), (0, 1), (0, 2), (2, 2)] := by
    have hint : ∀ i : ℕ, (Value.int i).IsWhole i := fun i => ⟨.int i, rfl, rfl⟩
    have htrue : (Value.number (.bool true)).IsWhole 1 := ⟨.bool true, rfl, rfl⟩
    exact .cons ⟨hint 0, htrue⟩ (.cons ⟨hint 0, hint 1⟩ (.cons ⟨hint 0, hint 2⟩
      (.cons ⟨hint 2, hint 2⟩ .nil)))
  have hfound : repeating.method.discover.result = .ok (repeating.instructions,
      [(.int 0, .number (.bool true)), (.int 0, .int 1), (.int 0, .int 2), (.int 2, .int 2)]) := rfl
  obtain ⟨f, hbuild, houtline, -, -, hplaces, -⟩ :=
    build_outline 0 .none hfound (by decide) hpairs (by decide)
  refine ⟨f, hbuild, houtline, ?_, ?_, ?_, hplaces⟩
  · rw [houtline.edges]
    decide
  · rw [houtline.edges]
    decide
  · rw [houtline.edges]
    decide

end FlowGraph

end Dependence
