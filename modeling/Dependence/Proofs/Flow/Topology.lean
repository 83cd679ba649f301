import Dependence.Proofs.Control
import Mathlib.Data.List.Nodup

/-!
# The topology of a flow graph

Nodes are numbered in the order in which transitions mention them, so the same method has other
nodes when its transitions are listed in another order. What stays are the program points at which
the nodes stand: Entry, Exit, or a position of the stream (`Node.point`). Where no instruction
stands at two positions, a node is known by its program point, and the flow between program points
is what the transitions say, whatever their order:

* `ProgramPoint.Step` — the flow between program points, given the positions and the transitions;
* `FlowGraph.Realizes` — a flow graph whose nodes are known by their program points and flow as
  given;
* `FlowGraph.realizes_of_connect` — every graph that `connect` gives is of this kind;
* `Listing.build_of_perm` — so transitions in another order give the same flow between program
  points.
-/

namespace Dependence

open Relation

/-- A program point: an end of a method, or a position of its stream. -/
inductive ProgramPoint where
  | entry
  | exit
  | position (i : ℕ)
deriving DecidableEq

/-- The program point at which `n` stands. -/
def Node.point (n : Node) : ProgramPoint :=
  match n.content with
  | .entry => .entry
  | .exit => .exit
  | .place _ p => .position (p.index?.getD 0).toNat

/-- **The flow between program points**, given the positions that are `mentioned` and the
`transitions`. A position that no transition leaves leads to Exit, one that no transition enters is
led to from Entry. -/
def ProgramPoint.Step (mentioned : List ℕ) (transitions : List (ℕ × ℕ)) :
    ProgramPoint → ProgramPoint → Prop
  | .position i, .position j => (i, j) ∈ transitions
  | .position i, .exit => i ∈ mentioned ∧ ∀ t ∈ transitions, t.1 ≠ i
  | .entry, .position j => j ∈ mentioned ∧ ∀ t ∈ transitions, t.2 ≠ j
  | .entry, .exit => mentioned = []
  | _, _ => False

/-- `Step` does not depend on the order of the transitions. -/
theorem ProgramPoint.step_congr {mentioned mentioned' : List ℕ}
    {transitions transitions' : List (ℕ × ℕ)} (hmentioned : mentioned.Perm mentioned')
    (htransitions : transitions.Perm transitions') :
    Step mentioned transitions = Step mentioned' transitions' := by
  funext s t
  refine propext ?_
  -- the clauses of `Step` ask about membership only
  have hforall : ∀ p : ℕ × ℕ → Prop, (∀ t ∈ transitions, p t) ↔ ∀ t ∈ transitions', p t := fun p =>
    ⟨fun h t ht => h t (htransitions.mem_iff.2 ht), fun h t ht => h t (htransitions.mem_iff.1 ht)⟩
  cases s with
  | entry =>
    cases t with
    | entry => rfl
    | exit =>
      show mentioned = [] ↔ mentioned' = []
      exact ⟨fun h => (h ▸ hmentioned).nil_eq.symm, fun h => (h ▸ hmentioned).eq_nil⟩
    | position j => exact and_congr hmentioned.mem_iff (hforall _)
  | exit => cases t <;> rfl
  | position i =>
    cases t with
    | entry => rfl
    | exit => exact and_congr hmentioned.mem_iff (hforall _)
    | position j => exact htransitions.mem_iff

namespace FlowGraph

/-- `f.Flows`, carried over from nodes to their program points. -/
def Joins (f : FlowGraph) : ProgramPoint → ProgramPoint → Prop :=
  Relation.Map f.Flows Node.point Node.point

/-- **A flow graph realizes transitions**: its nodes are known by their program points, which are
the ends and the positions `mentioned`, and they flow as `ProgramPoint.Step` says. -/
structure Realizes (mentioned : List ℕ) (transitions : List (ℕ × ℕ)) (f : FlowGraph) : Prop where
  inj : ∀ a ∈ f.nodes, ∀ b ∈ f.nodes, a.point = b.point → a = b
  points : ∀ s, (∃ n ∈ f.nodes, n.point = s) ↔
    s = .entry ∨ s = .exit ∨ ∃ i ∈ mentioned, s = .position i
  joins : f.Joins = ProgramPoint.Step mentioned transitions

namespace Layout

variable {stream : List (Option Instruction)} {mentioned : List ℕ}
  {transitions : List (ℕ × ℕ)} {f : FlowGraph} (h : Layout stream mentioned transitions f)

include h

/-- A node of a `Layout` is a marker, or stands at a position that was mentioned. -/
theorem point_of_mem {n : Node} (hn : n ∈ f.nodes) :
    n = f.entry ∨ n = f.exit ∨
      ∃ i ∈ mentioned, n.content = .place (instructionAt stream i) (.int i) ∧
        n.point = .position i := by
  refine (h.cases_node hn).imp_right (Or.imp_right ?_)
  rintro ⟨i, hi, hcontent⟩
  exact ⟨i, hi, hcontent, by simp [Node.point, hcontent, Number.index?]⟩

/-- `f.entry` is the one node at Entry. -/
theorem point_eq_entry_iff {n : Node} (hn : n ∈ f.nodes) : n.point = .entry ↔ n = f.entry := by
  refine ⟨fun hs => ?_, fun heq => heq ▸ rfl⟩
  rcases h.point_of_mem hn with rfl | rfl | ⟨i, -, -, hpoint⟩
  · rfl
  · cases hs
  · cases hpoint.symm.trans hs

/-- `f.exit` is the one node at Exit. -/
theorem point_eq_exit_iff {n : Node} (hn : n ∈ f.nodes) : n.point = .exit ↔ n = f.exit := by
  refine ⟨fun hs => ?_, fun heq => heq ▸ rfl⟩
  rcases h.point_of_mem hn with rfl | rfl | ⟨i, -, -, hpoint⟩
  · cases hs
  · rfl
  · cases hpoint.symm.trans hs

/-- The node at position `i` holds what the stream has there. -/
theorem content_of_point {n : Node} {i : ℕ} (hn : n ∈ f.nodes) (hs : n.point = .position i) :
    n.content = .place (instructionAt stream i) (.int i) := by
  rcases h.point_of_mem hn with rfl | rfl | ⟨j, -, hcontent, hpoint⟩
  · cases hs
  · cases hs
  · obtain rfl := ProgramPoint.position.inj (hpoint.symm.trans hs)
    exact hcontent

/-- **A node is known by its program point**: `Node.point` is injective on `f.nodes`. -/
theorem point_inj {a b : Node} (ha : a ∈ f.nodes) (hb : b ∈ f.nodes) (hab : a.point = b.point) :
    a = b := by
  cases hs : b.point with
  | entry => rw [(h.point_eq_entry_iff ha).1 (hab.trans hs), (h.point_eq_entry_iff hb).1 hs]
  | exit => rw [(h.point_eq_exit_iff ha).1 (hab.trans hs), (h.point_eq_exit_iff hb).1 hs]
  | position i =>
    -- both are the node that is found for the instruction at the position
    have hcontent := h.content_of_point ha (hab.trans hs)
    have hcontent' := h.content_of_point hb hs
    have hfound := h.unique a ha _ (NodeTable.standsFor_iff.2 ⟨_, hcontent⟩)
    have hfound' := h.unique b hb _ (NodeTable.standsFor_iff.2 ⟨_, hcontent'⟩)
    exact Option.some.inj (hfound.symm.trans hfound')

/-- The places of `f` are the nodes at positions. -/
theorem mem_places_iff_point {n : Node} (hn : n ∈ f.nodes) :
    n ∈ f.places ↔ ∃ i ∈ mentioned, n.point = .position i := by
  rw [mem_places, and_iff_right hn]
  rcases h.point_of_mem hn with rfl | rfl | ⟨i, hi, hcontent, hpoint⟩
  -- the markers stand at no position
  · exact ⟨nofun, fun ⟨i, _, hs⟩ => nomatch hs⟩
  · exact ⟨nofun, fun ⟨i, _, hs⟩ => nomatch hs⟩
  · rw [Node.isMarker, hcontent]
    exact iff_of_true rfl ⟨i, hi, hpoint⟩

/-- There are only the markers just if no position was mentioned. -/
theorem length_nodes_eq_two_iff : f.nodes.length = 2 ↔ mentioned = [] := by
  obtain ⟨places, hnodes, hplaces⟩ := h.markers
  constructor
  · -- with a position there is a third node
    intro hlength
    rw [hnodes] at hlength
    obtain rfl : places = [] := List.length_eq_zero_iff.1 (by simpa using hlength)
    refine List.eq_nil_iff_forall_not_mem.2 fun i hi => ?_
    obtain ⟨n, hn⟩ := Option.isSome_iff_exists.1 (h.found i hi)
    obtain ⟨p, hp⟩ := NodeTable.standsFor_iff.1 (NodeTable.lookup?_eq_some hn).2
    have hmem := h.mem_of_nodeOf? hn
    rw [hnodes] at hmem
    rcases List.mem_cons.1 hmem with rfl | hmem
    · cases hp
    · obtain rfl := List.mem_singleton.1 hmem
      cases hp
  · rintro rfl
    -- a place would be one for a position that was mentioned
    obtain rfl : places = [] := List.eq_nil_iff_forall_not_mem.2 fun n hn => by
      obtain ⟨i, hi, -⟩ := hplaces n hn
      cases hi
    rw [hnodes]
    rfl

end Layout

/-- **A layout of distinct instructions**: a `Layout` of a stream without repetition, in which every
position mentioned is one of the stream, and transitions lead between positions mentioned. -/
structure DistinctLayout (stream : List (Option Instruction)) (mentioned : List ℕ)
    (transitions : List (ℕ × ℕ)) (f : FlowGraph) : Prop extends
    Layout stream mentioned transitions f where
  distinct : stream.Nodup
  range : ∀ i ∈ mentioned, i < stream.length
  ends : ∀ t ∈ transitions, t.1 ∈ mentioned ∧ t.2 ∈ mentioned

namespace DistinctLayout

variable {stream : List (Option Instruction)} {mentioned : List ℕ}
  {transitions : List (ℕ × ℕ)} {f : FlowGraph} (h : DistinctLayout stream mentioned transitions f)

include h

/-- The node that `nodeOf?` finds for position `i` stands at `i`. -/
theorem point_of_nodeOf? {i : ℕ} (hi : i ∈ mentioned) {n : Node}
    (hn : f.nodeOf? stream i = some n) : n.point = .position i := by
  obtain ⟨p, hp⟩ := NodeTable.standsFor_iff.1 (NodeTable.lookup?_eq_some hn).2
  rcases h.point_of_mem (h.mem_of_nodeOf? hn) with rfl | rfl | ⟨j, hj, hcontent, hpoint⟩
  · cases hp
  · cases hp
  · -- the instruction is the same, so the position is
    have hsame : instructionAt stream i = instructionAt stream j :=
      (Node.Content.place.inj (hp.symm.trans hcontent)).1
    have hi' := h.range i hi
    have hj' := h.range j hj
    simp only [instructionAt, List.getElem?_eq_getElem hi', List.getElem?_eq_getElem hj',
      Option.getD_some] at hsame
    obtain rfl := h.distinct.getElem_inj_iff.1 hsame
    exact hpoint

/-- Every position mentioned has a node. -/
theorem exists_point {i : ℕ} (hi : i ∈ mentioned) : ∃ n ∈ f.nodes, n.point = .position i := by
  obtain ⟨n, hn⟩ := Option.isSome_iff_exists.1 (h.found i hi)
  exact ⟨n, h.mem_of_nodeOf? hn, h.point_of_nodeOf? hi hn⟩

/-- `nodeOf?` finds exactly the node at the position. -/
theorem nodeOf?_eq_some_iff {i : ℕ} (hi : i ∈ mentioned) {n : Node} (hn : n ∈ f.nodes) :
    f.nodeOf? stream i = some n ↔ n.point = .position i := by
  refine ⟨h.point_of_nodeOf? hi, fun hpoint => ?_⟩
  -- some node `m` is found, and it stands where `n` does
  obtain ⟨m, hm⟩ := Option.isSome_iff_exists.1 (h.found i hi)
  have hsame := hpoint.trans (h.point_of_nodeOf? hi hm).symm
  rw [hm, h.point_inj hn (h.mem_of_nodeOf? hm) hsame]

/-- The layout leads from node to node as the transitions do from position to position. -/
theorem mem_successors_iff_point {a b : Node} (ha : a ∈ f.nodes) (hb : b ∈ f.nodes) :
    b ∈ f.successors a ↔
      ∃ t ∈ transitions, a.point = .position t.1 ∧ b.point = .position t.2 := by
  rw [h.mem_successors_iff]
  refine exists_congr fun t => and_congr_right fun ht => ?_
  rw [h.nodeOf?_eq_some_iff (h.ends t ht).1 ha, h.nodeOf?_eq_some_iff (h.ends t ht).2 hb]

/-- A node has no successor just if no transition starts from its position. -/
theorem successors_eq_nil_iff {n : Node} {i : ℕ} (hn : n ∈ f.nodes) (hi : n.point = .position i) :
    f.successors n = [] ↔ ∀ t ∈ transitions, t.1 ≠ i := by
  rw [List.eq_nil_iff_forall_not_mem]
  constructor
  · -- a transition from the position would lead to the node of its target
    rintro hnone t ht rfl
    obtain ⟨m, hm, hms⟩ := h.exists_point (h.ends t ht).2
    exact hnone m ((h.mem_successors_iff_point hn hm).2 ⟨t, ht, hi, hms⟩)
  · intro hnone m hm
    have hmem := (Graph.mem_nodes_of_mem_successors hm).2
    obtain ⟨t, ht, hs, -⟩ := (h.mem_successors_iff_point hn hmem).1 hm
    exact hnone t ht (ProgramPoint.position.inj (hs.symm.trans hi))

/-- A node has no predecessor just if no transition ends at its position. -/
theorem predecessors_eq_nil_iff {n : Node} {i : ℕ} (hn : n ∈ f.nodes) (hi : n.point = .position i) :
    f.predecessors n = [] ↔ ∀ t ∈ transitions, t.2 ≠ i := by
  simp only [List.eq_nil_iff_forall_not_mem, Graph.mem_predecessors_iff]
  constructor
  · rintro hnone t ht rfl
    obtain ⟨m, hm, hms⟩ := h.exists_point (h.ends t ht).1
    exact hnone m ((h.mem_successors_iff_point hm hn).2 ⟨t, ht, hms, hi⟩)
  · intro hnone m hm
    have hmem := (Graph.mem_nodes_of_mem_successors hm).1
    obtain ⟨t, ht, -, hs⟩ := (h.mem_successors_iff_point hmem hn).1 hm
    exact hnone t ht (ProgramPoint.position.inj (hs.symm.trans hi))

/-- A place that leads nowhere stands at a position from which no transition starts. -/
theorem last_iff {n : Node} (hn : n ∈ f.nodes) :
    n ∈ f.places ∧ f.successors n = [] ↔
      ∃ i, n.point = .position i ∧ i ∈ mentioned ∧ ∀ t ∈ transitions, t.1 ≠ i := by
  rw [h.mem_places_iff_point hn]
  constructor
  · rintro ⟨⟨i, hi, hs⟩, hnone⟩
    exact ⟨i, hs, hi, (h.successors_eq_nil_iff hn hs).1 hnone⟩
  · rintro ⟨i, hs, hi, hnone⟩
    exact ⟨⟨i, hi, hs⟩, (h.successors_eq_nil_iff hn hs).2 hnone⟩

/-- A place that nothing leads to stands at a position at which no transition ends. -/
theorem first_iff {n : Node} (hn : n ∈ f.nodes) :
    n ∈ f.places ∧ f.predecessors n = [] ↔
      ∃ i, n.point = .position i ∧ i ∈ mentioned ∧ ∀ t ∈ transitions, t.2 ≠ i := by
  rw [h.mem_places_iff_point hn]
  constructor
  · rintro ⟨⟨i, hi, hs⟩, hnone⟩
    exact ⟨i, hs, hi, (h.predecessors_eq_nil_iff hn hs).1 hnone⟩
  · rintro ⟨i, hs, hi, hnone⟩
    exact ⟨⟨i, hi, hs⟩, (h.predecessors_eq_nil_iff hn hs).2 hnone⟩

/-- **The flow of the closed layout** is `ProgramPoint.Step`: `g` is `f` with the edges that
`closingArcs` adds at Entry and Exit. -/
theorem flows_iff_step {g : FlowGraph} (hext : Graph.Extends f.toGraph f.closingArcs g.toGraph)
    {a b : Node} (ha : a ∈ f.nodes) (hb : b ∈ f.nodes) :
    g.Flows a b ↔ ProgramPoint.Step mentioned transitions a.point b.point := by
  rw [Flows, mem_successors_closed hext, h.mem_successors_iff_point ha hb, ← and_assoc,
    h.last_iff ha, ← and_assoc, h.first_iff hb, h.length_nodes_eq_two_iff,
    ← h.point_eq_exit_iff hb, ← h.point_eq_entry_iff ha]
  -- only the program points of `a` and `b` are left to look at
  generalize a.point = s, b.point = t
  cases s <;> cases t <;> simp [ProgramPoint.Step]

/-- `Step` leads between program points that have nodes. -/
theorem exists_of_step {s t : ProgramPoint} (hst : ProgramPoint.Step mentioned transitions s t) :
    (∃ a ∈ f.nodes, a.point = s) ∧ ∃ b ∈ f.nodes, b.point = t := by
  have hentry : ∃ n ∈ f.nodes, n.point = .entry := ⟨f.entry, h.entry_mem, rfl⟩
  have hexit : ∃ n ∈ f.nodes, n.point = .exit := ⟨f.exit, h.exit_mem, rfl⟩
  cases s with
  | entry =>
    cases t with
    | entry => cases hst
    | exit => exact ⟨hentry, hexit⟩
    | position j => exact ⟨hentry, h.exists_point hst.1⟩
  | exit => cases t <;> cases hst
  | position i =>
    cases t with
    | entry => cases hst
    | exit => exact ⟨h.exists_point hst.1, hexit⟩
    | position j => exact ⟨h.exists_point (h.ends _ hst).1, h.exists_point (h.ends _ hst).2⟩

/-- The closed layout realizes the transitions. -/
theorem realizes {g : FlowGraph} (hext : Graph.Extends f.toGraph f.closingArcs g.toGraph) :
    Realizes mentioned transitions g := by
  refine ⟨fun a ha b hb => h.point_inj (hext.nodes ▸ ha) (hext.nodes ▸ hb), fun s => ?_, ?_⟩
  · -- closing adds edges only, so the nodes are those of the layout
    rw [hext.nodes]
    constructor
    · rintro ⟨n, hn, rfl⟩
      rcases h.point_of_mem hn with rfl | rfl | ⟨i, hi, -, hpoint⟩
      · exact .inl rfl
      · exact .inr (.inl rfl)
      · exact .inr (.inr ⟨i, hi, hpoint⟩)
    · rintro (rfl | rfl | ⟨i, hi, rfl⟩)
      · exact ⟨f.entry, h.entry_mem, rfl⟩
      · exact ⟨f.exit, h.exit_mem, rfl⟩
      · exact h.exists_point hi
  · funext s t
    refine propext ⟨?_, fun hst => ?_⟩
    -- `flows_iff_step` in both directions; backward there are nodes at both ends
    · rintro ⟨a, b, hab, rfl, rfl⟩
      obtain ⟨ha, hb⟩ := Graph.mem_nodes_of_mem_successors hab
      exact (h.flows_iff_step hext (hext.nodes ▸ ha) (hext.nodes ▸ hb)).1 hab
    · obtain ⟨⟨a, ha, rfl⟩, b, hb, rfl⟩ := h.exists_of_step hst
      exact ⟨a, b, (h.flows_iff_step hext ha hb).2 hst, rfl, rfl⟩

end DistinctLayout

theorem mentions_perm (stream : List (Option Instruction)) {transitions transitions' : List (ℕ × ℕ)}
    (h : transitions.Perm transitions') :
    (mentions stream transitions).Perm (mentions stream transitions') :=
  (h.flatMap_right _).append_left _

theorem mem_mentions_of_mem (stream : List (Option Instruction)) {transitions : List (ℕ × ℕ)}
    {t : ℕ × ℕ} (ht : t ∈ transitions) :
    t.1 ∈ mentions stream transitions ∧ t.2 ∈ mentions stream transitions :=
  ⟨List.mem_append_right _ (List.mem_flatMap.2 ⟨t, ht, by simp⟩),
    List.mem_append_right _ (List.mem_flatMap.2 ⟨t, ht, by simp⟩)⟩

/-- What `connect` gives closes a `DistinctLayout`, where no instruction stands twice. -/
theorem distinctLayout_of_connect {table : ℕ} {unit : Value} {stream : List (Option Instruction)}
    {transitions : List (ℕ × ℕ)} {f : FlowGraph}
    (hconnect : connect table unit stream transitions = .ok f) (hdistinct : stream.Nodup)
    (hrange : ∀ t ∈ transitions, t.1 < stream.length ∧ t.2 < stream.length) :
    ∃ layout, DistinctLayout stream (mentions stream transitions) transitions layout ∧
      f.table = layout.table ∧ Graph.Extends layout.toGraph layout.closingArcs f.toGraph := by
  obtain ⟨layout, f', hconnect', hlayout, htable, -, hext⟩ :=
    connect_spec table unit stream transitions
  cases hconnect.symm.trans hconnect'
  refine ⟨layout, ⟨hlayout, hdistinct, fun i hi => ?_, fun t => mem_mentions_of_mem stream⟩, htable,
    hext⟩
  rcases List.mem_append.1 hi with hi | hi
  · -- the first position, if there is one
    cases stream with
    | nil => cases hi
    | cons x rest =>
      obtain rfl := List.mem_singleton.1 hi
      exact Nat.succ_pos _
  · obtain ⟨t, ht, hti⟩ := List.mem_flatMap.1 hi
    rcases List.mem_cons.1 hti with rfl | hti
    · exact (hrange t ht).1
    · obtain rfl := List.mem_singleton.1 hti
      exact (hrange t ht).2

/-- **A connected graph realizes its transitions**, where no instruction stands twice. -/
theorem realizes_of_connect {table : ℕ} {unit : Value} {stream : List (Option Instruction)}
    {transitions : List (ℕ × ℕ)} {f : FlowGraph}
    (hconnect : connect table unit stream transitions = .ok f) (hdistinct : stream.Nodup)
    (hrange : ∀ t ∈ transitions, t.1 < stream.length ∧ t.2 < stream.length) :
    Realizes (mentions stream transitions) transitions f := by
  obtain ⟨layout, hlayout, -, hext⟩ := distinctLayout_of_connect hconnect hdistinct hrange
  exact hlayout.realizes hext

/-- An `endpoint` that is read is a position of the stream. -/
theorem lt_of_endpoint {length i : ℕ} {v : Value} (h : endpoint length v = .ok i) : i < length := by
  have hread : endpoint? length v = some i := by
    unfold endpoint at h
    split at h
    · rename_i hv
      cases h
      exact hv
    · cases h
  unfold endpoint? at hread
  split at hread
  · obtain ⟨k, -, hk⟩ := Option.bind_eq_some_iff.1 hread
    split at hk
    · cases hk
      omega
    · cases hk
  · cases hread

/-- Transitions that `endpoints` reads lead between positions of the stream. -/
theorem range_of_endpoints {length : ℕ} {pairs : List (Value × Value)}
    {transitions : List (ℕ × ℕ)} (h : endpoints length pairs = .ok transitions) {t : ℕ × ℕ}
    (ht : t ∈ transitions) : t.1 < length ∧ t.2 < length := by
  obtain ⟨p, -, hp⟩ := exists_of_mem_mapM h ht
  obtain ⟨i, hsource, hp⟩ := bind_eq_ok.1 hp
  obtain ⟨j, htarget, hp⟩ := bind_eq_ok.1 hp
  cases hp
  exact ⟨lt_of_endpoint hsource, lt_of_endpoint htarget⟩

end FlowGraph

/-! ### Listings in another order -/

namespace Listing

variable {l l' : Listing}

/-- `repeatedFrom` looks for a repetition in what follows the instructions `before`. -/
theorem nodup_of_repeatedFrom (before rest : List (Option Instruction)) (hbefore : before.Nodup)
    (h : repeatedFrom before rest = none) : (before ++ rest).Nodup := by
  -- the instructions passed so far stand once, and the next one is none of them
  induction rest generalizing before with
  | nil => rwa [List.append_nil]
  | cons i rest ih =>
    rw [repeatedFrom] at h
    split at h
    · cases h
    · rename_i hnone
      have hnew : i ∉ before := fun hmem => by
        have hne := List.findIdx?_eq_none_iff.1 hnone i hmem
        simp at hne
      rw [List.append_cons]
      refine ih _ ?_ h
      rw [List.nodup_append]
      exact ⟨hbefore, List.nodup_singleton i, fun a ha b hb => by
        obtain rfl := List.mem_singleton.1 hb
        exact fun heq => hnew (heq ▸ ha)⟩

/-- In a listing that `make` accepts, no instruction stands twice. -/
theorem nodup_of_make {instructions : List (Option Instruction)} {transitions : Value}
    {definitions uses : OrderedMap Value Value} {name : Value}
    (h : make instructions transitions definitions uses name = .ok l) :
    l.instructions = instructions ∧ instructions.Nodup := by
  obtain ⟨found, -, h⟩ := bind_eq_ok.1 h
  obtain ⟨definitions, -, h⟩ := bind_eq_ok.1 h
  obtain ⟨uses, -, h⟩ := bind_eq_ok.1 h
  split at h
  · cases h
  · rename_i hnone
    cases h
    exact ⟨rfl, nodup_of_repeatedFrom [] instructions List.nodup_nil hnone⟩

/-- **Transitions in another order** build a flow graph as well, which realizes the same
transitions. -/
theorem build_of_perm (hinstructions : l'.instructions = l.instructions)
    (hdistinct : l.instructions.Nodup) (hperm : l.transitions.Perm l'.transitions) {table : ℕ}
    {given : Value} {f : FlowGraph}
    (hbuild : (FlowGraph.build l.method table given).result = .ok f) :
    ∃ f' mentioned transitions, (FlowGraph.build l'.method table given).result = .ok f' ∧
      FlowGraph.Realizes mentioned transitions f ∧ FlowGraph.Realizes mentioned transitions f' := by
  obtain ⟨stream, pairs, transitions, unit, hfound, hends, hconnect⟩ :=
    FlowGraph.exists_connect_of_build hbuild
  obtain ⟨rfl, hpairs⟩ := discover_eq_ok.1 hfound
  -- each stage reads the same in another order
  obtain ⟨pairs', hpairs', hperm'⟩ := mapM_perm hperm hpairs
  obtain ⟨transitions', hends', hperm''⟩ := mapM_perm hperm' hends
  have hfound' : l'.method.discover.result = .ok (l.instructions, pairs') :=
    discover_eq_ok.2 ⟨hinstructions.symm, hpairs'⟩
  obtain ⟨f', hbuild'⟩ := FlowGraph.exists_build table given hfound' hends'
  obtain ⟨stream', pairs'', transitions'', unit', hfound'', hends'', hconnect'⟩ :=
    FlowGraph.exists_connect_of_build hbuild'
  cases hfound'.symm.trans hfound''
  cases hends'.symm.trans hends''
  have hrealizes := FlowGraph.realizes_of_connect hconnect hdistinct
    fun t => FlowGraph.range_of_endpoints hends
  have hrealizes' := FlowGraph.realizes_of_connect hconnect' hdistinct
    fun t => FlowGraph.range_of_endpoints hends'
  -- `f'` realizes its own transitions, which are those of `f` in another order
  have hmentions := FlowGraph.mentions_perm l.instructions hperm''
  refine ⟨f', _, _, hbuild', hrealizes, hrealizes'.inj, fun s => ?_, hrealizes'.joins.trans ?_⟩
  · simp only [hrealizes'.points, hmentions.mem_iff]
  · exact ProgramPoint.step_congr hmentions.symm hperm''.symm

end Listing

end Dependence
