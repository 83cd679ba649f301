import Dependence.Proofs.Flow.Shape

/-!
# What Entry reaches

Entry leads to the nodes that no transition leads to, not to the first instruction as such. So it
depends on all transitions what can be reached from it: where the first instruction is part of a
loop, or is jumped to by code that Entry does not reach, Entry may lead elsewhere or nowhere.

The question is settled on the instructions that were handed in (`FlowGraph.Linked`), for any
stream: an instruction that stands in it several times has one node. In a layout the nodes are the
instructions that are mentioned, and the ways between them are the links
(`FlowGraph.Layout.reaches_iff_linked`); closing it adds to the ways from Entry those that start at
a node without a predecessor (`FlowGraph.Layout.entry_reaches_iff`).

* `FlowGraph.entry_reaches_first_iff` — when Entry leads into the method;
* `FlowGraph.circular_not_entered` — a loop at the beginning that is not entered.
-/

namespace Dependence

open Relation

namespace FlowGraph

/-- A transition leads from instruction `a` to instruction `b`. -/
def Linked (stream : List (Option Instruction)) (transitions : List (ℕ × ℕ))
    (a b : Option Instruction) : Prop :=
  ∃ t ∈ transitions, instructionAt stream t.1 = a ∧ instructionAt stream t.2 = b

/-- **An opening**: an instruction `a` that is mentioned, and that no transition leads to. -/
def Opening (stream : List (Option Instruction)) (transitions : List (ℕ × ℕ))
    (a : Option Instruction) : Prop :=
  (∃ i ∈ mentions stream transitions, instructionAt stream i = a) ∧
    ∀ b, ¬ Linked stream transitions b a

/-- A node stands for one instruction. -/
theorem standsFor_inj {n : Node} {a b : Option Instruction}
    (ha : NodeTable.standsFor a n = true) (hb : NodeTable.standsFor b n = true) : a = b := by
  obtain ⟨p, hp⟩ := NodeTable.standsFor_iff.1 ha
  obtain ⟨q, hq⟩ := NodeTable.standsFor_iff.1 hb
  exact (Node.Content.place.inj (hp.symm.trans hq)).1

/-! ### Ways in a layout -/

namespace Layout

variable {stream : List (Option Instruction)} {transitions : List (ℕ × ℕ)} {layout : FlowGraph}
  (h : Layout stream (mentions stream transitions) transitions layout)

include h

/-- A layout has one node for an instruction. -/
theorem eq_of_standsFor {x y : Node} {a : Option Instruction} (hx : x ∈ layout.nodes)
    (hy : y ∈ layout.nodes) (hxa : NodeTable.standsFor a x = true)
    (hya : NodeTable.standsFor a y = true) : x = y :=
  Option.some.inj ((h.unique x hx a hxa).symm.trans (h.unique y hy a hya))

/-- An instruction that is mentioned has a node, and it is a place. -/
theorem exists_standsFor {i : ℕ} (hi : i ∈ mentions stream transitions) :
    ∃ n, layout.nodeOf? stream i = some n ∧ n ∈ layout.places ∧
      NodeTable.standsFor (instructionAt stream i) n = true := by
  obtain ⟨n, hn⟩ := Option.isSome_iff_exists.1 (h.found i hi)
  have hstands := (NodeTable.lookup?_eq_some hn).2
  obtain ⟨p, hp⟩ := NodeTable.standsFor_iff.1 hstands
  exact ⟨n, hn, mem_places.2 ⟨h.mem_of_nodeOf? hn, by rw [Node.isMarker, hp]⟩, hstands⟩

/-- A place stands for an instruction that is mentioned. -/
theorem standsFor_of_mem_places {n : Node} (hn : n ∈ layout.places) :
    ∃ i ∈ mentions stream transitions, NodeTable.standsFor (instructionAt stream i) n = true := by
  obtain ⟨hentry, hexit⟩ := ne_markers_of_mem_places hn
  obtain hmarker | hmarker | ⟨i, hi, hcontent⟩ := h.cases_node (mem_places.1 hn).1
  · exact absurd hmarker hentry
  · exact absurd hmarker hexit
  · exact ⟨i, hi, NodeTable.standsFor_iff.2 ⟨_, hcontent⟩⟩

/-- The edges of a layout are `Linked` between instructions. -/
theorem mem_successors_iff_linked {x y : Node} {a b : Option Instruction} (hx : x ∈ layout.nodes)
    (hy : y ∈ layout.nodes) (hxa : NodeTable.standsFor a x = true)
    (hyb : NodeTable.standsFor b y = true) :
    y ∈ layout.successors x ↔ Linked stream transitions a b := by
  rw [h.mem_successors_iff]
  refine exists_congr fun t => and_congr_right fun _ => ?_
  -- the ends of a transition have the nodes `x` and `y` just if they are `a` and `b`
  refine ⟨fun hnodes => ⟨?_, ?_⟩, fun hends => ⟨?_, ?_⟩⟩
  · exact standsFor_inj (NodeTable.lookup?_eq_some hnodes.1).2 hxa
  · exact standsFor_inj (NodeTable.lookup?_eq_some hnodes.2).2 hyb
  · rw [nodeOf?, hends.1]
    exact h.unique x hx a hxa
  · rw [nodeOf?, hends.2]
    exact h.unique y hy b hyb

/-- **The ways of a layout** are the ways along `Linked`. -/
theorem reaches_iff_linked {x y : Node} {a b : Option Instruction} (hx : x ∈ layout.nodes)
    (hy : y ∈ layout.nodes) (hxa : NodeTable.standsFor a x = true)
    (hyb : NodeTable.standsFor b y = true) :
    ReflTransGen (fun u v => v ∈ layout.successors u) x y ↔
      ReflTransGen (Linked stream transitions) a b := by
  refine ⟨fun hway => ?_, fun hway => ?_⟩
  · -- every node on the way is a place, so it stands for an instruction
    induction hway generalizing b with
    | refl => rw [standsFor_inj hxa hyb]
    | @tail u v _ huv ih =>
      have hu := (h.mem_places_of_mem_successors huv).1
      obtain ⟨i, -, hi⟩ := h.standsFor_of_mem_places hu
      have humem := (mem_places.1 hu).1
      exact (ih humem hi).tail ((h.mem_successors_iff_linked humem hy hi hyb).1 huv)
  · -- every instruction on the way is mentioned, so it has a node
    induction hway generalizing y with
    | refl => rw [h.eq_of_standsFor hx hy hxa hyb]
    | @tail c d _ hcd ih =>
      obtain ⟨t, ht, rfl, -⟩ := id hcd
      obtain ⟨u, -, hu, hut⟩ := h.exists_standsFor (mem_mentions_of_mem stream ht).1
      have humem := (mem_places.1 hu).1
      exact (ih humem hut).tail ((h.mem_successors_iff_linked humem hy hut hyb).2 hcd)

/-- The places of a layout without a predecessor stand for openings. -/
theorem predecessors_eq_nil_iff_opening {n : Node} {a : Option Instruction} (hn : n ∈ layout.places)
    (hna : NodeTable.standsFor a n = true) :
    layout.predecessors n = [] ↔ Opening stream transitions a := by
  have hnmem := (mem_places.1 hn).1
  obtain ⟨i, hi, hni⟩ := h.standsFor_of_mem_places hn
  refine ⟨fun hnil => ⟨⟨i, hi, standsFor_inj hni hna⟩, fun b hlinked => ?_⟩, fun hopening => ?_⟩
  · -- a link would come from an instruction that is mentioned, so from a predecessor
    obtain ⟨t, ht, rfl, -⟩ := id hlinked
    obtain ⟨u, -, hu, hut⟩ := h.exists_standsFor (mem_mentions_of_mem stream ht).1
    have hun := (h.mem_successors_iff_linked (mem_places.1 hu).1 hnmem hut hna).2 hlinked
    rw [← Graph.mem_predecessors_iff, hnil] at hun
    cases hun
  · refine List.eq_nil_iff_forall_not_mem.2 fun u hu => ?_
    rw [Graph.mem_predecessors_iff] at hu
    have huplace := (h.mem_places_of_mem_successors hu).1
    obtain ⟨j, -, hj⟩ := h.standsFor_of_mem_places huplace
    exact hopening.2 _ ((h.mem_successors_iff_linked (mem_places.1 huplace).1 hnmem hj hna).1 hu)

/-! ### Ways from Entry -/

section Closed

variable {f : FlowGraph} (htable : f.table = layout.table)
  (hext : Graph.Extends layout.toGraph layout.closingArcs f.toGraph)

include htable hext

/-- In a closed layout `f`, Entry leads to the places without a predecessor. -/
theorem entry_flows_iff {n : Node} (hn : n ∈ layout.places) :
    f.Flows f.entry n ↔ layout.predecessors n = [] := by
  have hentry : f.entry = layout.entry := entry_congr htable
  obtain ⟨-, hexit⟩ := ne_markers_of_mem_places hn
  rw [Flows, mem_successors_closed hext, hentry]
  refine ⟨fun hflow => ?_, fun hnil => .inr (.inr (.inl ⟨hn, hnil, rfl⟩))⟩
  -- by the kind of the edge: only those that bound `n` can start at Entry
  rcases hflow with hflow | ⟨-, -, heq⟩ | ⟨-, hnil, -⟩ | ⟨-, -, heq⟩
  · exact absurd rfl (ne_markers_of_mem_places (h.mem_places_of_mem_successors hflow).1).1
  · exact absurd heq hexit
  · exact hnil
  · exact absurd heq hexit

/-- **A way from Entry** goes to a place without a predecessor first, and on from there along the
edges of the layout. -/
theorem entry_reaches_iff {n : Node} (hn : n ∈ layout.places) :
    ReflTransGen f.Flows f.entry n ↔ ∃ x ∈ layout.places, layout.predecessors x = [] ∧
      ReflTransGen (fun u v => v ∈ layout.successors u) x n := by
  have hentry : f.entry = layout.entry := entry_congr htable
  refine ⟨fun hway => ?_, fun hstart => ?_⟩
  · -- on the last step of the way
    induction hway with
    | refl => exact absurd hentry (ne_markers_of_mem_places hn).1
    | @tail u v hu huv ih =>
      by_cases hlayout : v ∈ layout.successors u
      · obtain ⟨x, hx, hnil, hway⟩ := ih (h.mem_places_of_mem_successors hlayout).1
        exact ⟨x, hx, hnil, hway.tail hlayout⟩
      · -- a step that was added, so one from Entry
        obtain ⟨-, hexit⟩ := ne_markers_of_mem_places hn
        rw [Flows, mem_successors_closed hext] at huv
        rcases huv with huv | ⟨-, -, heq⟩ | ⟨-, hnil, -⟩ | ⟨-, -, heq⟩
        · exact absurd huv hlayout
        · exact absurd heq hexit
        · exact ⟨v, hn, hnil, .refl⟩
        · exact absurd heq hexit
  · obtain ⟨x, hx, hnil, hway⟩ := hstart
    have hfirst : f.Flows f.entry x := (h.entry_flows_iff htable hext hx).2 hnil
    refine .head hfirst (ReflTransGen.mono (fun u v huv => ?_) _ _ hway)
    exact (mem_successors_closed hext).2 (.inl huv)

end Closed

end Layout

/-- **When Entry leads into the method.** The first instruction of a stream that has one has a node,
and Entry reaches this node if and only if some instruction that no transition leads to reaches the
first one along transitions, or is the first one. Entry leads to it directly just if no transition
does. -/
theorem entry_reaches_first_iff {m : Method} {table : ℕ} {given : Value} {f : FlowGraph}
    {stream : List (Option Instruction)} {pairs : List (Value × Value)}
    {transitions : List (ℕ × ℕ)} (hbuild : (build m table given).result = .ok f)
    (hfound : m.discover.result = .ok (stream, pairs))
    (hends : endpoints stream.length pairs = .ok transitions) (hstream : stream ≠ []) :
    ∃ first, f.nodeOf? stream 0 = some first ∧ first ∈ f.places ∧
      (ReflTransGen f.Flows f.entry first ↔ ∃ a, Opening stream transitions a ∧
        ReflTransGen (Linked stream transitions) a (instructionAt stream 0)) ∧
      (f.Flows f.entry first ↔ ∀ b, ¬ Linked stream transitions b (instructionAt stream 0)) := by
  obtain ⟨stream', pairs', transitions', unit, hfound', hends', hconnect⟩ :=
    exists_connect_of_build hbuild
  cases hfound.symm.trans hfound'
  cases hends.symm.trans hends'
  obtain ⟨layout, f', hconnect', h, htable, -, hext⟩ := connect_spec table unit stream transitions
  cases hconnect.symm.trans hconnect'
  -- the first position is placed even if no transition mentions it
  have hzero : 0 ∈ mentions stream transitions := by
    refine List.mem_append_left _ ?_
    rw [if_neg (by simpa using hstream)]
    exact List.mem_singleton_self 0
  obtain ⟨first, hnode, hplace, hstands⟩ := h.exists_standsFor hzero
  have hfirst := (mem_places.1 hplace).1
  refine ⟨first, ?_, ?_, ?_, ?_⟩
  · rw [nodeOf?, htable]
    exact hnode
  · rw [mem_places, hext.nodes]
    exact mem_places.1 hplace
  · -- from nodes to instructions, the opening and the way from it
    rw [h.entry_reaches_iff htable hext hplace]
    refine ⟨fun hstart => ?_, fun hstart => ?_⟩
    · obtain ⟨x, hx, hnil, hway⟩ := hstart
      obtain ⟨i, -, hi⟩ := h.standsFor_of_mem_places hx
      exact ⟨_, (h.predecessors_eq_nil_iff_opening hx hi).1 hnil,
        (h.reaches_iff_linked (mem_places.1 hx).1 hfirst hi hstands).1 hway⟩
    · obtain ⟨a, hopening, hway⟩ := hstart
      obtain ⟨⟨i, hi, rfl⟩, -⟩ := id hopening
      obtain ⟨x, -, hx, hxi⟩ := h.exists_standsFor hi
      exact ⟨x, hx, (h.predecessors_eq_nil_iff_opening hx hxi).2 hopening,
        (h.reaches_iff_linked (mem_places.1 hx).1 hfirst hxi hstands).2 hway⟩
  · rw [h.entry_flows_iff htable hext hplace, h.predecessors_eq_nil_iff_opening hplace hstands]
    exact and_iff_right ⟨0, hzero, rfl⟩

/-- A loop at the beginning, into which an instruction after it leads. -/
def sideways : List (ℕ × ℕ) := [(0, 1), (1, 0), (2, 0)]

/-- Entry reaches the first instruction by way of the last one, and does not lead to it. -/
theorem entry_reaches_first_iff_sideways :
    ∃ f first, (build (Listing.ofSteps 3 sideways).method 0 .none).result = .ok f ∧
      f.nodeOf? (Listing.ofSteps 3 sideways).instructions 0 = some first ∧
      ReflTransGen f.Flows f.entry first ∧ ¬ f.Flows f.entry first := by
  obtain ⟨f, hbuild⟩ := exists_build (m := (Listing.ofSteps 3 sideways).method) 0 .none rfl rfl
  have hends : endpoints 3 (sideways.map fun t => (.int t.1, .int t.2)) = .ok sideways := rfl
  obtain ⟨first, hnode, -, hreaches, hflows⟩ :=
    entry_reaches_first_iff hbuild rfl hends (by decide)
  have hlinked : ∀ t ∈ sideways, Linked (Listing.ofSteps 3 sideways).instructions sideways
      (instructionAt (Listing.ofSteps 3 sideways).instructions t.1)
      (instructionAt (Listing.ofSteps 3 sideways).instructions t.2) := fun t ht => ⟨t, ht, rfl, rfl⟩
  refine ⟨f, first, hbuild, hnode, hreaches.2 ⟨_, ⟨⟨2, by decide, rfl⟩, ?_⟩, ?_⟩, ?_⟩
  · -- no transition leads to the last instruction, which is the opening
    rintro b ⟨t, ht, -, heq⟩
    have hnone : ∀ t ∈ sideways, instructionAt (Listing.ofSteps 3 sideways).instructions t.2 ≠
        instructionAt (Listing.ofSteps 3 sideways).instructions 2 := by decide
    exact hnone t ht heq
  · exact .single (hlinked (2, 0) (by decide))
  · rw [hflows]
    exact fun hnone => hnone _ (hlinked (1, 0) (by decide))

/-- A loop at the beginning, with a way out. -/
def circular : List (ℕ × ℕ) := [(0, 1), (1, 0), (0, 2)]

/-- **A method that is not entered.** Every instruction has a predecessor, so Entry leads nowhere
and does not reach the first instruction. -/
theorem circular_not_entered :
    ∃ f first, (build (Listing.ofSteps 3 circular).method 0 .none).result = .ok f ∧
      first ∈ f.nodes ∧ first.point = .position 0 ∧ ¬ ReflTransGen f.Flows f.entry first := by
  obtain ⟨f, hbuild, h⟩ := exists_outline_ofSteps 3 circular (by decide)
  obtain ⟨first, hfirst, hpoint⟩ := h.exists_point (i := 0) (by decide)
  refine ⟨f, first, hbuild, hfirst, hpoint, fun hway => ?_⟩
  rcases hway.cases_head with rfl | ⟨n, hflow, -⟩
  · cases hpoint
  · -- the first step of the way would lead to an instruction that is no target
    obtain ⟨hn, j, hj, hnone⟩ := (h.mem_successors_entry (by decide)).1 hflow
    obtain ⟨i, hi, hi'⟩ := h.point_of_mem_places hn
    cases hj.symm.trans hi'
    have htargets : ∀ i ∈ mentions (Listing.ofSteps 3 circular).instructions circular,
        ∃ t ∈ circular, t.2 = i := by decide
    obtain ⟨t, ht, hti⟩ := htargets j hi
    exact hnone t ht hti

end FlowGraph

end Dependence
