import Dependence.Log.Action
import Dependence.Proofs.Graph.Listing
import Mathlib.Data.List.Induction

/-!
# Histories of a graph

A graph is built by calls that add nodes and edges, and some of them fail. After any history the
graph is the record of the calls that succeeded, and what it answers is read off these calls in the
order in which they were made.

* `Graph.Call` — a call, and what it does to a graph (`Graph.Call.act`);
* `Graph.after`, `Graph.succeeded` — the graph after a history, and the calls that succeeded in it;
* `Graph.Recorded` — the invariant: nodes and edges are those of the calls, and parallel edges are
  numbered.

"Each once, in order of the first" is the relation `Firsts` between lists.
-/

namespace Dependence

/-! ### First occurrences -/

section Firsts

variable {α : Type} [DecidableEq α]

/-- `firsts` is what occurs in `all`, each once, in order of the first occurrence. -/
structure Firsts (all firsts : List α) : Prop where
  nodup : firsts.Nodup
  mem : ∀ a, a ∈ firsts ↔ a ∈ all
  order : firsts.Pairwise fun a b => all.idxOf a < all.idxOf b

namespace Firsts

variable {all firsts : List α} {a : α}

/-- What has occurred keeps its place, whatever occurs next. -/
theorem order_append (h : Firsts all firsts) (more : List α) :
    firsts.Pairwise fun a b => (all ++ more).idxOf a < (all ++ more).idxOf b := by
  refine h.order.imp_of_mem fun {a b} ha hb hlt => ?_
  rwa [List.idxOf_append_of_mem ((h.mem a).1 ha), List.idxOf_append_of_mem ((h.mem b).1 hb)]

/-- What occurs once more does not count. -/
theorem again (h : Firsts all firsts) (ha : a ∈ all) : Firsts (all ++ [a]) firsts where
  nodup := h.nodup
  mem b := by
    rw [h.mem, List.mem_append, List.mem_singleton]
    exact ⟨Or.inl, fun hb => hb.elim id fun hb => hb ▸ ha⟩
  order := h.order_append [a]

/-- What occurs for the first time comes last. -/
theorem snoc (h : Firsts all firsts) (ha : a ∉ all) : Firsts (all ++ [a]) (firsts ++ [a]) where
  nodup := by
    refine List.nodup_append.2 ⟨h.nodup, List.nodup_singleton a, fun b hb c hc hbc => ha ?_⟩
    rw [← List.mem_singleton.1 hc, ← hbc]
    exact (h.mem b).1 hb
  mem b := by rw [List.mem_append, List.mem_append, h.mem]
  order := by
    -- what occurred before stands before the end of `all`, and `a` stands at its end
    refine List.pairwise_append.2
      ⟨h.order_append [a], List.pairwise_singleton _ a, fun b hb c hc => ?_⟩
    have hball : b ∈ all := (h.mem b).1 hb
    rw [List.mem_singleton.1 hc, List.idxOf_append_of_mem hball, List.idxOf_append_of_notMem ha]
    exact Nat.lt_of_lt_of_le (List.idxOf_lt_length_of_mem hball) (Nat.le_add_right _ _)

/-- `List.eraseDups` keeps the first occurrences. -/
theorem eraseDups (all : List α) : Firsts all all.eraseDups := by
  -- from the end, as lists of calls grow
  induction all using List.reverseRecOn with
  | nil => exact ⟨List.nodup_nil, fun _ => Iff.rfl, .nil⟩
  | append_singleton all a ih =>
    rw [List.eraseDups_append]
    by_cases ha : a ∈ all
    · have hgone : [a].removeAll all = [] := by simp [List.removeAll, ha]
      rw [hgone]
      simpa using ih.again ha
    · have hkept : [a].removeAll all = [a] := by simp [List.removeAll, ha]
      rw [hkept]
      exact ih.snoc ha

end Firsts

end Firsts

namespace Graph

variable {ν : Type}

/-! ### Calls -/

/-- A call that is to change a graph. -/
inductive Call (ν : Type) where
  /-- Add a node. -/
  | node (n : Option ν)
  /-- Add an edge with attributes. -/
  | edge (source target : Option ν) (attributes : Attributes)

namespace Call

/-- The node that a call is to add. -/
def node? : Call ν → Option ν
  | node n => n
  | edge .. => none

/-- The edge that a call is to add, if it has two ends. -/
def arc? : Call ν → Option (Arc ν)
  | edge (some s) (some t) attributes => some (s, t, attributes)
  | _ => none

end Call

/-- The nodes that `calls` are to add, in order. -/
def addedNodes (calls : List (Call ν)) : List ν := calls.filterMap Call.node?

/-- The edges that `calls` are to add, in order. -/
def addedArcs (calls : List (Call ν)) : List (Arc ν) := calls.filterMap Call.arc?

@[simp] theorem addedNodes_snoc (calls : List (Call ν)) (c : Call ν) :
    addedNodes (calls ++ [c]) = addedNodes calls ++ c.node?.toList := by
  rw [addedNodes, List.filterMap_append]
  cases c <;> rfl

@[simp] theorem addedArcs_snoc (calls : List (Call ν)) (c : Call ν) :
    addedArcs (calls ++ [c]) = addedArcs calls ++ c.arc?.toList := by
  rw [addedArcs, List.filterMap_append, List.filterMap_cons]
  cases c.arc? <;> rfl

variable [DecidableEq ν]

/-- The attributes of the edges between `s` and `t` that `calls` are to add, in order. -/
def addedData (calls : List (Call ν)) (s t : Option ν) : List Attributes :=
  ((addedArcs calls).filter fun a => some a.1 == s && some a.2.1 == t).map (·.2.2)

/-! ### The record -/

omit [DecidableEq ν] in
/-- `freeKey` beside edges that are numbered is how many they are. -/
theorem freeKey_of_numbered {beside : List (Edge ν)}
    (h : beside.map Edge.key = (List.range beside.length).map fun i : ℕ => Value.int i) :
    freeKey beside = Value.int beside.length := by
  -- the number that is tried first is taken by none: all are smaller
  have hfree : (beside.any fun e => e.key == Value.int beside.length) = false := by
    refine List.any_eq_false.2 fun e he hkey => ?_
    obtain ⟨i, hi, hval⟩ := List.mem_map.1 (h ▸ List.mem_map_of_mem he)
    rw [← hval] at hkey
    have := Value.eq_of_int_beq hkey
    have := List.mem_range.1 hi
    omega
  rw [freeKey, List.range_succ_eq_map, List.map_cons, List.find?_cons_of_pos]
  · simp
  · simpa using hfree

/-- **The record of the calls `done`**: `g` has the nodes and edges that they were to add, and
numbers parallel edges. -/
structure Recorded (name : Value) (done : List (Call ν)) (g : Graph ν) : Prop where
  name : g.name = name
  nodes : Firsts (addedNodes done) g.nodes
  arcs : g.edges.map Edge.arc = addedArcs done
  keys : ∀ s t, (g.between s t).map Edge.key =
    (List.range (g.between s t).length).map fun i : ℕ => Value.int i

theorem between_appendEdge (g : Graph ν) (e : Edge ν) (hs : e.source ∈ g.nodes)
    (ht : e.target ∈ g.nodes) (s t : ν) :
    (g.appendEdge e hs ht).between s t = g.between s t ++ [e].filter (Edge.joins s t) :=
  List.filter_append ..

namespace Recorded

variable {name : Value} {done : List (Call ν)} {g : Graph ν}

theorem mem_nodes_iff (h : Recorded name done g) {n : ν} :
    n ∈ g.nodes ↔ some n ∈ (addedNodes done).map some := by
  rw [h.nodes.mem, List.mem_map_of_injective (Option.some_injective ν)]

/-- The attributes between two references are those of the calls. -/
theorem map_betweenRefs (h : Recorded name done g) (s t : Option ν) :
    (g.betweenRefs s t).map Edge.attributes = addedData done s t := by
  rw [addedData, ← h.arcs, List.filter_map, List.map_map]
  show _ = (g.edges.filter fun e => some e.source == s && some e.target == t).map Edge.attributes
  match s, t with
  | some s, some t => rfl
  -- a reference to nothing is no end of any edge
  | some s, none => simp [betweenRefs]
  | none, t => simp [betweenRefs]

/-- `addNode` is recorded. -/
theorem addNode (h : Recorded name done g) (n : ν) :
    Recorded name (done ++ [.node (some n)]) (g.addNode n) where
  name := by
    unfold Graph.addNode
    split <;> exact h.name
  nodes := by
    show Firsts (addedNodes (done ++ [.node (some n)])) (g.addNode n).nodes
    rw [addedNodes_snoc]
    by_cases hn : n ∈ g.nodes
    -- a node that is there already is added once more, and keeps its place
    · rw [Graph.addNode, dif_pos hn]
      exact h.nodes.again ((h.nodes.mem n).1 hn)
    · rw [Graph.addNode, dif_neg hn]
      exact h.nodes.snoc fun hmem => hn ((h.nodes.mem n).2 hmem)
  arcs := by
    rw [edges_addNode, h.arcs, addedArcs_snoc]
    exact (List.append_nil _).symm
  keys s t := by
    have hbetween : (g.addNode n).between s t = g.between s t := by
      rw [between, edges_addNode, between]
    rw [hbetween]
    exact h.keys s t

/-- `appendEdge` under the next number is recorded. -/
theorem appendEdge (h : Recorded name done g) {s t : ν} (hs : s ∈ g.nodes) (ht : t ∈ g.nodes)
    (attributes : Attributes) :
    Recorded name (done ++ [.edge (some s) (some t) attributes])
      (g.appendEdge ⟨s, t, .int (g.between s t).length, attributes⟩ hs ht) where
  name := h.name
  nodes := by
    rw [addedNodes_snoc]
    exact (List.append_nil (addedNodes done)).symm ▸ h.nodes
  arcs := by
    rw [addedArcs_snoc, ← h.arcs]
    exact List.map_append
  keys s' t' := by
    rw [between_appendEdge]
    by_cases hends : s = s' ∧ t = t'
    · -- the new edge comes last, and has the next number
      obtain ⟨rfl, rfl⟩ := hends
      simp [Edge.joins, List.range_succ, h.keys s t]
    · -- between other ends nothing has changed
      have hjoins : (s == s' && t == t') = false := by simpa using hends
      simpa [Edge.joins, hjoins] using h.keys s' t'

end Recorded

/-! ### The answers -/

section Answers

variable {g : Graph ν}

/-- `successors` are the targets of the edges from a node, in order of the first edge. -/
theorem firsts_successors (g : Graph ν) (s : ν) :
    Firsts (((g.edges.map Edge.arc).filter fun a => a.1 == s).map (·.2.1)) (g.successors s) := by
  rw [List.filter_map, List.map_map]
  exact .eraseDups _

/-- `predecessors` are the sources of the edges to a node, in order of the first edge. -/
theorem firsts_predecessors (g : Graph ν) (t : ν) :
    Firsts (((g.edges.map Edge.arc).filter fun a => a.2.1 == t).map (·.1)) (g.predecessors t) := by
  rw [List.filter_map, List.map_map]
  exact .eraseDups _

theorem hasEdge_iff {s t : ν} : g.hasEdge (some s) (some t) = true ↔ t ∈ g.successors s := by
  rw [hasEdge, betweenRefs, Bool.not_eq_true', List.isEmpty_eq_false_iff, ne_eq,
    between_eq_nil_iff, not_not]

end Answers

/-! ### Runs -/

variable [Labelled ν]

namespace Call

/-- **What a call does.** It gives back the key of the edge that it adds. -/
def act : Call ν → Action (Graph ν) (Option Value)
  | node n => Action.change fun g => return (← g.addNodeRef n, none)
  | edge s t attributes => Action.change fun g => do
    let (g, key) ← g.addKeyedEdge s t .none attributes
    return (g, some key)

/-- What a call on the graph `name` has to give back, after the calls `done` succeeded. -/
def reply (name : Value) (done : List (Call ν)) : Call ν → Except Error (Option Value)
  | node (some _) => .ok none
  | node none => .error (.fault .noNode)
  | edge s t _ =>
    if s ∈ (addedNodes done).map some ∧ t ∈ (addedNodes done).map some then
      .ok (some (.int (addedData done s t).length))
    else .error (.fault (.strayEdge (Labelled.shown s) (Labelled.shown t) name))

end Call

/-- One more call: the graph that it leaves, and the calls that succeeded, with it if it did. -/
def step (state : Graph ν × List (Call ν)) (c : Call ν) : Graph ν × List (Call ν) :=
  let (g, out) := c.act state.1
  (g, if out.result.isOk then state.2 ++ [c] else state.2)

/-- The graph after `calls`, and those of them that succeeded. -/
def history (name : Value) (calls : List (Call ν)) : Graph ν × List (Call ν) :=
  calls.foldl step (empty name, [])

/-- The graph after `calls`. -/
def after (name : Value) (calls : List (Call ν)) : Graph ν := (history name calls).1

/-- The calls that succeeded. -/
def succeeded (name : Value) (calls : List (Call ν)) : List (Call ν) := (history name calls).2

theorem history_snoc (name : Value) (calls : List (Call ν)) (c : Call ν) :
    history name (calls ++ [c]) = step (history name calls) c := by
  rw [history, List.foldl_append]
  rfl

theorem after_snoc (name : Value) (calls : List (Call ν)) (c : Call ν) :
    after name (calls ++ [c]) = (c.act (after name calls)).1 := by
  rw [after, history_snoc]
  rfl

theorem succeeded_snoc (name : Value) (calls : List (Call ν)) (c : Call ν) :
    succeeded name (calls ++ [c]) =
      if (c.act (after name calls)).2.result.isOk then succeeded name calls ++ [c]
      else succeeded name calls := by
  rw [succeeded, history_snoc]
  rfl

section Call

variable {name : Value} {done : List (Call ν)} {g : Graph ν}

/-- `addKeyedEdge` fails where an end is no node, or nothing. -/
theorem addKeyedEdge_eq_error {s t : Option ν} (h : ¬ (s ∈ g.nodes.map some ∧ t ∈ g.nodes.map some))
    (key : Value) (attributes : Attributes) :
    g.addKeyedEdge s t key attributes =
      .error (.strayEdge (Labelled.shown s) (Labelled.shown t) g.name) := by
  match s, t with
  | some s, some t =>
    rw [List.mem_map_of_injective (Option.some_injective ν),
      List.mem_map_of_injective (Option.some_injective ν)] at h
    rw [addKeyedEdge, dif_neg h]
    rfl
  | some s, none => rfl
  | none, _ => rfl

/-- `act` for an edge is `addKeyedEdge`, with the key chosen by the graph. -/
theorem Call.act_edge (g : Graph ν) (s t : Option ν) (attributes : Attributes) :
    (Call.edge s t attributes).act g =
      match g.addKeyedEdge s t .none attributes with
      | .ok (g', key) => (g', pure (some key))
      | .error e => (g, .fail (.fault e)) := by
  rw [act, Action.change]
  cases g.addKeyedEdge s t .none attributes <;> rfl

namespace Recorded

/-- **`addKeyedEdge`** gives the edge the number of those beside it, and gives that number back. -/
theorem addKeyedEdge (h : Recorded name done g) {s t : ν} (hs : s ∈ g.nodes) (ht : t ∈ g.nodes)
    (attributes : Attributes) :
    g.addKeyedEdge (some s) (some t) .none attributes =
      .ok (g.appendEdge ⟨s, t, .int (g.between s t).length, attributes⟩ hs ht,
        .int (g.between s t).length) := by
  -- the key is free, so it is not chosen anew
  have hkey := freeKey_of_numbered (h.keys s t)
  have hfree := freeKey_free (g.between s t)
  rw [hkey] at hfree
  rw [Graph.addKeyedEdge, dif_pos ⟨hs, ht⟩]
  simp only [ok_bind, hkey, hfree]
  rfl

/-- **One call.** It gives back what the calls before it demand, and the graph stays their record:
with this call if it succeeds, and unchanged if it fails. -/
theorem act (h : Recorded name done g) (c : Call ν) :
    (c.act g).2.result = c.reply name done ∧
      (((c.reply name done).isOk = true ∧ Recorded name (done ++ [c]) (c.act g).1) ∨
        ((c.reply name done).isOk = false ∧ (c.act g).1 = g)) := by
  -- one case per constructor; an edge fails if the record lacks one of its ends
  match c with
  | .node (some n) => exact ⟨rfl, .inl ⟨rfl, h.addNode n⟩⟩
  | .node none => exact ⟨rfl, .inr ⟨rfl, rfl⟩⟩
  | .edge s t attributes =>
    rw [Call.act_edge, Call.reply]
    by_cases hends : s ∈ (addedNodes done).map some ∧ t ∈ (addedNodes done).map some
    · rw [if_pos hends]
      obtain ⟨s, -, rfl⟩ := List.mem_map.1 hends.1
      obtain ⟨t, -, rfl⟩ := List.mem_map.1 hends.2
      have hs : s ∈ g.nodes := h.mem_nodes_iff.2 hends.1
      have ht : t ∈ g.nodes := h.mem_nodes_iff.2 hends.2
      -- the number that the calls demand is that of the edges in the graph
      have hcount : (addedData done (some s) (some t)).length = (g.between s t).length := by
        rw [← h.map_betweenRefs, List.length_map]
        rfl
      rw [h.addKeyedEdge hs ht, hcount]
      exact ⟨rfl, .inl ⟨rfl, h.appendEdge hs ht attributes⟩⟩
    · have hstray : ¬ (s ∈ g.nodes.map some ∧ t ∈ g.nodes.map some) := by
        simpa only [List.mem_map, h.nodes.mem] using hends
      rw [if_neg hends, addKeyedEdge_eq_error hstray, h.name]
      exact ⟨rfl, .inr ⟨rfl, rfl⟩⟩

end Recorded

end Call

/-- **Any history**: the graph is the record of the calls that succeeded. -/
theorem recorded_after (name : Value) (calls : List (Call ν)) :
    Recorded name (succeeded name calls) (after name calls) := by
  -- on the history, from its end: `Recorded.act` is the step
  induction calls using List.reverseRecOn with
  | nil => exact ⟨rfl, ⟨List.nodup_nil, fun _ => Iff.rfl, .nil⟩, rfl, fun _ _ => rfl⟩
  | append_singleton calls c ih =>
    obtain ⟨hreply, hact⟩ := ih.act c
    rw [succeeded_snoc, after_snoc, hreply]
    obtain ⟨hok, hrecord⟩ | ⟨hfail, hsame⟩ := hact
    · rwa [if_pos hok]
    · rw [if_neg (by rw [hfail]; exact Bool.false_ne_true), hsame]
      exact ih

/-- **A graph is faithful to its history.** Take any calls that add nodes and edges, and the graph
after them. A further call gives back what the calls that succeeded demand, an edge the number of
those between the same ends, and if it fails nothing has changed. The nodes are those that were
added, each once, in order of the first addition, and edges lead from node to node. The data between
two references are those of the calls for them, in order. The neighbours of a node are given, each
once, in order of the first edge; that a node is a successor, that the other is a predecessor, that
there is an edge and that there are data are the same. The listing goes by node, successor and
parallel edge, and has all edges. -/
theorem history_faithful (name : Value) (calls : List (Call ν)) :
    let g := after name calls
    let done := succeeded name calls
    (∀ c : Call ν, (c.act g).2.result = c.reply name done ∧
      ∀ e, (c.act g).2.result = .error e →
        after name (calls ++ [c]) = g ∧ succeeded name (calls ++ [c]) = done) ∧
    Firsts (addedNodes done) g.nodes ∧
    (∀ e ∈ g.edges, e.source ∈ g.nodes ∧ e.target ∈ g.nodes) ∧
    (∀ s t, (g.betweenRefs s t).map Edge.attributes = addedData done s t) ∧
    (∀ n ∈ g.nodes, ∃ next before,
      g.successorsOf (some n) = .ok next ∧ g.predecessorsOf (some n) = .ok before ∧
      Firsts (((addedArcs done).filter fun a => a.1 == n).map (·.2.1)) next ∧
      Firsts (((addedArcs done).filter fun a => a.2.1 == n).map (·.1)) before) ∧
    (∀ s t, (t ∈ g.successors s ↔ s ∈ g.predecessors t) ∧
      (t ∈ g.successors s ↔ g.hasEdge (some s) (some t) = true) ∧
      (t ∈ g.successors s ↔ g.betweenRefs (some s) (some t) ≠ [])) ∧
    g.listing = (g.nodes.flatMap fun s => (g.successors s).flatMap fun t => g.between s t) ∧
    g.listing.Perm g.edges ∧ g.listing.length = g.edges.length := by
  intro g done
  have h : Recorded name done g := recorded_after name calls
  refine ⟨fun c => ⟨(h.act c).1, fun e he => ?_⟩, h.nodes, g.ends, h.map_betweenRefs,
    fun n hn => ⟨g.successors n, g.predecessors n, ?_, ?_, ?_, ?_⟩,
    fun s t => ⟨mem_predecessors_iff.symm, hasEdge_iff.symm, ?_⟩, g.listing_eq, g.listing_perm,
    g.listing_perm.length_eq⟩
  · -- a call that fails is not among those that succeeded, and leaves the graph
    rw [succeeded_snoc, he, after_snoc]
    obtain ⟨hreply, ⟨hok, -⟩ | ⟨-, hsame⟩⟩ := h.act c
    · rw [← hreply, he] at hok
      cases hok
    · exact ⟨hsame, rfl⟩
  · rw [successorsOf, member, if_pos (List.contains_iff_mem.2 hn)]
    rfl
  · rw [predecessorsOf, member, if_pos (List.contains_iff_mem.2 hn)]
    rfl
  -- the neighbours are read off the edges, which are those of the record
  · rw [← h.arcs]
    exact g.firsts_successors n
  · rw [← h.arcs]
    exact g.firsts_predecessors n
  · rw [betweenRefs, ne_eq, between_eq_nil_iff, not_not]

end Graph

end Dependence
