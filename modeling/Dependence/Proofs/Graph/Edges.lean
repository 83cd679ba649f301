import Dependence.Graph.Basic
import Dependence.Proofs.Outcome
import Mathlib.Data.Fintype.Pigeonhole

/-!
# Adding edges

An edge that is added without a key gets one that no parallel edge has (`Graph.freeKey_free`), so
the edge is always appended and none is changed. What an edge is apart from its key is its
`Edge.arc`. Adding edges one by one, between nodes of the graph, succeeds and appends their arcs
(`Graph.Extends`), whatever else the steps do (`Graph.foldlM_extends`).
-/

namespace Dependence

/-- An edge without its key: source, target and attributes. -/
abbrev Arc (ν : Type) := ν × ν × Attributes

/-- The edge `e` without its key. -/
def Edge.arc {ν : Type} (e : Edge ν) : Arc ν := (e.source, e.target, e.attributes)

/-- Whole numbers are the same only if they are equal. -/
theorem Value.eq_of_int_beq {i j : ℤ} (h : (Value.int i == Value.int j) = true) : i = j := by
  simpa [Value.beq_iff, Value.tokens, Number.exact] using h

/-- Erasing repetitions leaves none. -/
theorem nodup_eraseDups {α : Type} [DecidableEq α] (l : List α) : l.eraseDups.Nodup := by
  -- on the length: each element kept shortens the rest by its copies
  induction hlen : l.length using Nat.strong_induction_on generalizing l with
  | _ n ih =>
    cases l with
    | nil => exact List.nodup_nil
    | cons a l =>
      have hshort : (l.filter fun b => !b == a).length < n := by
        have := List.length_filter_le (fun b => !b == a) l
        simp only [List.length_cons] at hlen
        omega
      rw [List.eraseDups_cons]
      refine List.nodup_cons.2 ⟨?_, ih _ hshort _ rfl⟩
      simp

namespace Graph

variable {ν : Type}

/-! ### One edge -/

/-- **`freeKey`** is not taken: of one number more than there are edges beside, not all can be
taken. -/
theorem freeKey_free (beside : List (Edge ν)) :
    (beside.any fun e => e.key == freeKey beside) = false := by
  rw [freeKey]
  cases hfind : ((List.range (beside.length + 1)).map fun (i : Nat) =>
      Value.int ((beside.length + i : Nat) : Int)).find?
      fun k => !(beside.any fun e => e.key == k) with
  | some k => simpa using List.find?_some hfind
  | none =>
    exfalso
    -- every candidate is the key of an edge beside
    have htaken : ∀ i : Fin (beside.length + 1), ∃ j : Fin beside.length,
        (beside[j].key == Value.int ((beside.length + i : Nat) : Int)) = true := by
      intro i
      have := List.find?_eq_none.1 hfind (Value.int ((beside.length + i : Nat) : Int))
        (List.mem_map.2 ⟨i, List.mem_range.2 i.isLt, rfl⟩)
      obtain ⟨e, he, hkey⟩ : ∃ e ∈ beside,
          (e.key == Value.int ((beside.length + i : Nat) : Int)) = true := by simpa using this
      obtain ⟨j, hj, rfl⟩ := List.mem_iff_getElem.1 he
      exact ⟨⟨j, hj⟩, hkey⟩
    -- two candidates have the same edge, so they are one number
    choose place hplace using htaken
    obtain ⟨a, b, hne, heq⟩ :=
      Fintype.exists_ne_map_eq_of_card_lt place (by simp)
    have hkeys := BEq.trans (BEq.symm (hplace a)) (heq ▸ hplace b)
    have := Value.eq_of_int_beq hkeys
    omega

/-- The graph `g'` is `g` with the further edges `arcs`, all else unchanged. -/
structure Extends (g : Graph ν) (arcs : List (Arc ν)) (g' : Graph ν) : Prop where
  name : g'.name = g.name
  nodes : g'.nodes = g.nodes
  arcs : g'.edges.map Edge.arc = g.edges.map Edge.arc ++ arcs

theorem Extends.refl (g : Graph ν) : Extends g [] g := ⟨rfl, rfl, by simp⟩

theorem Extends.trans {g g' g'' : Graph ν} {arcs arcs' : List (Arc ν)} (h : Extends g arcs g')
    (h' : Extends g' arcs' g'') : Extends g (arcs ++ arcs') g'' :=
  ⟨h'.name.trans h.name, h'.nodes.trans h.nodes, by rw [h'.arcs, h.arcs, List.append_assoc]⟩

/-- **Adding edges step by step.** Where each step adds its arcs to any graph on the given nodes,
all steps together do. -/
theorem foldlM_extends {ε α : Type} (step : Graph ν → α → Except ε (Graph ν))
    (arcs : α → List (Arc ν)) (items : List α) {g : Graph ν}
    (h : ∀ a ∈ items, ∀ g', g'.nodes = g.nodes →
      ∃ g'', step g' a = .ok g'' ∧ Extends g' (arcs a) g'') :
    ∃ g', items.foldlM step g = .ok g' ∧ Extends g (items.flatMap arcs) g' := by
  -- on the items left, from the graph made so far; the nodes stay those of the start
  induction items generalizing g with
  | nil => exact ⟨g, rfl, .refl g⟩
  | cons a items ih =>
    obtain ⟨g₁, hstep, hext⟩ := h a List.mem_cons_self g rfl
    obtain ⟨g₂, hrest, hext'⟩ := ih (g := g₁) fun b hb g' hg' =>
      h b (List.mem_cons_of_mem _ hb) g' (hg'.trans hext.nodes)
    refine ⟨g₂, ?_, hext.trans hext'⟩
    rw [List.foldlM_cons, hstep, ok_bind, hrest]

variable [DecidableEq ν]

/-- **`addEdge`** between nodes of the graph appends the edge. -/
theorem addEdge_spec [Labelled ν] {g : Graph ν} {s t : ν} (hs : s ∈ g.nodes) (ht : t ∈ g.nodes)
    (attributes : Attributes) :
    ∃ g', g.addEdge s t attributes = .ok g' ∧ Extends g [(s, t, attributes)] g' := by
  let e : Edge ν := { source := s, target := t, key := freeKey (g.between s t), attributes }
  refine ⟨g.appendEdge e hs ht, ?_, rfl, rfl, List.map_append⟩
  -- the key is free, so no edge is replaced
  have hfree := freeKey_free (g.between s t)
  rw [addEdge, addKeyedEdge, dif_pos ⟨hs, ht⟩]
  simp only [ok_bind, hfree]
  rfl

/-- `addEdge` does not add an edge that leads out of the graph. -/
theorem addEdge_eq_error [Labelled ν] {g : Graph ν} {s t : ν} (h : ¬ (s ∈ g.nodes ∧ t ∈ g.nodes))
    (attributes : Attributes) :
    g.addEdge s t attributes =
      .error (.strayEdge (Labelled.shown s) (Labelled.shown t) g.name) := by
  rw [addEdge, addKeyedEdge, dif_neg h]
  rfl

/-! ### Neighbours -/

section Neighbours

variable {g g' : Graph ν} {arcs : List (Arc ν)}

/-- The successors of `s`, read off the arcs. -/
theorem mem_successors_iff_arc {s t : ν} :
    t ∈ g.successors s ↔ ∃ a, (s, t, a) ∈ g.edges.map Edge.arc := by
  rw [mem_successors]
  constructor
  · rintro ⟨e, he, rfl, rfl⟩
    exact ⟨e.attributes, List.mem_map.2 ⟨e, he, rfl⟩⟩
  · rintro ⟨a, ha⟩
    obtain ⟨e, he, heq⟩ := List.mem_map.1 ha
    cases heq
    exact ⟨e, he, rfl, rfl⟩

/-- Predecessors are successors the other way round. -/
theorem mem_predecessors_iff {s t : ν} : s ∈ g.predecessors t ↔ t ∈ g.successors s := by
  rw [mem_predecessors, mem_successors]
  exact exists_congr fun e => and_congr_right fun _ => and_comm

/-- Neighbours are nodes of the graph. -/
theorem mem_nodes_of_mem_successors {s t : ν} (h : t ∈ g.successors s) :
    s ∈ g.nodes ∧ t ∈ g.nodes := by
  obtain ⟨e, he, rfl, rfl⟩ := mem_successors.1 h
  exact g.ends e he

/-- The successors after edges were added. -/
theorem Extends.mem_successors (h : Extends g arcs g') {s t : ν} :
    t ∈ g'.successors s ↔ t ∈ g.successors s ∨ ∃ a, (s, t, a) ∈ arcs := by
  rw [mem_successors_iff_arc, mem_successors_iff_arc, h.arcs]
  simp only [List.mem_append, exists_or]

/-- Edges from other nodes do not matter to whether a node has a successor. -/
theorem Extends.successors_eq_nil_iff (h : Extends g arcs g') {s : ν}
    (hs : ∀ a ∈ arcs, a.1 ≠ s) : g'.successors s = [] ↔ g.successors s = [] := by
  simp only [List.eq_nil_iff_forall_not_mem, h.mem_successors, not_or, not_exists]
  exact ⟨fun hg t => (hg t).1, fun hg t => ⟨hg t, fun a ha => hs _ ha rfl⟩⟩

/-- Edges to other nodes do not matter to whether a node has a predecessor. -/
theorem Extends.predecessors_eq_nil_iff (h : Extends g arcs g') {t : ν}
    (ht : ∀ a ∈ arcs, a.2.1 ≠ t) : g'.predecessors t = [] ↔ g.predecessors t = [] := by
  simp only [List.eq_nil_iff_forall_not_mem, mem_predecessors_iff, h.mem_successors, not_or,
    not_exists]
  exact ⟨fun hg s => (hg s).1, fun hg s => ⟨hg s, fun a ha => ht _ ha rfl⟩⟩

theorem nodup_successors (g : Graph ν) (n : ν) : (g.successors n).Nodup := nodup_eraseDups _

end Neighbours

/-! ### Parallel edges -/

section Parallel

variable {g : Graph ν}

/-- No two edges have the same ends. -/
def Simple (g : Graph ν) : Prop := (g.edges.map fun e => (e.source, e.target)).Nodup

omit [DecidableEq ν] in
theorem simple_iff_arcs :
    g.Simple ↔ ((g.edges.map Edge.arc).map fun a => (a.1, a.2.1)).Nodup := by
  rw [List.map_map]
  rfl

omit [DecidableEq ν] in
/-- **Edges in groups.** The ends of an edge tell its group, and no group has parallel edges. -/
theorem simple_of_groups {α : Type} {items : List α} {arcs : α → List (Arc ν)} (group : ν × ν → α)
    (hedges : g.edges.map Edge.arc = items.flatMap arcs) (hitems : items.Nodup)
    (harcs : ∀ a, ((arcs a).map fun x => (x.1, x.2.1)).Nodup)
    (hgroup : ∀ a, ∀ x ∈ arcs a, group (x.1, x.2.1) = a) : g.Simple := by
  rw [simple_iff_arcs, hedges, List.map_flatMap, List.nodup_flatMap]
  -- ends that two groups have in common tell that they are one group
  refine ⟨fun a _ => harcs a, hitems.imp fun {a b} hab ends ha hb => hab ?_⟩
  obtain ⟨x, hx, rfl⟩ := List.mem_map.1 ha
  obtain ⟨y, hy, hends⟩ := List.mem_map.1 hb
  calc a = group (x.1, x.2.1) := (hgroup a x hx).symm
    _ = group (y.1, y.2.1) := congrArg group hends.symm
    _ = b := hgroup b y hy

theorem between_eq_nil_iff {s t : ν} : g.between s t = [] ↔ t ∉ g.successors s := by
  rw [between, List.filter_eq_nil_iff, mem_successors]
  simp [Edge.joins]

/-- **An edge of a simple graph** is the only one between its ends. -/
theorem Simple.between_eq (h : g.Simple) {e : Edge ν} (he : e ∈ g.edges) :
    g.between e.source e.target = [e] := by
  -- no edge before or after it has its ends
  obtain ⟨before, after, hsplit⟩ := List.append_of_mem he
  rw [Simple, hsplit, List.map_append, List.map_cons] at h
  have hother : ∀ x ∈ before ++ after, ¬ (x.source = e.source ∧ x.target = e.target) := by
    intro x hx hends
    have hmem : (e.source, e.target) ∈ (before ++ after).map fun e => (e.source, e.target) :=
      List.mem_map.2 ⟨x, hx, by rw [hends.1, hends.2]⟩
    rw [List.map_append] at hmem
    exact (List.nodup_middle.1 h).notMem hmem
  have hnone : ∀ part : List (Edge ν), (∀ x ∈ part, x ∈ before ++ after) →
      part.filter (Edge.joins e.source e.target) = [] := fun part hpart =>
    List.filter_eq_nil_iff.2 fun x hx => by simpa [Edge.joins] using hother x (hpart x hx)
  rw [between, hsplit, List.filter_append, List.filter_cons,
    hnone before fun x hx => List.mem_append_left _ hx,
    hnone after fun x hx => List.mem_append_right _ hx]
  simp [Edge.joins]

/-- Between two nodes of a simple graph there is at most one edge. -/
theorem Simple.length_between_le (h : g.Simple) (s t : ν) : (g.between s t).length ≤ 1 := by
  cases hb : g.between s t with
  | nil => exact Nat.zero_le 1
  | cons e rest =>
    obtain ⟨he, hjoin⟩ := List.mem_filter.1 (hb ▸ List.mem_cons_self : e ∈ g.between s t)
    obtain ⟨rfl, rfl⟩ : e.source = s ∧ e.target = t := by simpa [Edge.joins] using hjoin
    rw [h.between_eq he] at hb
    simp [← hb]

end Parallel

/-- `ofNodes` has the nodes in the order in which they are given, if none is repeated. -/
theorem nodes_ofNodes {nodes : List ν} (name : Value) (h : nodes.Nodup) :
    (ofNodes name nodes).nodes = nodes ∧ (ofNodes name nodes).edges = [] := by
  -- a node that is not there yet is appended, so the nodes added so far stand in their order
  have hfold : ∀ (g : Graph ν), (g.nodes ++ nodes).Nodup →
      (nodes.foldl addNode g).nodes = g.nodes ++ nodes ∧
        (nodes.foldl addNode g).edges = g.edges := by
    clear h
    induction nodes with
    | nil => exact fun g _ => ⟨(List.append_nil _).symm, rfl⟩
    | cons n nodes ih =>
      intro g hnodup
      have hnew : n ∉ g.nodes := fun hn =>
        (List.nodup_append.1 hnodup).2.2 n hn n List.mem_cons_self rfl
      have hadd : (g.addNode n).nodes = g.nodes ++ [n] := by simp only [addNode, dif_neg hnew]
      rw [List.append_cons, ← hadd] at hnodup
      obtain ⟨hnodes, hedges⟩ := ih _ hnodup
      rw [List.foldl_cons, hnodes, hedges, hadd, edges_addNode, List.append_assoc]
      exact ⟨rfl, rfl⟩
  exact hfold (empty name) h

theorem name_ofNodes (name : Value) (nodes : List ν) : (ofNodes name nodes).name = name := by
  have hfold : ∀ g : Graph ν, (nodes.foldl addNode g).name = g.name := by
    induction nodes with
    | nil => exact fun _ => rfl
    | cons n nodes ih =>
      intro g
      rw [List.foldl_cons, ih, addNode]
      split <;> rfl
  exact hfold (empty name)

end Graph

end Dependence
