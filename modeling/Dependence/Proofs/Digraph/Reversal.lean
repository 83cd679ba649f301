import Dependence.Proofs.Digraph.Crawl
import Dependence.Value.Basic

/-!
# Transposition entry by entry

A transposed graph is filled by one change for each edge of the graph, so its keys come in the order
in which nodes are met: first the keys of the graph, then the successors that are no keys
(`keys_transpose`). The row of a node holds the keys that lead to it, in their order
(`successors_transpose_eq`). Keys and rows are all there is to a graph (`eq_of_keys_of_successors`).

Turning the edges round twice need not give the graph back: successors become keys, repetitions are
lost, and rows are listed in the order of the keys. A graph that was transposed has nothing of this
left to lose, and turning its edges round twice gives it back. Every successor in it is a key, so a
further transposition keeps the keys (`keys_transpose_transpose`). The nodes that have become keys
lead nowhere in the graph, so no row lists them, and the order of the rows stays as it was
(`successors_transpose_thrice`).

* `transpose_ordered` — keys, rows, and the graph transposed three times.
-/

namespace Dependence.Digraph

variable {ν : Type} [BEq ν]

/-- The successors that are no keys, each once, in order of their first occurrence. -/
def keyless (g : Digraph ν) : List ν :=
  ((g.entries.flatMap (·.2)).filter fun n => !g.contains n).eraseDups

/-- The keys that lead to `n`, in their order. -/
def predecessors (g : Digraph ν) (n : ν) : List ν :=
  g.keys.filter fun m => (g.successors m).contains n

/-- The edges, row after row. -/
def edges (g : Digraph ν) : List (ν × ν) := g.entries.flatMap fun row => row.2.map (row.1, ·)

/-- `transpose` makes one change for each of `edges`. -/
theorem transpose_eq_foldl_edges (g : Digraph ν) :
    g.transpose = g.edges.foldl (fun out e => out.upsert e.2 (notePredecessor e.1))
      (g.mapValues fun _ => []) := by
  simp only [transpose, edges, List.foldl_flatMap, List.foldl_map]

theorem distinct_keys (g : Digraph ν) : Distinct g.keys := List.pairwise_map.2 g.distinct

variable [EquivBEq ν]

/-! ### Keys and rows -/

/-- The entries are the keys with their successors. -/
theorem entries_eq_map (g : Digraph ν) : g.entries = g.keys.map fun n => (n, g.successors n) := by
  rw [OrderedMap.keys, List.map_map]
  refine (List.map_id'' (fun e => rfl) _).symm.trans (List.map_congr_left fun e he => ?_)
  rw [Function.comp_apply, successors_of_mem he BEq.rfl]

/-- **A graph is given by its keys and their successors.** -/
theorem eq_of_keys_of_successors {g h : Digraph ν} (hkeys : g.keys = h.keys)
    (hrows : ∀ n, g.successors n = h.successors n) : g = h := by
  refine OrderedMap.ext ?_
  rw [entries_eq_map, entries_eq_map h, hkeys]
  exact List.map_congr_left fun n _ => by rw [hrows n]

/-! ### The order of a transposed graph -/

/-- **The keys of `transpose`** in their order. -/
theorem keys_transpose (g : Digraph ν) : g.transpose.keys = g.keys ++ g.keyless := by
  have hheads : g.edges.map (·.2) = g.entries.flatMap (·.2) := by
    simp only [edges, List.map_flatMap, List.map_map, Function.comp_def, List.map_id']
  rw [transpose_eq_foldl_edges, OrderedMap.keys_foldl_upsert, OrderedMap.keys_mapValues, hheads]
  simp only [OrderedMap.contains_mapValues, keyless]

/-- **The row of a node** in `transpose`. -/
theorem successors_transpose_eq (g : Digraph ν) (n : ν) :
    g.transpose.successors n = g.predecessors n := by
  rw [successors_transpose, leadingTo, predecessors, OrderedMap.keys, List.filter_map]
  refine congrArg _ (List.filter_congr fun e he => ?_)
  rw [Function.comp_apply, successors_of_mem he BEq.rfl]

/-- Who stands in the row of whom is turned round. -/
theorem contains_successors_transpose (g : Digraph ν) (m n : ν) :
    (g.transpose.successors n).contains m = (g.successors m).contains n :=
  Bool.eq_iff_iff.2 leads_transpose

/-- A successor that is no key leads nowhere. -/
theorem successors_of_mem_keyless {g : Digraph ν} {n : ν} (hn : n ∈ g.keyless) :
    g.successors n = [] := by
  refine successors_of_not_contains (eq_false_of_ne_true fun hcontains => ?_)
  -- it stands behind the keys of the graph in a list of distinct keys
  have hdistinct := distinct_keys g.transpose
  rw [keys_transpose] at hdistinct
  obtain ⟨e, he, hen⟩ := OrderedMap.contains_iff.1 hcontains
  have hne := (List.pairwise_append.1 hdistinct).2.2 e.1 (List.mem_map_of_mem he) n hn
  rw [hen] at hne
  cases hne

/-! ### Transposition again -/

/-- Where every successor is a key, transposition keeps the keys. -/
theorem keys_transpose_of_closed {g : Digraph ν}
    (h : ∀ e ∈ g.entries, ∀ n ∈ e.2, g.contains n = true) : g.transpose.keys = g.keys := by
  have hnone : ((g.entries.flatMap (·.2)).filter fun n => !g.contains n) = [] := by
    refine List.filter_eq_nil_iff.2 fun n hn => ?_
    obtain ⟨e, he, hen⟩ := List.mem_flatMap.1 hn
    simp [h e he n hen]
  rw [keys_transpose, keyless, hnone, List.eraseDups_nil, List.append_nil]

/-- **Transposing again keeps the keys.** -/
theorem keys_transpose_transpose (g : Digraph ν) :
    g.transpose.transpose.keys = g.transpose.keys := by
  refine keys_transpose_of_closed fun e he n hn => ?_
  -- a row lists keys of the graph, and these are kept
  rw [← successors_of_mem he BEq.rfl, successors_transpose_eq] at hn
  have hkey : n ∈ g.transpose.keys := by
    rw [keys_transpose]
    exact List.mem_append_left _ (List.mem_of_mem_filter hn)
  obtain ⟨e', he', rfl⟩ := List.mem_map.1 hkey
  exact OrderedMap.contains_iff.2 ⟨e', he', BEq.rfl⟩

/-- The rows of the graph transposed three times are those of the graph transposed once. -/
theorem successors_transpose_thrice (g : Digraph ν) (n : ν) :
    g.transpose.transpose.transpose.successors n = g.transpose.successors n := by
  -- the further keys lead nowhere, so no row lists them
  have hkeyless : (g.keyless.filter fun m => (g.successors m).contains n) = [] := by
    refine List.filter_eq_nil_iff.2 fun m hm => ?_
    simp [successors_of_mem_keyless hm]
  calc g.transpose.transpose.transpose.successors n
    _ = g.transpose.transpose.keys.filter fun m =>
          (g.transpose.transpose.successors m).contains n := successors_transpose_eq _ n
    _ = (g.keys ++ g.keyless).filter fun m => (g.successors m).contains n := by
        rw [keys_transpose_transpose, keys_transpose]
        simp only [contains_successors_transpose]
    _ = g.predecessors n := by rw [List.filter_append, hkeyless, List.append_nil, predecessors]
    _ = g.transpose.successors n := (successors_transpose_eq g n).symm

/-- **Transposition is exact and ordered.** The keys of a transposed graph are the keys of the
graph, followed by the successors that are no keys. The row of a node lists the keys that lead to
it, each once, in their order. Transposing three times is transposing once. -/
theorem transpose_ordered (g : Digraph ν) :
    g.transpose.keys = g.keys ++ g.keyless ∧
      (∀ e ∈ g.transpose.entries, e.2 = g.predecessors e.1 ∧ Distinct e.2 ∧
        ∀ m, e.2.contains m = true ↔ g.Leads m e.1) ∧
      g.transpose.transpose.transpose = g.transpose := by
  refine ⟨keys_transpose g, fun e he => ?_, ?_⟩
  · rw [← successors_of_mem he BEq.rfl, successors_transpose_eq]
    refine ⟨rfl, (distinct_keys g).filter _, fun m => ?_⟩
    rw [← successors_transpose_eq]
    exact leads_transpose
  · have hkeys : g.transpose.transpose.transpose.keys = g.transpose.keys := by
      rw [keys_transpose_transpose, keys_transpose_transpose]
    exact eq_of_keys_of_successors hkeys (successors_transpose_thrice g)

/-- A graph with successors that are no keys and with rows that repeat a node, once under another
spelling. -/
def outlying : Digraph Value :=
  .ofList [(.int 2, [.int 7, .int 1, .int 5, .int 7]), (.bool true, [.int 5, .int 2, .int 1]),
    (.int 3, [.int 6, .bool true, .int 1])]

/-- The row of the node that is spelled in two ways lists it under the spelling of its key.
Transposing twice does not give the graph back, and a third time gives what the first time gave. -/
theorem transpose_ordered_outlying :
    outlying.transpose.keys = [.int 2, .bool true, .int 3, .int 7, .int 5, .int 6] ∧
      (.bool true, [.int 2, .bool true, .int 3]) ∈ outlying.transpose.entries ∧
      outlying.transpose.transpose ≠ outlying ∧
      outlying.transpose.transpose.transpose = outlying.transpose := by
  obtain ⟨hkeys, hrows, hthrice⟩ := transpose_ordered outlying
  have hlisted : outlying.keys ++ outlying.keyless =
      [.int 2, .bool true, .int 3, .int 7, .int 5, .int 6] := rfl
  rw [hlisted] at hkeys
  refine ⟨hkeys, ?_, ?_, hthrice⟩
  · have hkey : Value.bool true ∈ outlying.transpose.keys := by simp [hkeys]
    obtain ⟨⟨n, row⟩, he, rfl⟩ := List.mem_map.1 hkey
    have hrow : outlying.predecessors (.bool true) = [.int 2, .bool true, .int 3] := rfl
    rwa [← hrow, ← (hrows _ he).1]
  · -- the graph has three keys, and transposed it has six
    intro hback
    have hsix := keys_transpose_transpose outlying
    have hthree : outlying.keys.length = 3 := rfl
    rw [hback, hkeys] at hsix
    rw [hsix] at hthree
    cases hthree

end Dependence.Digraph
