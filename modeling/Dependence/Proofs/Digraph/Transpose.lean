import Dependence.Digraph.Crawl
import Dependence.Proofs.OrderedMap
import Mathlib.Data.List.Basic

/-!
# Transposition turns every edge round

The rows of a transposed graph are filled while the rows of the graph are read. Reading the
successors of one node notes it in the row of each of them once, however often a successor is
repeated (`Digraph.find?_readRow`). Reading row after row, each row collects the nodes that lead
to its key, in the order in which they are read (`Digraph.successors_transpose`).

* `Digraph.Leads` — the edges of a successor map;
* `Digraph.leads_transpose` — the edges of a transposed graph;
* `Digraph.contains_transpose` — its keys.
-/

namespace Dependence.Digraph

variable {ν : Type} [BEq ν]

/-- There is an edge from `a` to `b`. -/
def Leads (g : Digraph ν) (a b : ν) : Prop := (g.successors a).contains b = true

/-- The keys of `rows` that lead to `n`, in their order. -/
def leadingTo (rows : List (ν × List ν)) (n : ν) : List ν :=
  (rows.filter fun row => row.2.contains n).map (·.1)

/-- Read `row`: note its key in the row of each of its successors. -/
def readRow (out : Digraph ν) (row : ν × List ν) : Digraph ν :=
  row.2.foldl (fun out c => out.upsert c (notePredecessor row.1)) out

theorem transpose_eq (g : Digraph ν) :
    g.transpose = g.entries.foldl readRow (g.mapValues fun _ => []) := rfl

/-- A node that is no key leads nowhere. -/
theorem successors_of_not_contains {g : Digraph ν} {n : ν} (hn : g.contains n = false) :
    g.successors n = [] := by
  rw [OrderedMap.contains_eq_isSome_find?, Option.isSome_eq_false_iff, Option.isNone_iff_eq_none]
    at hn
  rw [successors, hn, Option.getD_none]

variable [EquivBEq ν]

/-- The successors of a key are those of its row. -/
theorem successors_of_mem {g : Digraph ν} {row : ν × List ν} (hrow : row ∈ g.entries) {n : ν}
    (hn : (row.1 == n) = true) : g.successors n = row.2 := by
  rw [successors, OrderedMap.find?_eq_some_iff.2 ⟨row, hrow, hn, rfl⟩, Option.getD_some]

/-- An edge is one of the row of its source. -/
theorem leads_iff {g : Digraph ν} {a b : ν} :
    g.Leads a b ↔ ∃ row ∈ g.entries, (row.1 == a) = true ∧ row.2.contains b = true := by
  constructor
  · intro hlead
    cases ha : g.contains a with
    | false =>
      rw [Leads, successors_of_not_contains ha] at hlead
      cases hlead
    | true =>
      obtain ⟨row, hrow, hra⟩ := OrderedMap.contains_iff.1 ha
      rw [Leads, successors_of_mem hrow hra] at hlead
      exact ⟨row, hrow, hra, hlead⟩
  · rintro ⟨row, hrow, hra, hb⟩
    rwa [Leads, successors_of_mem hrow hra]

/-- Equal nodes have the same edges. -/
theorem leads_congr {g : Digraph ν} {a a' b b' : ν} (ha : (a == a') = true)
    (hb : (b == b') = true) : g.Leads a b ↔ g.Leads a' b' := by
  rw [Leads, Leads, successors, successors, g.find?_congr ha, contains_congr hb]

/-- `notePredecessor` a second time changes nothing. -/
theorem notePredecessor_idem (m : ν) (row : Option (List ν)) :
    notePredecessor m (some (notePredecessor m row)) = notePredecessor m row := by
  have hmem : (notePredecessor m row).contains m = true := by
    cases row with
    | none => simp [notePredecessor]
    | some row =>
      by_cases h : row.contains m = true
      · rwa [notePredecessor, if_pos h]
      · rw [notePredecessor, if_neg h]
        simp
  exact if_pos hmem

/-- **`readRow`** notes the key once in the row of each of its successors. -/
theorem find?_readRow (m : ν) (next : List ν) (out : Digraph ν) (n : ν) :
    (readRow out (m, next)).find? n =
      if next.contains n then some (notePredecessor m (out.find? n)) else out.find? n := by
  -- on the successors still to be read; one that is repeated changes nothing by then
  induction next generalizing out with
  | nil => rfl
  | cons c next ih =>
    show (readRow (out.upsert c (notePredecessor m)) (m, next)).find? n = _
    rw [ih, OrderedMap.find?_upsert, List.contains_cons]
    by_cases hc : c == n
    · have hn : (n == c) = true := BEq.symm hc
      rw [if_pos hc, hn, Bool.true_or, if_pos rfl, out.find?_congr hc]
      split
      · rw [notePredecessor_idem]
      · rfl
    · have hn : (n == c) = false := by rw [BEq.comm, eq_false_of_ne_true hc]
      rw [if_neg hc, hn, Bool.false_or]

/-- `readRow`, where the key is new to the row of `n`. -/
theorem successors_readRow (next : List ν) {m : ν} {out : Digraph ν} {n : ν}
    (hfresh : (out.successors n).contains m = false) :
    (readRow out (m, next)).successors n = out.successors n ++ leadingTo [(m, next)] n := by
  rw [successors, find?_readRow, leadingTo]
  by_cases hn : next.contains n = true
  · -- `m` is not in the row yet, so it is put last
    have hnote : notePredecessor m (out.find? n) = out.successors n ++ [m] := by
      unfold successors at hfresh ⊢
      cases hf : out.find? n with
      | none => rfl
      | some row =>
        rw [hf, Option.getD_some] at hfresh
        rw [notePredecessor, if_neg (by rw [hfresh]; exact Bool.false_ne_true), Option.getD_some]
    rw [if_pos hn, Option.getD_some, hnote]
    simp [hn]
  · rw [if_neg hn]
    simp [eq_false_of_ne_true hn, successors]

/-- **`readRow` for rows with distinct keys**: what was in the row of `n`, then the keys that lead
to it. -/
theorem successors_foldl_rows {rows : List (ν × List ν)} {out : Digraph ν} {n : ν}
    (hdistinct : rows.Pairwise fun a b => (a.1 == b.1) = false)
    (hfresh : ∀ row ∈ rows, (out.successors n).contains row.1 = false) :
    successors (rows.foldl readRow out) n = out.successors n ++ leadingTo rows n := by
  induction rows generalizing out with
  | nil => exact (List.append_nil _).symm
  | cons row rows ih =>
    obtain ⟨hhead, htail⟩ := List.pairwise_cons.1 hdistinct
    obtain ⟨hrow, hrows⟩ := List.forall_mem_cons.1 hfresh
    have hone := successors_readRow row.2 hrow
    have hsplit : leadingTo (row :: rows) n = leadingTo [row] n ++ leadingTo rows n := by
      rw [leadingTo, leadingTo, leadingTo, ← List.map_append, ← List.filter_append]
      rfl
    rw [List.foldl_cons, ih htail, hone, hsplit, List.append_assoc]
    intro r hr
    -- the keys are distinct, so the key just noted is not that of a later row
    have hne : (r.1 == row.1) = false := by rw [BEq.comm, hhead r hr]
    rw [hone, List.contains_append, hrows r hr, Bool.false_or, leadingTo]
    by_cases hn : row.2.contains n = true
    · simp [hn, hne]
    · simp [eq_false_of_ne_true hn]

/-- **A row of `transpose`**: the keys that lead to its node, in their order. -/
theorem successors_transpose (g : Digraph ν) (n : ν) :
    g.transpose.successors n = leadingTo g.entries n := by
  -- the rows are empty when reading starts, so every key is new
  have hempty : successors (g.mapValues fun _ => ([] : List ν)) n = [] := by
    rw [successors, OrderedMap.find?_mapValues]
    cases g.find? n <;> rfl
  rw [transpose_eq, successors_foldl_rows g.distinct fun row _ => by rw [hempty]; rfl, hempty,
    List.nil_append]

/-- **`transpose` turns every edge round.** -/
theorem leads_transpose {g : Digraph ν} {a b : ν} : g.transpose.Leads b a ↔ g.Leads a b := by
  rw [leads_iff (g := g), Leads, successors_transpose, List.contains_iff_exists_mem_beq]
  constructor
  · rintro ⟨x, hx, hax⟩
    obtain ⟨row, hrow, rfl⟩ := List.mem_map.1 hx
    exact ⟨row, List.mem_of_mem_filter hrow, BEq.symm hax, (List.mem_filter.1 hrow).2⟩
  · rintro ⟨row, hrow, ha, hb⟩
    exact ⟨row.1, List.mem_map_of_mem (List.mem_filter.2 ⟨hrow, hb⟩), BEq.symm ha⟩

/-! ### Keys -/

/-- `readRow` adds the successors to the keys. -/
theorem contains_readRow (m : ν) (next : List ν) (out : Digraph ν) (n : ν) :
    (readRow out (m, next)).contains n = (out.contains n || next.contains n) := by
  rw [OrderedMap.contains_eq_isSome_find?, OrderedMap.contains_eq_isSome_find?, find?_readRow]
  split
  · rename_i hn
    rw [hn, Bool.or_true, Option.isSome_some]
  · rename_i hn
    rw [eq_false_of_ne_true hn, Bool.or_false]

/-- **The keys of `transpose`**: the keys, and the nodes that have an edge to them. -/
theorem contains_transpose {g : Digraph ν} {n : ν} :
    g.transpose.contains n = true ↔ g.contains n = true ∨ ∃ a, g.Leads a n := by
  -- row after row, from any graph on
  have hrows : ∀ (rows : List (ν × List ν)) (out : Digraph ν),
      OrderedMap.contains (rows.foldl readRow out) n =
        (out.contains n || rows.any fun row => row.2.contains n) := by
    intro rows
    induction rows with
    | nil => exact fun out => (Bool.or_false _).symm
    | cons row rows ih =>
      intro out
      rw [List.foldl_cons, ih, contains_readRow, List.any_cons, Bool.or_assoc]
  rw [transpose_eq, hrows, OrderedMap.contains_mapValues, Bool.or_eq_true, List.any_eq_true]
  refine or_congr_right ⟨?_, ?_⟩
  · rintro ⟨row, hrow, hn⟩
    exact ⟨row.1, leads_iff.2 ⟨row, hrow, BEq.rfl, hn⟩⟩
  · rintro ⟨a, ha⟩
    obtain ⟨row, hrow, -, hn⟩ := leads_iff.1 ha
    exact ⟨row, hrow, hn⟩

end Dependence.Digraph
