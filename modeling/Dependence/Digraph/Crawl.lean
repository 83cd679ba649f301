import Dependence.Digraph.Basic

/-!
# Reverse post-order

`Digraph.crawl g head` visits a graph depth-first from `head` and lists its nodes in reverse order
of leaving them. What `head` does not reach is visited afterwards, from the first key not seen so
far, as if `head` led there: these keys are the extra roots. So every key and every successor has
a place in the order, and `head` comes first.

The visit keeps a stack of nodes, each with the successors that it has still to try
(`Digraph.descend`). It ends because each step shrinks `Digraph.work`: entering a node pays for its
row with the row's share of the unseen keys.
-/

namespace Dependence

namespace Digraph

variable {ν : Type} [BEq ν]

/-- A stack of nodes under way, innermost first, each with the successors still to try. -/
abbrev Stack (ν : Type) := List (ν × List ν)

/-- Steps that the rows of keys outside `seen` can cost at most. -/
def unseenWork (seen : List ν) : List (ν × List ν) → Nat
  | [] => 0
  | row :: rest =>
    (if seen.contains row.1 then 0 else 2 * row.2.length + 1) + unseenWork seen rest

/-- Steps that the stack can cost at most. -/
def stackWork : Stack ν → Nat
  | [] => 0
  | top :: rest => 2 * top.2.length + 1 + stackWork rest

theorem contains_of_subset {seen seen' : List ν} (h : seen ⊆ seen') {n : ν}
    (hn : seen.contains n = true) : seen'.contains n = true := by
  obtain ⟨m, hm, hnm⟩ := List.contains_iff_exists_mem_beq.1 hn
  exact List.contains_iff_exists_mem_beq.2 ⟨m, h hm, hnm⟩

theorem unseenWork_mono {seen seen' : List ν} (h : seen ⊆ seen') (rows : List (ν × List ν)) :
    unseenWork seen' rows ≤ unseenWork seen rows := by
  induction rows with
  | nil => exact Nat.le_refl _
  | cons row rest ih =>
    simp only [unseenWork]
    refine Nat.add_le_add ?_ ih
    by_cases hrow : seen.contains row.1 = true
    · exact Nat.le_of_eq (by rw [if_pos hrow, if_pos (contains_of_subset h hrow)])
    · rw [if_neg hrow]
      split
      · exact Nat.zero_le _
      · exact Nat.le_refl _

theorem unseenWork_cons_le (seen : List ν) (c : ν) (rows : List (ν × List ν)) :
    unseenWork (c :: seen) rows ≤ unseenWork seen rows :=
  unseenWork_mono (List.subset_cons_self c seen) rows

theorem contains_congr [EquivBEq ν] {a b : ν} (h : a == b) (seen : List ν) :
    seen.contains a = seen.contains b := by
  induction seen with
  | nil => rfl
  | cons x rest ih => simp only [List.contains_cons, ih, BEq.congr_left h]

/-- Entering an unseen node frees at least the work of its row. -/
theorem unseenWork_cons_add_le [EquivBEq ν] {seen : List ν} {c : ν}
    (hc : seen.contains c = false) (rows : List (ν × List ν)) :
    unseenWork (c :: seen) rows
      + 2 * (((rows.find? fun e => e.1 == c).map (·.2)).getD []).length ≤ unseenWork seen rows := by
  induction rows with
  | nil => simp [unseenWork]
  | cons row rest ih =>
    by_cases h : row.1 == c
    · have hseen : seen.contains row.1 = false := by rw [contains_congr h, hc]
      have hle := unseenWork_cons_le seen c rest
      simp only [unseenWork, List.contains_cons, h, hseen, List.find?_cons_of_pos, Option.map_some,
        Option.getD_some, Bool.true_or, if_true]
      simp only [Bool.false_eq_true, if_false]
      omega
    · simp only [unseenWork, List.contains_cons, List.find?_cons, eq_false_of_ne_true h,
        Bool.false_or]
      omega

/-- Work off a stack: try the next successor of the innermost node, entering it if it is unseen, and
leave the node when none is left. Gives back the nodes seen and the nodes left, latest first. -/
def descend [EquivBEq ν] (g : Digraph ν) (seen order : List ν) : Stack ν → List ν × List ν
  | [] => (seen, order)
  | (n, []) :: stack => descend g seen (n :: order) stack
  | (n, c :: rest) :: stack =>
    if seen.contains c then descend g seen order ((n, rest) :: stack)
    else descend g (c :: seen) order ((c, g.successors c) :: (n, rest) :: stack)
termination_by stack => unseenWork seen g.entries + stackWork stack
decreasing_by
  · simp only [stackWork, List.length_nil]; omega
  · simp only [stackWork, List.length_cons]; omega
  · rename_i h
    have hc := unseenWork_cons_add_le (eq_false_of_ne_true h) g.entries
    simp only [stackWork, List.length_cons, successors, OrderedMap.find?]
    omega

/-- Visit everything that is unseen and reachable from `n` (`descend`). -/
def enter [EquivBEq ν] (g : Digraph ν) (visit : List ν × List ν) (n : ν) : List ν × List ν :=
  if visit.1.contains n then visit
  else descend g (n :: visit.1) visit.2 [(n, g.successors n)]

/-- The result of a crawl. -/
structure Crawl (ν : Type) where
  /-- Every node once, in reverse order of leaving, the head first. -/
  order : List ν
  /-- The keys from which the visit was started again. -/
  extraRoots : List ν

/-- Visit `key` as an extra root if it is still unseen. -/
def enterRoot [EquivBEq ν] (g : Digraph ν) (state : List ν × (List ν × List ν)) (key : ν) :
    List ν × (List ν × List ν) :=
  if state.2.1.contains key then state
  else (state.1 ++ [key], enter g state.2 key)

/-- **Reverse post-order from `head`.** The successors of `head` are visited first, then what is
left, key by key (`enterRoot`). -/
def crawl [EquivBEq ν] (g : Digraph ν) (head : ν) : Crawl ν :=
  let reached := (g.successors head).foldl (enter g) ([head], [])
  let (extraRoots, visit) := g.keys.foldl (enterRoot g) ([], reached)
  { order := head :: visit.2, extraRoots }

end Digraph

end Dependence
