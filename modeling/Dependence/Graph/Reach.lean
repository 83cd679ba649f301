import Dependence.Graph.Basic

/-!
# Going backward through a graph

`Graph.transitivePredecessors` collects the nodes from which a node can be reached by at least one
edge. The collection keeps a list of nodes to look at; each step shrinks `Graph.unvisitedWork`,
the number of edges into nodes not visited yet, by what it adds to that list
(`Graph.work_visit_le`). Other searches against the direction of the edges end for the same
reason.
-/

namespace Dependence.Graph

variable {ν : Type} [DecidableEq ν]

/-- Number of predecessors that the nodes outside `visited` can still add to a search in `g`. -/
def unvisitedWork (g : Graph ν) (visited : List ν) : List ν → Nat
  | [] => 0
  | n :: rest =>
    (if visited.contains n then 0 else (g.predecessors n).length) + unvisitedWork g visited rest

theorem unvisitedWork_mono (g : Graph ν) {visited visited' : List ν} (h : visited ⊆ visited')
    (ns : List ν) : unvisitedWork g visited' ns ≤ unvisitedWork g visited ns := by
  induction ns with
  | nil => exact Nat.le_refl _
  | cons m rest ih =>
    simp only [unvisitedWork, List.contains_iff_mem]
    refine Nat.add_le_add ?_ ih
    by_cases hm : m ∈ visited
    · exact Nat.le_of_eq (by rw [if_pos hm, if_pos (h hm)])
    · rw [if_neg hm]
      split
      · exact Nat.zero_le _
      · exact Nat.le_refl _

theorem unvisitedWork_cons_le (g : Graph ν) (visited : List ν) (n : ν) (ns : List ν) :
    unvisitedWork g (n :: visited) ns ≤ unvisitedWork g visited ns :=
  unvisitedWork_mono g (List.subset_cons_self n visited) ns

/-- A node that is not in the graph has no predecessors. -/
theorem predecessors_eq_nil (g : Graph ν) {n : ν} (h : n ∉ g.nodes) : g.predecessors n = [] := by
  have hnone : (g.edges.filter fun e => e.target == n) = [] := by
    rw [List.filter_eq_nil_iff]
    intro e he htarget
    exact h (eq_of_beq htarget ▸ (g.ends e he).2)
  simp [predecessors, hnone]

theorem unvisitedWork_add_le (g : Graph ν) {visited : List ν} {n : ν}
    (hn : visited.contains n = false) {ns : List ν} (hmem : n ∈ ns) :
    unvisitedWork g (n :: visited) ns + (g.predecessors n).length ≤ unvisitedWork g visited ns := by
  induction ns with
  | nil => cases hmem
  | cons m rest ih =>
    by_cases hm : m = n
    · subst hm
      have hle := unvisitedWork_cons_le g visited m rest
      simp only [unvisitedWork, List.contains_cons, beq_self_eq_true, Bool.true_or, if_true, hn,
        Bool.false_eq_true, if_false]
      omega
    · have hrest := ih ((List.mem_cons.1 hmem).resolve_left (Ne.symm hm))
      simp only [unvisitedWork, List.contains_cons, beq_eq_false_iff_ne.2 hm, Bool.false_or]
      omega

/-- **Visiting a node pays for its predecessors.** -/
theorem work_visit_le (g : Graph ν) {visited : List ν} {n : ν}
    (hn : visited.contains n = false) :
    unvisitedWork g (n :: visited) g.nodes + (g.predecessors n).length
      ≤ unvisitedWork g visited g.nodes := by
  by_cases h : n ∈ g.nodes
  · exact unvisitedWork_add_le g hn h
  · rw [predecessors_eq_nil g h]
    exact unvisitedWork_cons_le g visited n g.nodes

/-- Visit the nodes to look at, and all that lead to them, except those of `visited`; the node
visited last is in front. -/
def collect (g : Graph ν) (visited : List ν) : List ν → List ν
  | [] => visited
  | n :: pending =>
    if visited.contains n then collect g visited pending
    else collect g (n :: visited) (g.predecessors n ++ pending)
termination_by pending => unvisitedWork g visited g.nodes + pending.length
decreasing_by
  · simp only [List.length_cons]; omega
  · rename_i h
    have hle := work_visit_le g (eq_false_of_ne_true h)
    simp only [List.length_append, List.length_cons]
    omega

/-- **The nodes from which `seed` can be reached** by at least one edge. -/
def transitivePredecessors [Labelled ν] (g : Graph ν) (seed : Option ν) : Except Fault (List ν) :=
  return g.collect [] (← g.predecessorsOf seed)

end Dependence.Graph
