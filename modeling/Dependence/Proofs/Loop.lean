import Dependence.Proofs.Flow.Shape
import Dependence.Proofs.Order

/-!
# Loops and the nodes that control themselves

The head of a loop decides whether it comes up again: on one of its ways it is sure to, and on
another it is not. So a node controls itself if it post-dominates one of its successors, except that
a step from the node to itself does not count: a node post-dominates itself, and a successor that
post-dominates the controller is passed over.

There is always another way. A node that reaches the exit has a step after which it does not come up
again (`exists_step_not_postDominates`), so a node that post-dominates a successor has a second one
(`controlDependent_self_iff`), and a node with one successor beside itself does not control itself,
however often it is repeated (`not_controlDependent_self`).

* `FlowGraph.controls_itself_iff` — which nodes control themselves;
* `FlowGraph.pulse_not_controls_itself` — an instruction that branches to itself and does not.
-/

namespace Dependence

open Relation

section Paths

variable {α : Type} {flows : α → α → Prop} {exit x : α}

/-- **The last step out of `x`.** A node `x` that reaches the exit has a step after which the exit
can be reached without coming back. -/
theorem exists_step_not_postDominates (hne : x ≠ exit) (h : ReflTransGen flows x exit) :
    ∃ s, flows x s ∧ ¬ PostDominates flows exit x s := by
  -- back from the exit: as long as the node was not met it is missed, and where it is met first,
  -- the step out of it is the one
  have hway : ∀ a, ReflTransGen flows a exit →
      ¬ PostDominates flows exit x a ∨ ∃ s, flows x s ∧ ¬ PostDominates flows exit x s := by
    intro a ha
    induction ha using ReflTransGen.head_induction_on with
    | refl =>
      left
      rw [not_postDominates_iff]
      exact ⟨[exit], .here exit, fun hx => hne (List.mem_singleton.1 hx)⟩
    | @head a b hab _ ih =>
      rcases ih with hmissed | hlast
      · by_cases hax : a = x
        · exact .inr ⟨b, hax ▸ hab, hmissed⟩
        · left
          rw [not_postDominates_iff] at hmissed ⊢
          obtain ⟨p, hp, hx⟩ := hmissed
          refine ⟨a :: p, .step hab hp, fun hmem => ?_⟩
          exact (List.mem_cons.1 hmem).elim (fun heq => hax heq.symm) hx
      · exact .inr hlast
  exact (hway x h).resolve_left (not_not_intro fun p hp => hp.head_mem)

/-- **The node `x` is control dependent on itself** if it is sure to come up again after a step to
some other node `s`. That it has several ways to go on then follows. -/
theorem controlDependent_self_iff (hne : x ≠ exit) (h : ReflTransGen flows x exit) :
    ControlDependent flows flows exit x x ↔
      ∃ s, flows x s ∧ s ≠ x ∧ PostDominates flows exit x s := by
  unfold ControlDependent
  refine ⟨fun hdep => ?_, fun hloop => ?_⟩
  · obtain ⟨-, s, hs, hsx, hpost, -⟩ := hdep
    exact ⟨s, hs, hsx, hpost⟩
  · obtain ⟨s, hs, hsx, hpost⟩ := hloop
    -- the step by which the node is left for good is another one
    obtain ⟨t, ht, hmissed⟩ := exists_step_not_postDominates hne h
    have hst : s ≠ t := fun heq => hmissed (heq ▸ hpost)
    exact ⟨⟨s, t, hs, ht, hst⟩, s, hs, hsx, hpost, fun hstrict => hstrict.2 rfl⟩

/-- A node `x` with at most one successor `t` beside itself is not control dependent on itself: by
`t` it is left for good. -/
theorem not_controlDependent_self (hne : x ≠ exit) (h : ReflTransGen flows x exit) {t : α}
    (hsuccessors : ∀ s, flows x s → s = x ∨ s = t) : ¬ ControlDependent flows flows exit x x := by
  rw [controlDependent_self_iff hne h]
  intro ⟨s, hs, hsx, hpost⟩
  -- the step by which the node is left for good leads to the same successor
  obtain ⟨s', hs', hmissed⟩ := exists_step_not_postDominates hne h
  have hs'x : s' ≠ x := fun heq => hmissed (heq ▸ fun p hp => hp.head_mem)
  have hst : s = t := (hsuccessors s hs).resolve_left hsx
  have hs't : s' = t := (hsuccessors s' hs').resolve_left hs'x
  rw [hst, ← hs't] at hpost
  exact hmissed hpost

/-- What all steps of `s` lead to is sure to come after `s`. -/
theorem postDominates_of_steps {s : α} (hne : s ≠ exit) (hsteps : ∀ b, flows s b → b = x) :
    PostDominates flows exit x s := by
  intro p hp
  cases hp with
  | here => exact absurd rfl hne
  | step first rest => exact List.mem_cons_of_mem s (hsteps _ first ▸ rest.head_mem)

end Paths

namespace FlowGraph

variable {f : FlowGraph}

/-- A node that leads somewhere is not Exit. -/
theorem Bounded.ne_exit_of_flows (h : Bounded f) {x s : Node} (hs : f.Flows x s) : x ≠ f.exit := by
  rintro rfl
  rw [Flows, h.exit_last] at hs
  cases hs

/-- **Which nodes control themselves**, in a flow graph that was built and where every node reaches
Exit: those that post-dominate one of their successors other than themselves. Hence no node does
that has at most one successor beside itself, such as an instruction that is repeated on its own
until it is left. -/
theorem controls_itself_iff {m : Method} {table : ℕ} {given : Value}
    (hbuild : (build m table given).result = .ok f)
    (hreach : ∀ n ∈ f.nodes, ReflTransGen f.Flows n f.exit) :
    ∃ g, f.controlDependence.result = .ok g ∧
      (∀ x, x ∈ g.successors x ↔
        ∃ s, f.Flows x s ∧ s ≠ x ∧ PostDominates f.Flows f.exit x s) ∧
      ∀ x t, (∀ s, f.Flows x s → s = x ∨ s = t) → x ∉ g.successors x := by
  have hbounded := bounded_of_build hbuild
  have hcompleted : f.Completed = f.Flows :=
    completed_of_extraRoots_eq_nil (extraRoots_eq_nil hreach)
  obtain ⟨g, hg, -, -, hedges⟩ := controlDependence_spec hbounded
  rw [hcompleted] at hedges
  -- a node with a successor is not Exit, and reaches it
  have hleaves : ∀ x s, f.Flows x s → x ≠ f.exit ∧ ReflTransGen f.Flows x f.exit := fun x s hs =>
    ⟨hbounded.ne_exit_of_flows hs, hreach x (Graph.mem_nodes_of_mem_successors hs).1⟩
  refine ⟨g, hg, fun x => ?_, fun x t hsuccessors => ?_⟩
  · rw [hedges]
    refine ⟨fun hdep => ?_, fun hloop => ?_⟩
    · obtain ⟨-, s, hs, -⟩ := id hdep
      exact (controlDependent_self_iff (hleaves x s hs).1 (hleaves x s hs).2).1 hdep
    · obtain ⟨s, hs, -⟩ := id hloop
      exact (controlDependent_self_iff (hleaves x s hs).1 (hleaves x s hs).2).2 hloop
  · rw [hedges]
    intro hdep
    obtain ⟨-, s, hs, -⟩ := id hdep
    exact not_controlDependent_self (hleaves x s hs).1 (hleaves x s hs).2 hsuccessors hdep

/-! ### Two loops -/

namespace Outline

variable {stream : List (Option Instruction)} {transitions : List (ℕ × ℕ)}
  (h : Outline stream transitions f)

include h

/-- The edges that `edgeCount` has between program points are steps between nodes. -/
theorem exists_flows {n : Node} (hn : n ∈ f.nodes) {t : ProgramPoint}
    (ht : 0 < edgeCount stream transitions n.point t) : ∃ s, s.point = t ∧ f.Flows n s := by
  rw [← h.edges, List.count_pos_iff] at ht
  obtain ⟨e, he, hpoints⟩ := List.mem_map.1 ht
  obtain ⟨hsource, htarget⟩ := Prod.mk.inj hpoints
  obtain rfl := h.point_inj (f.ends e he).1 hn hsource
  exact ⟨e.target, htarget, Graph.mem_successors.2 ⟨e, he, rfl, rfl⟩⟩

/-- A node at a position `i` from which a transition starts leads where its transitions lead. -/
theorem position_of_flows {n b : Node} {i : ℕ} (hn : n ∈ f.nodes) (hi : n.point = .position i)
    (hstarts : ∃ t ∈ transitions, t.1 = i) (hflow : f.Flows n b) :
    ∃ j, (i, j) ∈ transitions ∧ b.point = .position j := by
  have hb := (Graph.mem_nodes_of_mem_successors hflow).2
  have hcount : 0 < edgeCount stream transitions n.point b.point :=
    (h.mem_successors_iff hn hb).1 hflow
  rw [hi] at hcount
  obtain hs | hs | ⟨j, -, hs⟩ := (h.mem_points b.point).1 (List.mem_map_of_mem hb)
  · rw [hs] at hcount
    cases hcount
  · -- an edge to Exit is drawn only where no transition starts
    rw [hs, edgeCount_exit_pos] at hcount
    obtain ⟨t, ht, hti⟩ := hstarts
    exact absurd hti (hcount.2 t ht)
  · rw [hs] at hcount
    exact ⟨j, List.count_pos_iff.1 hcount, hs⟩

/-- Where the one `way` leads from Entry to Exit through all positions, every node reaches Exit. -/
theorem reaches_exit_of_way (way : List ProgramPoint)
    (hway : (ProgramPoint.entry :: way ++ [ProgramPoint.exit]).IsChain fun s t =>
      0 < edgeCount stream transitions s t)
    (hall : ∀ i ∈ mentions stream transitions, .position i ∈ way) :
    ∀ n ∈ f.nodes, ReflTransGen f.Flows n f.exit := by
  -- back from Exit, one step of the way after the other
  have hpoints : ∀ s ∈ ProgramPoint.entry :: way ++ [ProgramPoint.exit],
      ∀ n ∈ f.nodes, n.point = s → ReflTransGen f.Flows n f.exit := by
    refine hway.backwards_induction _ _ (fun s t hst ih n hn hs => ?_) fun _ n hn hs => ?_
    · obtain ⟨b, hb, hflow⟩ := h.exists_flows hn (hs ▸ hst)
      exact .head hflow (ih b (Graph.mem_nodes_of_mem_successors hflow).2 hb)
    · rw [List.getLast_concat] at hs
      rw [h.point_inj hn h.exit_mem hs]
  intro n hn
  refine hpoints n.point ?_ n hn rfl
  obtain hs | hs | ⟨i, hi, hs⟩ := (h.mem_points n.point).1 (List.mem_map_of_mem hn)
  · simp [hs]
  · simp [hs]
  · simp [hs, hall i hi]

end Outline

/-- Two instructions that are repeated together, the second of which decides. -/
def repeated : List (ℕ × ℕ) := [(0, 1), (1, 2), (2, 1), (2, 3)]

/-- The instruction that decides about the loop controls itself. -/
theorem controls_itself_iff_repeated :
    ∃ f g x, (build (Listing.ofSteps 4 repeated).method 0 .none).result = .ok f ∧
      (∀ n ∈ f.nodes, ReflTransGen f.Flows n f.exit) ∧ f.controlDependence.result = .ok g ∧
      x.point = .position 2 ∧ x ∈ g.successors x := by
  obtain ⟨f, hbuild, h⟩ := exists_outline_ofSteps 4 repeated (by decide)
  have hreach : ∀ n ∈ f.nodes, ReflTransGen f.Flows n f.exit :=
    h.reaches_exit_of_way ((List.range 4).map .position) (by decide) (by decide)
  obtain ⟨g, hg, hself, -⟩ := controls_itself_iff hbuild hreach
  obtain ⟨x, hx, hx2⟩ := h.exists_point (i := 2) (by decide)
  obtain ⟨s, hs1, hflow⟩ := h.exists_flows hx (t := .position 1) (by rw [hx2]; decide)
  have hs := (Graph.mem_nodes_of_mem_successors hflow).2
  refine ⟨f, g, x, hbuild, hreach, hg, hx2, (hself x).2 ⟨s, hflow, ?_, ?_⟩⟩
  · intro hsx
    cases hs1.symm.trans (hsx ▸ hx2)
  · -- the first instruction of the loop leads to the second one only
    refine postDominates_of_steps ?_ fun b hb => ?_
    · intro hexit
      rw [hexit] at hs1
      cases hs1
    · obtain ⟨j, hj, hbj⟩ := h.position_of_flows hs hs1 (by decide) hb
      have hj2 : j = 2 := by simpa [repeated] using hj
      exact h.point_inj (Graph.mem_nodes_of_mem_successors hb).2 hx (by rw [hbj, hx2, hj2])

/-- An instruction that is repeated on its own, between two others. -/
def pulse : List (ℕ × ℕ) := [(0, 1), (1, 1), (1, 2)]

/-- **An instruction that branches to itself** and to another one does not control itself, although
it post-dominates itself and every node reaches Exit. -/
theorem pulse_not_controls_itself :
    ∃ f g x, (build (Listing.ofSteps 3 pulse).method 0 .none).result = .ok f ∧
      (∀ n ∈ f.nodes, ReflTransGen f.Flows n f.exit) ∧ f.controlDependence.result = .ok g ∧
      f.Flows x x ∧ (∃ s, f.Flows x s ∧ s ≠ x) ∧ PostDominates f.Flows f.exit x x ∧
      x ∉ g.successors x := by
  obtain ⟨f, hbuild, h⟩ := exists_outline_ofSteps 3 pulse (by decide)
  have hbounded := bounded_of_build hbuild
  have hreach : ∀ n ∈ f.nodes, ReflTransGen f.Flows n f.exit :=
    h.reaches_exit_of_way ((List.range 3).map .position) (by decide) (by decide)
  obtain ⟨g, hg, -, -, hedges⟩ := controlDependence_spec hbounded
  rw [completed_of_extraRoots_eq_nil (extraRoots_eq_nil hreach)] at hedges
  obtain ⟨x, hx, hx1⟩ := h.exists_point (i := 1) (by decide)
  obtain ⟨t, ht2, hflow⟩ := h.exists_flows hx (t := .position 2) (by rw [hx1]; decide)
  have ht := (Graph.mem_nodes_of_mem_successors hflow).2
  have htx : t ≠ x := by
    intro heq
    cases ht2.symm.trans (heq ▸ hx1)
  have hself : f.Flows x x := (h.mem_successors_iff hx hx).2 (by rw [hx1]; decide)
  -- it leads to itself and to the instruction after it
  have hsuccessors : ∀ s, f.Flows x s → s = x ∨ s = t := by
    intro s hs
    have hsmem := (Graph.mem_nodes_of_mem_successors hs).2
    obtain ⟨j, hj, hsj⟩ := h.position_of_flows hx hx1 (by decide) hs
    obtain rfl | rfl : j = 1 ∨ j = 2 := by simpa [pulse] using hj
    · exact .inl (h.point_inj hsmem hx (hsj.trans hx1.symm))
    · exact .inr (h.point_inj hsmem ht (hsj.trans ht2.symm))
  refine ⟨f, g, x, hbuild, hreach, hg, hself, ⟨t, hflow, htx⟩, fun p hp => hp.head_mem, ?_⟩
  rw [hedges]
  exact not_controlDependent_self (hbounded.ne_exit_of_flows hself) (hreach x hx) hsuccessors

end FlowGraph

end Dependence
