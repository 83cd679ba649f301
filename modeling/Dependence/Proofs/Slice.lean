import Dependence.Proofs.Analysis
import Dependence.Proofs.Combined
import Mathlib.Tactic

/-!
# Slices are closed

The slice of a node holds the nodes from which dependence leads to it, so it is closed under
dependence. Two facts follow that make a slice meaningful as a program of its own:

* closed under control dependence, it has at most one next member to come to from any node
  (`nextIn_unique`). A member that control comes to from `n`, meeting no other before,
  post-dominates `n`: were it not so, the last node on the way that it fails to post-dominate would
  have it as a dependent (`NextIn.postDominates`). And of two members that post-dominate `n` each
  lies on all ways from the other to Exit;
* closed under data dependence, it holds every definition that supplies one of its members.

Whether the graphs of an analysis are built when a slice is asked for or were kept makes no
difference to it, so a slice is what the paths of the flow graph say it is (`Query.slice_yields`).
-/

namespace Dependence

open Relation

/-! ### The next member of a set -/

section NextIn

variable {α : Type} {flows : α → α → Prop} {members : α → Prop} {exit : α}

/-- Control can pass from `n` to the member `m` of a set, and meets no other member before. -/
def NextIn (flows : α → α → Prop) (members : α → Prop) (n m : α) : Prop :=
  members m ∧ ∃ before, Path flows n m (before ++ [m]) ∧ ∀ u ∈ before, ¬ members u

/-- **A step from `c` toward `m` decides about `m`**, unless `m` post-dominates both ends. -/
theorem controlDependent_of_step {c s m : α} (hlast : ∀ b, ¬ flows exit b) (hflow : flows c s)
    (hs : PostDominates flows exit m s) (hc : ¬ PostDominates flows exit m c) :
    ControlDependent flows flows exit c m := by
  have hne : s ≠ c := fun heq => hc (heq ▸ hs)
  -- the way to the exit that misses the member starts with another step
  obtain ⟨p, hp, hm⟩ := not_postDominates_iff.1 hc
  cases hp with
  | here => exact absurd hflow (hlast s)
  | @step _ t _ q first rest =>
    have ht : ¬ PostDominates flows exit m t := fun ht =>
      hm (List.mem_cons_of_mem _ (ht q rest))
    have hst : s ≠ t := fun heq => ht (heq ▸ hs)
    exact ⟨⟨s, t, hflow, first, hst⟩, s, hflow, hne, hs, fun h => hc h.1⟩

/-- **A next member `m` post-dominates** the nodes from which it is next. -/
theorem NextIn.postDominates (hlast : ∀ b, ¬ flows exit b)
    (hclosed : ∀ c m, members m → ControlDependent flows flows exit c m → members c) {n m : α}
    (h : NextIn flows members n m) : PostDominates flows exit m n := by
  obtain ⟨hm, before, hpath, hbefore⟩ := h
  -- on the nodes met before the member, from the last one back
  induction before generalizing n with
  | nil =>
    obtain rfl := hpath.eq_head
    exact fun p hp => hp.head_mem
  | cons u before ih =>
    obtain ⟨hu, hrest⟩ := List.forall_mem_cons.1 hbefore
    obtain rfl := hpath.eq_head
    by_contra hnot
    -- the next node on the way is post-dominated, so this one decides and is a member itself
    generalize hq : n :: before ++ [m] = q at hpath
    cases hpath with
    | here => simp at hq
    | step first rest =>
      cases hq
      exact hu (hclosed n m hm (controlDependent_of_step hlast first (ih rest hrest) hnot))

/-- Of two next members, each is on every way from the other to the exit. -/
theorem NextIn.postDominates_other {n m m' : α} (h : NextIn flows members n m)
    (h' : NextIn flows members n m') (hdom : PostDominates flows exit m' n) :
    PostDominates flows exit m' m := by
  obtain ⟨-, before, hpath, hbefore⟩ := h
  intro q hq
  -- the way to `m`, followed by any way from there to the exit, meets `m'`, but not before `m`
  obtain ⟨rest, rfl⟩ := hq.exists_eq_cons
  have hmem := hdom _ (hpath.append hq)
  rw [List.append_assoc, List.mem_append] at hmem
  exact hmem.resolve_left fun hbad => hbefore m' hbad h'.1

/-- **The next member is unique.** -/
theorem nextIn_unique (hlast : ∀ b, ¬ flows exit b)
    (hclosed : ∀ c m, members m → ControlDependent flows flows exit c m → members c)
    (hreach : ∀ m, members m → ReflTransGen flows m exit) {n m m' : α}
    (h : NextIn flows members n m) (h' : NextIn flows members n m') : m = m' := by
  have hm' : PostDominates flows exit m' m :=
    h.postDominates_other h' (h'.postDominates hlast hclosed)
  have hm : PostDominates flows exit m m' :=
    h'.postDominates_other h (h.postDominates hlast hclosed)
  rw [postDominates_iff] at hm hm'
  exact hm.antisymm hm' (hreach m h.1).swap

end NextIn

/-! ### Slices of nodes -/

/-- **`backward`** from a node `o` that both graphs have. -/
theorem Slice.backward_spec {g d : Graph Node} {o : Node} (hg : o ∈ g.nodes) (hd : o ∈ d.nodes)
    (unit : Value) :
    ∃ found, (backward g d (some o) unit).result = .ok ⟨o, d.predecessors o, found⟩ ∧
      ∀ m, m ∈ found ↔ TransGen (fun a b => b ∈ g.successors a) m o := by
  obtain ⟨found, hfound, hmem⟩ := g.mem_transitivePredecessors hg
  refine ⟨found, ?_, hmem⟩
  simp [backward, Graph.contains, Graph.predecessorsOf, Graph.member, hg, hd, hfound, ok_bind]

/-- **`Query.slice`**: what bears on the node `o`, directly or through others. -/
theorem Query.slice_yields {a : Analysis} (ha : a.Faithful) (hf : FlowGraph.Bounded a.flow)
    (hp : a.method.toDefUse.Answers a.flow) {o : Node} (ho : o ∈ a.flow.nodes) :
    ∃ s, (slice (some o)).Yields a (.ok s) ∧ s.criterion = o ∧
      (∀ m ∈ s.transitive, m ∈ a.flow.nodes) ∧
      ∀ m, m ∈ s.transitive ↔ TransGen (a.flow.BearsOn a.method.toDefUse) m o := by
  obtain ⟨c, d, g, hc, hd, hg, hdnodes, hgnodes, hedges⟩ := FlowGraph.combine_spec hf hp
  obtain ⟨found, hbackward, hmem⟩ :=
    Slice.backward_spec (hgnodes.symm ▸ ho) (hdnodes.symm ▸ ho) a.flow.unit
  have hdata : Derived.data.built a.subject = .ok d := hd
  have hcombined : Derived.combined.built a.subject = .ok g :=
    (Derived.built_combined (s := a.subject) hc hdata).trans hg
  -- the two graphs that the plan of the request asks for
  have hslice : (slice (some o)).Yields a (.ok ⟨o, d.predecessors o, found⟩) := by
    have hyields := (Request.slice (some o)).ask_yields ha
    simp only [Request.plan, Plan.direct, hcombined, hdata, ok_bind] at hyields
    exact hbackward ▸ hyields
  refine ⟨⟨o, d.predecessors o, found⟩, hslice, rfl, fun m hm => ?_, fun m => ?_⟩
  · rw [← hgnodes]
    obtain ⟨n, hn, -⟩ := TransGen.head'_iff.1 ((hmem m).1 hm)
    obtain ⟨e, he, rfl, -⟩ := Graph.mem_successors.1 hn
    exact (g.ends e he).1
  · have hsame : (fun a b => b ∈ g.successors a) = a.flow.BearsOn a.method.toDefUse := by
      funext x y
      exact propext (hedges x y)
    rw [← hsame]
    exact hmem m

/-! ### Closed slices -/

/-- The node `n` is in the slice `s`, or is the one that the slice is about. -/
def Slice.Holds (s : Slice Node) (n : Node) : Prop := n = s.criterion ∨ n ∈ s.transitive

/-- What bears on a member of a slice is a member. -/
theorem Slice.holds_of_bearsOn {s : Slice Node} {f : FlowGraph} {p : DefUse}
    (hs : ∀ m, m ∈ s.transitive ↔ TransGen (f.BearsOn p) m s.criterion) {m n : Node}
    (hn : s.Holds n) (hbears : f.BearsOn p m n) : s.Holds m := by
  rcases hn with rfl | hn
  · exact .inr ((hs m).2 (.single hbears))
  · exact .inr ((hs m).2 (.head hbears ((hs n).1 hn)))

/-- **Slices are closed.** Where every node of a method reaches Exit, every node has a slice. From
any node, control comes to at most one next member of the slice; and a definition that supplies a
member is a member. -/
theorem Query.slice_closed {l : Listing} {options : Options} {a : Analysis}
    (ha : (Analysis.start l.method options).result = .ok a ∨
      (Analysis.eager l.method options).result = .ok a)
    (hreach : ∀ n ∈ a.flow.nodes, ReflTransGen a.flow.Flows n a.flow.exit) {o : Node}
    (ho : o ∈ a.flow.nodes) :
    ∃ s, (Query.slice (some o) a).2.result = .ok s ∧ s.criterion = o ∧
      (∀ n m m', NextIn a.flow.Flows s.Holds n m → NextIn a.flow.Flows s.Holds n m' → m = m') ∧
      ∀ n d v, s.Holds n → a.flow.Supplies l.method.toDefUse d n v → s.Holds d := by
  obtain ⟨hfaithful, hmethod, hbuild⟩ := Analysis.faithful_of_opened ha
  have hbounded := FlowGraph.bounded_of_build hbuild
  obtain ⟨s, hs, rfl, hnodes, hmem⟩ := Query.slice_yields hfaithful hbounded
    (hmethod ▸ Listing.answers hbuild) ho
  -- every node reaches Exit, so nothing completes the flow
  have hcompleted := FlowGraph.completed_of_extraRoots_eq_nil (FlowGraph.extraRoots_eq_nil hreach)
  have hlast : ∀ b, ¬ a.flow.Flows a.flow.exit b := by
    intro b hb
    rw [FlowGraph.Flows, hbounded.exit_last] at hb
    cases hb
  have hclosed : ∀ c m, s.Holds m →
      ControlDependent a.flow.Flows a.flow.Flows a.flow.exit c m → s.Holds c := by
    intro c m hm hc
    exact s.holds_of_bearsOn hmem hm (.inl (hcompleted.symm ▸ hc))
  have hexit : ∀ m, s.Holds m → ReflTransGen a.flow.Flows m a.flow.exit := by
    rintro m (rfl | hm)
    · exact hreach _ ho
    · exact hreach m (hnodes m hm)
  refine ⟨s, hs.result, rfl, fun n m m' => nextIn_unique hlast hclosed hexit, fun n d v hn hd => ?_⟩
  -- a node that supplies itself has no edge to itself, but is the member already
  by_cases heq : d = n
  · exact heq ▸ hn
  · exact s.holds_of_bearsOn hmem hn (.inr ⟨heq, v, hmethod ▸ hd⟩)

/-- The slice of the last instruction of the loop that counts. -/
theorem Query.slice_closed_counting :
    ∃ a o s, (Analysis.start Listing.counting.method default).result = .ok a ∧
      (∀ n ∈ a.flow.nodes, ReflTransGen a.flow.Flows n a.flow.exit) ∧
      o ∈ a.flow.nodes ∧ o.position? = some (.int 3) ∧
      (Query.slice (some o) a).2.result = .ok s ∧
      ∀ n m m', NextIn a.flow.Flows s.Holds n m → NextIn a.flow.Flows s.Holds n m' → m = m' := by
  have heval : (Analysis.start Listing.counting.method default).result.toOption.map (fun a =>
      (a.flow.extraRoots.isEmpty, a.flow.nodes.any fun n => decide (n.position? = some (.int 3)))) =
        some (true, true) := by
    cbv
  cases hstart : (Analysis.start Listing.counting.method default).result with
  | error e =>
    rw [hstart] at heval
    cases heval
  | ok a =>
    rw [hstart] at heval
    obtain ⟨hroots, hany⟩ := Prod.mk.inj (Option.some.inj heval)
    obtain ⟨o, ho, hposition⟩ := List.any_eq_true.1 hany
    have hbounded := FlowGraph.bounded_of_build (Analysis.faithful_of_start hstart).2.2
    have hreach : ∀ n ∈ a.flow.nodes, ReflTransGen a.flow.Flows n a.flow.exit := by
      intro n hn
      have hway := FlowGraph.completed_reaches_exit hbounded hn
      rwa [FlowGraph.completed_of_extraRoots_eq_nil (List.isEmpty_iff.1 hroots)] at hway
    obtain ⟨s, hs, -, hunique, -⟩ := Query.slice_closed (.inl hstart) hreach ho
    exact ⟨a, o, s, rfl, hreach, ho, of_decide_eq_true hposition, hs, hunique⟩

end Dependence
