import Dependence.Proofs.Flow.Topology
import Mathlib.Tactic

/-!
# Control dependence and the order of the transitions

The transitions of a method can be listed in any order, and the flow between program points stays
the same. Control dependence, seen between program points, is made of that flow and of the extra
roots; and the extra roots are those that reach neither Exit nor one before them in the order of the
crawl. So the order has a say, and just there:

* `controlDependence_of_perm` — two orders give the control dependences of one flow, each completed
  with its own extra roots. They relate the same pairs when the extra roots are the same, and there
  are none when every node reaches Exit;
* `controlPairs_spin` — a loop without a way out, entered from a branch: which node of the loop
  leads it to Exit depends on the order, and with it the pairs that are related.

Control dependence moves along a renaming of the nodes (`controlDependent_map_iff`), here from nodes
to program points.
-/

namespace Dependence

open Relation

/-! ### Renaming nodes -/

section Renaming

variable {α β : Type} {φ : α → β} {inside : α → Prop} {r flows completed : α → α → Prop} {exit : α}

/-- The renaming `φ` is one-to-one on the nodes that `r` joins. -/
structure Renames (φ : α → β) (inside : α → Prop) (r : α → α → Prop) : Prop where
  inj : ∀ a b, inside a → inside b → φ a = φ b → a = b
  ends : ∀ a b, r a b → inside a ∧ inside b

/-- Where the renamed relation leads from `φ a`. -/
theorem Renames.map_iff (h : Renames φ inside r) {a : α} (ha : inside a) {y : β} :
    Relation.Map r φ φ (φ a) y ↔ ∃ b, r a b ∧ φ b = y := by
  constructor
  · rintro ⟨a', b, hab, heq, rfl⟩
    obtain rfl := h.inj a' a (h.ends a' b hab).1 ha heq
    exact ⟨b, hab, rfl⟩
  · rintro ⟨b, hab, rfl⟩
    exact ⟨a, b, hab, rfl, rfl⟩

theorem Renames.reflTransGen_iff (h : Renames φ inside r) {a b : α} (ha : inside a)
    (hb : inside b) : ReflTransGen (Relation.Map r φ φ) (φ a) (φ b) ↔ ReflTransGen r a b := by
  constructor
  · intro hway
    -- each node on a renamed way is a renamed one, which the renaming determines
    have hlift : ∀ y, ReflTransGen (Relation.Map r φ φ) (φ a) y →
        ∃ x, inside x ∧ φ x = y ∧ ReflTransGen r a x := by
      intro y hy
      induction hy with
      | refl => exact ⟨a, ha, rfl, .refl⟩
      | tail _ hstep ih =>
        obtain ⟨x, hx, rfl, hreach⟩ := ih
        obtain ⟨z, hxz, rfl⟩ := (h.map_iff hx).1 hstep
        exact ⟨z, (h.ends x z hxz).2, rfl, hreach.tail hxz⟩
    obtain ⟨x, hx, hxb, hreach⟩ := hlift _ hway
    exact h.inj x b hx hb hxb ▸ hreach
  · intro hway
    induction hway with
    | refl => exact .refl
    | @tail x y _ hstep ih =>
      obtain ⟨hx, -⟩ := h.ends x y hstep
      exact (ih hx).tail ⟨x, y, hstep, rfl, rfl⟩

theorem Renames.postDominates_iff (h : Renames φ inside r) (hexit : inside exit) {a b : α}
    (ha : inside a) (hb : inside b) :
    PostDominates (Relation.Map r φ φ) (φ exit) (φ a) (φ b) ↔ PostDominates r exit a b := by
  rw [Dependence.postDominates_iff, Dependence.postDominates_iff]
  refine dominates_map_iff inside ?_ h.inj ?_ ?_ hexit ha hb
  · intro x y _ hyx
    exact (h.ends y x hyx).1
  · intro x y _ hyx
    exact ⟨y, x, hyx, rfl, rfl⟩
  · -- a step of the renamed relation comes from one of `r`
    rintro x j hx ⟨y, x', hyx, rfl, heq⟩
    obtain rfl := h.inj x' x (h.ends y x' hyx).2 hx heq
    exact ⟨y, hyx, rfl⟩

theorem Renames.inside_of_path (h : Renames φ inside r) {a b : α} {p : List α} (hp : Path r a b p)
    (ha : inside a) : ∀ x ∈ p, inside x := by
  -- every step of the path ends inside
  induction hp with
  | here a => exact fun x hx => List.mem_singleton.1 hx ▸ ha
  | step hstep _ ih => exact List.forall_mem_cons.2 ⟨ha, ih (h.ends _ _ hstep).2⟩

/-- **`ControlDependent` moves along a renaming.** -/
theorem controlDependent_map_iff (hflows : Renames φ inside flows)
    (hcompleted : Renames φ inside completed) (hexit : inside exit)
    (hreach : ∀ a, inside a → ReflTransGen completed a exit) {x y : β} :
    ControlDependent (Relation.Map flows φ φ) (Relation.Map completed φ φ) (φ exit) x y ↔
      Relation.Map (ControlDependent flows completed exit) φ φ x y := by
  constructor
  · rintro ⟨⟨s, t, hs, ht, hst⟩, u, hu, hux, hdom, hnot⟩
    -- the node that decides is a renamed one, and so is the post-dominator on a renamed way
    obtain ⟨c, s, hcs, rfl, rfl⟩ := hs
    have hc := (hflows.ends c s hcs).1
    obtain ⟨t, hct, rfl⟩ := (hflows.map_iff hc).1 ht
    obtain ⟨u, hcu, rfl⟩ := (hflows.map_iff hc).1 hu
    have hu := (hflows.ends c u hcu).2
    obtain ⟨p, hp⟩ := exists_path_iff.2 (hreach u hu)
    obtain ⟨n, hmem, rfl⟩ := List.mem_map.1 (hdom _ (hp.map φ))
    have hn := hcompleted.inside_of_path hp hu n hmem
    rw [hcompleted.postDominates_iff hexit hn hu] at hdom
    rw [hcompleted.postDominates_iff hexit hn hc] at hnot
    have hseveral : ∃ s t, flows c s ∧ flows c t ∧ s ≠ t :=
      ⟨s, t, hcs, hct, fun heq => hst (heq ▸ rfl)⟩
    refine ⟨c, n, ⟨hseveral, u, hcu, fun heq => hux (heq ▸ rfl), hdom, ?_⟩, rfl, rfl⟩
    rintro ⟨hnc, hne⟩
    exact hnot ⟨hnc, fun heq => hne (hcompleted.inj n c hn hc heq)⟩
  · rintro ⟨c, n, ⟨⟨s, t, hcs, hct, hst⟩, u, hcu, huc, hdom, hnot⟩, rfl, rfl⟩
    -- the post-dominator lies on a way to the exit, so it is among the renamed nodes
    obtain ⟨hc, hs⟩ := hflows.ends c s hcs
    have ht := (hflows.ends c t hct).2
    have hu := (hflows.ends c u hcu).2
    obtain ⟨p, hp⟩ := exists_path_iff.2 (hreach u hu)
    have hn := hcompleted.inside_of_path hp hu n (hdom p hp)
    have hne : φ s ≠ φ t := fun heq => hst (hflows.inj s t hs ht heq)
    have hstep : ∀ {v}, flows c v → Relation.Map flows φ φ (φ c) (φ v) := fun hcv =>
      ⟨c, _, hcv, rfl, rfl⟩
    refine ⟨⟨φ s, φ t, hstep hcs, hstep hct, hne⟩, φ u, hstep hcu, ?_, ?_, ?_⟩
    · exact fun heq => huc (hflows.inj u c hu hc heq)
    · exact (hcompleted.postDominates_iff hexit hn hu).2 hdom
    · rw [hcompleted.postDominates_iff hexit hn hc]
      rintro ⟨hnc, hne⟩
      exact hnot ⟨hnc, fun heq => hne (heq ▸ rfl)⟩

/-- The flow, with the members of `order` that reach neither `exit` nor a member before them led to
`exit`. -/
def Led (flows : α → α → Prop) (exit : α) (order : List α) (a b : α) : Prop :=
  flows a b ∨ Uncovered (fun s r => ReflTransGen flows r s) exit order a ∧ b = exit

theorem Renames.uncovered_iff (h : Renames φ inside flows) (hexit : inside exit) {order : List α}
    (horder : ∀ a ∈ order, inside a) {x : β} :
    Uncovered (fun s r => ReflTransGen (Relation.Map flows φ φ) r s) (φ exit) (order.map φ) x ↔
      ∃ a ∈ order, Uncovered (fun s r => ReflTransGen flows r s) exit order a ∧ φ a = x := by
  -- what is compared are members of the order and the exit, on which `φ` is one-to-one
  have hinside : ∀ {before rest s}, order = before ++ rest → s ∈ exit :: before → inside s := by
    rintro before rest s rfl hs
    rcases List.mem_cons.1 hs with rfl | hs
    · exact hexit
    · exact horder s (List.mem_append_left _ hs)
  constructor
  · rintro ⟨before', after', heq, hnew⟩
    obtain ⟨before, rest, rfl, rfl, hrest⟩ := List.map_eq_append_iff.1 heq
    obtain ⟨a, after, rfl, rfl, rfl⟩ := List.map_eq_cons_iff.1 hrest
    have hmem : a ∈ before ++ a :: after := by simp
    refine ⟨a, hmem, ⟨before, after, rfl, fun s hs hway => ?_⟩, rfl⟩
    exact hnew (φ s) (List.mem_map_of_mem hs)
      ((h.reflTransGen_iff (horder a hmem) (hinside rfl hs)).2 hway)
  · rintro ⟨a, hmem, ⟨before, after, rfl, hnew⟩, rfl⟩
    refine ⟨before.map φ, after.map φ, by simp, fun s' hs' hway => ?_⟩
    obtain ⟨s, hs, rfl⟩ := List.mem_map.1 (show s' ∈ (exit :: before).map φ from hs')
    exact hnew s hs ((h.reflTransGen_iff (horder a hmem) (hinside rfl hs)).1 hway)

/-- **`Led` moves along a renaming.** -/
theorem Renames.map_led (h : Renames φ inside flows) (hexit : inside exit) {order : List α}
    (horder : ∀ a ∈ order, inside a) :
    Relation.Map (Led flows exit order) φ φ =
      Led (Relation.Map flows φ φ) (φ exit) (order.map φ) := by
  funext x y
  refine propext ?_
  rw [Led, h.uncovered_iff hexit horder]
  constructor
  · rintro ⟨a, b, hab | ⟨hnew, rfl⟩, rfl, rfl⟩
    · exact .inl ⟨a, b, hab, rfl, rfl⟩
    · obtain ⟨before, after, heq, -⟩ := id hnew
      exact .inr ⟨⟨a, by rw [heq]; simp, hnew, rfl⟩, rfl⟩
  · rintro (⟨a, b, hab, rfl, rfl⟩ | ⟨⟨a, -, hnew, rfl⟩, rfl⟩)
    · exact ⟨a, b, .inl hab, rfl, rfl⟩
    · exact ⟨a, exit, .inr ⟨hnew, rfl⟩, rfl, rfl⟩

end Renaming

/-! ### From nodes to program points -/

/-- The pairs of program points that `g` relates. -/
def Graph.pairs (g : Graph Node) : List (ProgramPoint × ProgramPoint) :=
  g.edges.map fun e => (e.source.point, e.target.point)

theorem Graph.mem_pairs {g : Graph Node} {c n : ProgramPoint} :
    (c, n) ∈ g.pairs ↔ Relation.Map (fun a b => b ∈ g.successors a) Node.point Node.point c n := by
  simp only [pairs, List.mem_map, Prod.mk.injEq, Relation.Map, mem_successors]
  constructor
  · rintro ⟨e, he, hs, ht⟩
    exact ⟨e.source, e.target, ⟨e, he, rfl, rfl⟩, hs, ht⟩
  · rintro ⟨a, b, ⟨e, he, rfl, rfl⟩, hs, ht⟩
    exact ⟨e, he, hs, ht⟩

namespace FlowGraph

variable {f : FlowGraph}

theorem completed_eq_led : f.Completed = Led f.Flows f.exit f.reversed.keys := by
  funext a b
  rw [Completed, Led, mem_extraRoots_iff]

/-- The program points of `f`, in the order in which its crawl meets them. -/
def points (f : FlowGraph) : List ProgramPoint := f.reversed.keys.map Node.point

/-- **`controlDependence` between program points**: the flow between them and their order are all
that it depends on. -/
theorem controlDependence_pairs (hf : Bounded f)
    (hinj : ∀ a ∈ f.nodes, ∀ b ∈ f.nodes, a.point = b.point → a = b) :
    ∃ g, f.controlDependence.result = .ok g ∧ ∀ c n, (c, n) ∈ g.pairs ↔
      ControlDependent f.Joins (Led f.Joins .exit f.points) .exit c n := by
  obtain ⟨g, hg, -, -, hedges⟩ := controlDependence_spec hf
  have hflows : Renames Node.point (· ∈ f.nodes) f.Flows :=
    ⟨fun a b ha hb => hinj a ha b hb, fun a b hab => Graph.mem_nodes_of_mem_successors hab⟩
  -- the edges that complete the flow lead from extra roots, which are nodes, to Exit
  have hcompleted : Renames Node.point (· ∈ f.nodes) f.Completed := by
    refine ⟨hflows.inj, fun a b hab => ?_⟩
    rcases hab with hab | ⟨ha, rfl⟩
    · exact hflows.ends a b hab
    · exact ⟨mem_nodes_of_mem_extraRoots ha, hf.exit_mem⟩
  have hled : Relation.Map f.Completed Node.point Node.point = Led f.Joins .exit f.points := by
    rw [completed_eq_led]
    exact hflows.map_led hf.exit_mem fun a ha => mem_keys_reversed.1 ha
  refine ⟨g, hg, fun c n => ?_⟩
  calc (c, n) ∈ g.pairs
      ↔ Relation.Map (fun a b => b ∈ g.successors a) Node.point Node.point c n := Graph.mem_pairs
    _ ↔ Relation.Map (ControlDependent f.Flows f.Completed f.exit) Node.point Node.point c n := by
        simp only [Relation.Map, hedges]
    _ ↔ ControlDependent f.Joins (Relation.Map f.Completed Node.point Node.point) .exit c n :=
        (controlDependent_map_iff hflows hcompleted hf.exit_mem
          fun a ha => completed_reaches_exit hf ha).symm
    _ ↔ ControlDependent f.Joins (Led f.Joins .exit f.points) .exit c n := by rw [hled]

/-- Where every program point reaches Exit, nothing is led there. -/
theorem led_eq_of_reaches {order : List ProgramPoint} {joins : ProgramPoint → ProgramPoint → Prop}
    (hreach : ∀ s ∈ order, ReflTransGen joins s .exit) : Led joins .exit order = joins := by
  funext a b
  refine propext ⟨fun hab => hab.elim id ?_, .inl⟩
  -- an uncovered member would not reach Exit
  rintro ⟨⟨before, after, rfl, hnew⟩, -⟩
  exact absurd (hreach a (by simp)) (hnew .exit List.mem_cons_self)

theorem mem_points {s : ProgramPoint} : s ∈ f.points ↔ ∃ n ∈ f.nodes, n.point = s := by
  simp only [points, List.mem_map, mem_keys_reversed]

/-- **Transitions in another order.** Two listings of the same instructions, with the same
transitions in different orders, have the same flow between program points. `controlDependence`
relates, for each, the program points that are control dependent in that flow, completed with what
is stranded in the order of its own crawl. So the same pairs are related just if the two completions
agree about control dependence; and they do where every program point reaches Exit. -/
theorem controlDependence_of_perm {instructions : List (Option Instruction)} {edges edges' : Value}
    {definitions definitions' uses uses' : OrderedMap Value Value} {name name' : Value}
    {l l' : Listing} (hl : Listing.make instructions edges definitions uses name = .ok l)
    (hl' : Listing.make instructions edges' definitions' uses' name' = .ok l')
    (hperm : l.transitions.Perm l'.transitions) {table : ℕ} {given : Value} {f : FlowGraph}
    (hbuild : (build l.method table given).result = .ok f) :
    ∃ f' g g', (build l'.method table given).result = .ok f' ∧
      f.controlDependence.result = .ok g ∧ f'.controlDependence.result = .ok g' ∧
      f'.Joins = f.Joins ∧
      (∀ c n, (c, n) ∈ g.pairs ↔
        ControlDependent f.Joins (Led f.Joins .exit f.points) .exit c n) ∧
      (∀ c n, (c, n) ∈ g'.pairs ↔
        ControlDependent f.Joins (Led f.Joins .exit f'.points) .exit c n) ∧
      ((∀ p, p ∈ g.pairs ↔ p ∈ g'.pairs) ↔ ∀ c n,
        ControlDependent f.Joins (Led f.Joins .exit f.points) .exit c n ↔
          ControlDependent f.Joins (Led f.Joins .exit f'.points) .exit c n) ∧
      ((∀ s ∈ f.points, ReflTransGen f.Joins s .exit) → ∀ p, p ∈ g.pairs ↔ p ∈ g'.pairs) := by
  obtain ⟨rfl, hdistinct⟩ := Listing.nodup_of_make hl
  obtain ⟨f', mentioned, transitions, hbuild', hrealizes, hrealizes'⟩ :=
    Listing.build_of_perm (Listing.nodup_of_make hl').1 hdistinct hperm hbuild
  have hjoins : f'.Joins = f.Joins := hrealizes'.joins.trans hrealizes.joins.symm
  obtain ⟨g, hg, hpairs⟩ := controlDependence_pairs (bounded_of_build hbuild) hrealizes.inj
  obtain ⟨g', hg', hpairs'⟩ := controlDependence_pairs (bounded_of_build hbuild') hrealizes'.inj
  rw [hjoins] at hpairs'
  refine ⟨f', g, g', hbuild', hg, hg', hjoins, hpairs, hpairs', ?_, fun hreach => ?_⟩
  · rw [Prod.forall]
    simp only [hpairs, hpairs']
  · -- the points are the same, so none is stranded in either order
    have hreach' : ∀ s ∈ f'.points, ReflTransGen f.Joins s .exit := by
      intro s hs
      rw [mem_points, hrealizes'.points, ← hrealizes.points, ← mem_points] at hs
      exact hreach s hs
    rw [Prod.forall]
    intro c n
    rw [hpairs, hpairs', led_eq_of_reaches hreach, led_eq_of_reaches hreach']

/-- A branch into a loop without a way out, with a way to the end beside it. -/
def spin : List (ℕ × ℕ) := [(0, 1), (1, 2), (2, 1), (0, 3)]

/-- The same transitions, the one that closes the loop first. -/
def spinBackFirst : List (ℕ × ℕ) := [(2, 1), (0, 1), (1, 2), (0, 3)]

/-- The two orders of the loop, with the flow and the completions that they give. -/
theorem controlDependence_of_perm_spin :
    ∃ f f' g g', (build (Listing.ofSteps 4 spin).method 0 .none).result = .ok f ∧
      (build (Listing.ofSteps 4 spinBackFirst).method 0 .none).result = .ok f' ∧
      f.controlDependence.result = .ok g ∧ f'.controlDependence.result = .ok g' ∧
      f'.Joins = f.Joins ∧
      ((∀ p, p ∈ g.pairs ↔ p ∈ g'.pairs) ↔ ∀ c n,
        ControlDependent f.Joins (Led f.Joins .exit f.points) .exit c n ↔
          ControlDependent f.Joins (Led f.Joins .exit f'.points) .exit c n) := by
  have hmake : ∀ steps, Listing.make (Listing.ofSteps 4 []).instructions
      (.list (Listing.ofSteps 4 steps).transitions) .empty .empty (.text "steps") =
        .ok (Listing.ofSteps 4 steps) := fun steps => rfl
  have hperm : (Listing.ofSteps 4 spin).transitions.Perm
      (Listing.ofSteps 4 spinBackFirst).transitions :=
    List.Perm.map _ (show spin.Perm spinBackFirst by decide)
  obtain ⟨f, hf⟩ := exists_build (m := (Listing.ofSteps 4 spin).method) 0 .none rfl rfl
  obtain ⟨f', g, g', hf', hg, hg', hjoins, -, -, hexact, -⟩ :=
    controlDependence_of_perm (hmake spin) (hmake spinBackFirst) hperm hf
  exact ⟨f, f', g, g', hf, hf', hg, hg', hjoins, hexact⟩

/-- The pairs of program points that `controlDependence` relates in `l`, if nothing fails. -/
def controlPairs (l : Listing) : Option (List (ProgramPoint × ProgramPoint)) :=
  (build l.method 0 .none).result.toOption.bind fun f =>
    f.controlDependence.result.toOption.map Graph.pairs

/-- **The order matters.** Where the loop without a way out is listed from its head, the branch
decides about the head alone; where the step back to the head comes first, about the whole loop. -/
theorem controlPairs_spin :
    spin.Perm spinBackFirst ∧
      controlPairs (Listing.ofSteps 4 spin) =
        some [(.position 0, .position 1), (.position 0, .position 3)] ∧
      controlPairs (Listing.ofSteps 4 spinBackFirst) =
        some [(.position 0, .position 1), (.position 0, .position 2),
          (.position 0, .position 3)] := by
  refine ⟨by decide, ?_, ?_⟩
  · cbv
  · cbv

end FlowGraph

end Dependence
