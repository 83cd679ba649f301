import Mathlib.Logic.Relation
import Mathlib.Tactic.ByContra

/-!
# Paths and dominance

A `Path r a b p` follows the relation `r` from `a` to `b` and meets the nodes of the list `p`, both
ends included. A node dominates another, seen from a head, when every path from the head to the
other one meets it (`Dominates`); it post-dominates another, seen from an exit, when every path from
the other one to the exit meets it (`PostDominates`).

Statements about all paths are turned into statements about reachability around a node
(`not_dominates_iff`): `a` fails to dominate `b` exactly when `b` can be reached from the head by
steps that never arrive at `a`. Reachability grows by one step at a time, so an invariant of the
steps is all that a proof about dominance needs.

* `Path.append`, `Path.reverse` — paths in a row, and paths walked backward;
* `postDominates_iff` — post-dominance is dominance against the direction of the steps;
* `Dominates.trans`, `Dominates.antisymm` — dominance is an order on what can be reached;
* `dominates_map_iff`, `dominates_image_iff` — dominance is the same in a copy of the graph, and in
  one where several nodes fall together.
-/

namespace Dependence

open Relation

variable {α : Type} {r : α → α → Prop}

/-- Following `r` from `a` to `b` through the nodes of a list, both ends included. -/
inductive Path (r : α → α → Prop) : α → α → List α → Prop
  | here (a : α) : Path r a a [a]
  | step {a b c : α} {p : List α} (first : r a b) (rest : Path r b c p) : Path r a c (a :: p)

namespace Path

/-- A path meets the node it starts from. -/
theorem head_mem {a b : α} {p : List α} (h : Path r a b p) : a ∈ p := by
  cases h with
  | here => exact List.mem_singleton_self a
  | step _ _ => exact List.mem_cons_self

/-- A path meets the node it leads to. -/
theorem last_mem {a b : α} {p : List α} (h : Path r a b p) : b ∈ p := by
  induction h with
  | here a => exact List.mem_singleton_self a
  | step _ _ ih => exact List.mem_cons_of_mem _ ih

/-- **Paths in a row.** The second path starts where the first one ends. -/
theorem append {a b c : α} {p q : List α} (h : Path r a b p) (h' : Path r b c (b :: q)) :
    Path r a c (p ++ q) := by
  induction h with
  | here a => exact h'
  | step first _ ih => exact .step first (ih h')

/-- One more step at the end. -/
theorem snoc {a b c : α} {p : List α} (h : Path r a b p) (last : r b c) :
    Path r a c (p ++ [c]) :=
  h.append (.step last (.here c))

/-- A path walked backward. -/
theorem reverse {a b : α} {p : List α} (h : Path r a b p) :
    Path (fun x y => r y x) b a p.reverse := by
  induction h with
  | here a => exact .here a
  | step first _ ih =>
    rw [List.reverse_cons]
    exact ih.snoc first

/-- The list of a path starts with the node that the path starts from. -/
theorem eq_head {a b x : α} {p : List α} (h : Path r a b (x :: p)) : a = x := by
  cases h with
  | here => rfl
  | step _ _ => rfl

theorem map {β : Type} {a b : α} {p : List α} (h : Path r a b p) (φ : α → β) :
    Path (Relation.Map r φ φ) (φ a) (φ b) (p.map φ) := by
  induction h with
  | here a => exact .here _
  | step hstep _ ih => exact .step ⟨_, _, hstep, rfl, rfl⟩ ih

theorem exists_eq_cons {a b : α} {p : List α} (h : Path r a b p) : ∃ q, p = a :: q := by
  cases h with
  | here => exact ⟨[], rfl⟩
  | step _ _ => exact ⟨_, rfl⟩

/-- A path up to a node `c` that it meets. -/
theorem upTo {a b c : α} {p : List α} (h : Path r a b p) (hc : c ∈ p) :
    ∃ q, Path r a c q ∧ q ⊆ p := by
  induction h with
  | here a =>
    obtain rfl := List.mem_singleton.1 hc
    exact ⟨_, .here c, List.Subset.refl _⟩
  | @step a b _ p first _ ih =>
    -- the node is where the path starts, or it is met after the first step
    rcases List.mem_cons.1 hc with rfl | hc
    · exact ⟨_, .here c, List.cons_subset_cons c (List.nil_subset p)⟩
    · obtain ⟨q, hq, hsub⟩ := ih hc
      exact ⟨_, .step first hq, List.cons_subset_cons a hsub⟩

end Path

/-! ### Reachability around a node -/

/-- Steps that do not arrive at `x`. -/
def Around (r : α → α → Prop) (x a b : α) : Prop := r a b ∧ b ≠ x

/-- **Paths around `x`** are the steps `Around` it, from another node. -/
theorem exists_path_notMem_iff {x a b : α} :
    (∃ p, Path r a b p ∧ x ∉ p) ↔ a ≠ x ∧ ReflTransGen (Around r x) a b := by
  constructor
  · rintro ⟨p, hp, hx⟩
    have hne : a ≠ x := fun h => hx (h ▸ hp.head_mem)
    refine ⟨hne, ?_⟩
    clear hne
    -- forward along the path: each step arrives at the head of a rest that misses `x`
    induction hp with
    | here a => exact .refl
    | step first rest ih =>
      have hx' := fun h => hx (List.mem_cons_of_mem _ h)
      exact .head ⟨first, fun h => hx' (h ▸ rest.head_mem)⟩ (ih hx')
  · rintro ⟨hne, h⟩
    -- the path grows at its end, where the last step does not arrive at `x` either
    induction h with
    | refl => exact ⟨[a], .here a, fun h => hne (List.mem_singleton.1 h).symm⟩
    | tail _ hstep ih =>
      obtain ⟨p, hp, hx⟩ := ih
      refine ⟨_, hp.snoc hstep.1, fun h => ?_⟩
      rcases List.mem_append.1 h with h | h
      · exact hx h
      · exact hstep.2 (List.mem_singleton.1 h).symm

/-- What can be reached can be reached by a path. -/
theorem exists_path_iff {a b : α} : (∃ p, Path r a b p) ↔ ReflTransGen r a b := by
  constructor
  · rintro ⟨p, hp⟩
    induction hp with
    | here a => exact .refl
    | step first _ ih => exact .head first ih
  · intro h
    induction h with
    | refl => exact ⟨_, .here a⟩
    | tail _ hstep ih =>
      obtain ⟨p, hp⟩ := ih
      exact ⟨_, hp.snoc hstep⟩

/-! ### Dominance -/

/-- Every path from the head to `b` meets `a`. -/
def Dominates (r : α → α → Prop) (head a b : α) : Prop := ∀ p, Path r head b p → a ∈ p

/-- Every path from `b` to the exit meets `a`. -/
def PostDominates (r : α → α → Prop) (exit a b : α) : Prop := ∀ p, Path r b exit p → a ∈ p

/-- **Dominance as reachability.** `a` does not dominate `b` exactly when `b` can be reached
`Around` `a`. -/
theorem not_dominates_iff {head a b : α} :
    ¬ Dominates r head a b ↔ head ≠ a ∧ ReflTransGen (Around r a) head b := by
  rw [← exists_path_notMem_iff]
  simp only [Dominates, not_forall, exists_prop]

/-- Post-dominance is dominance against the direction of the steps. -/
theorem postDominates_iff {exit a b : α} :
    PostDominates r exit a b ↔ Dominates (fun x y => r y x) exit a b := by
  constructor
  · intro h p hp
    exact List.mem_reverse.1 (h _ hp.reverse)
  · intro h p hp
    exact List.mem_reverse.1 (h _ hp.reverse)

/-- A post-dominator is missed exactly when there is a way to the exit around it. -/
theorem not_postDominates_iff {exit a b : α} :
    ¬ PostDominates r exit a b ↔ ∃ p, Path r b exit p ∧ a ∉ p := by
  simp only [PostDominates, not_forall, exists_prop]

namespace Dominates

/-- A node dominates itself. -/
theorem refl (r : α → α → Prop) (head a : α) : Dominates r head a a := fun _ hp => hp.last_mem

/-- **`Dominates` is transitive.** -/
theorem trans {head a b c : α} (hab : Dominates r head a b) (hbc : Dominates r head b c) :
    Dominates r head a c := by
  intro p hp
  -- the path meets `b`, and up to there it is a path that `a` dominates
  obtain ⟨q, hq, hsub⟩ := hp.upTo (hbc p hp)
  exact hsub (hab q hq)

/-- What dominates `c`, and is another node, dominates those that lead to `c`. -/
theorem of_step {head a b c : α} (h : Dominates r head a c) (hne : a ≠ c) (hstep : r b c) :
    Dominates r head a b := by
  by_contra hb
  obtain ⟨hhead, hreach⟩ := not_dominates_iff.1 hb
  exact not_dominates_iff.2 ⟨hhead, hreach.tail ⟨hstep, Ne.symm hne⟩⟩ h

/-- What dominates `c` dominates every node from which there is a way to `c` around it. -/
theorem of_around {head a b c : α} (h : Dominates r head a c)
    (hway : ReflTransGen (Around r a) b c) : Dominates r head a b := by
  by_contra hb
  obtain ⟨hhead, hreach⟩ := not_dominates_iff.1 hb
  exact not_dominates_iff.2 ⟨hhead, hreach.trans hway⟩ h

/-- The way from `head`, seen where it first arrives at `a` or at `b`. -/
theorem reach_either {head a b x : α} (hab : a ≠ b) (h : ReflTransGen r head x) :
    ¬ Dominates r head b a ∨ ¬ Dominates r head a b ∨
      (head ≠ a ∧ head ≠ b ∧ x ≠ a ∧ x ≠ b ∧
        ReflTransGen (fun u v => r u v ∧ v ≠ a ∧ v ≠ b) head x) := by
  -- as long as neither node has been met, the way so far goes around both; the one that is met
  -- first is reached around the other
  induction h with
  | refl =>
    by_cases ha : head = a
    · exact .inl (not_dominates_iff.2 ⟨ha ▸ hab, ha ▸ .refl⟩)
    by_cases hb : head = b
    · exact .inr (.inl (not_dominates_iff.2 ⟨hb ▸ hab.symm, hb ▸ .refl⟩))
    exact .inr (.inr ⟨ha, hb, ha, hb, .refl⟩)
  | @tail y z _ hstep ih =>
    rcases ih with h | h | ⟨ha, hb, -, -, hway⟩
    · exact .inl h
    · exact .inr (.inl h)
    have around_a : ReflTransGen (Around r a) head y :=
      ReflTransGen.mono (fun _ _ hs => ⟨hs.1, hs.2.1⟩) _ _ hway
    have around_b : ReflTransGen (Around r b) head y :=
      ReflTransGen.mono (fun _ _ hs => ⟨hs.1, hs.2.2⟩) _ _ hway
    by_cases hza : z = a
    · exact .inl (not_dominates_iff.2 ⟨hb, hza ▸ around_b.tail ⟨hstep, hza ▸ hab⟩⟩)
    by_cases hzb : z = b
    · exact .inr (.inl (not_dominates_iff.2 ⟨ha, hzb ▸ around_a.tail ⟨hstep, hzb ▸ hab.symm⟩⟩))
    exact .inr (.inr ⟨ha, hb, hza, hzb, hway.tail ⟨hstep, hza, hzb⟩⟩)

/-- **`Dominates` is antisymmetric** on the nodes that can be reached. -/
theorem antisymm {head a b : α} (hab : Dominates r head a b) (hba : Dominates r head b a)
    (hreach : ReflTransGen r head a) : a = b := by
  by_contra hne
  rcases reach_either hne hreach with h | h | ⟨-, -, h, -⟩
  · exact h hba
  · exact h hab
  · exact h rfl

end Dominates

/-! ### Dominance in another graph -/

/-- Steps from a node to itself do not count. -/
theorem dominates_ne_iff {head a b : α} :
    Dominates (fun x y => r x y ∧ x ≠ y) head a b ↔ Dominates r head a b := by
  rw [← not_iff_not, not_dominates_iff, not_dominates_iff]
  refine and_congr_right fun _ => ⟨ReflTransGen.mono (fun _ _ h => ⟨h.1.1, h.2⟩) _ _, fun h => ?_⟩
  induction h with
  | refl => exact .refl
  | @tail x y _ hstep ih =>
    -- a step from a node to itself can be left out
    by_cases hxy : x = y
    · exact hxy ▸ ih
    · exact ih.tail ⟨⟨hstep.1, hxy⟩, hstep.2⟩

/-- **`Dominates` moves along a renaming** `f` of the nodes `inside`, one that keeps the steps in
both directions. -/
theorem dominates_map_iff {β : Type} {s : β → β → Prop} {f : α → β} (inside : α → Prop)
    {head a b : α} (hclosed : ∀ x y, inside x → r x y → inside y)
    (hinj : ∀ x y, inside x → inside y → f x = f y → x = y)
    (hforth : ∀ x y, inside x → r x y → s (f x) (f y))
    (hback : ∀ x j, inside x → s (f x) j → ∃ y, r x y ∧ f y = j)
    (hhead : inside head) (ha : inside a) (hb : inside b) :
    Dominates s (f head) (f a) (f b) ↔ Dominates r head a b := by
  -- a way around a node is renamed step by step, and back
  rw [← not_iff_not, not_dominates_iff, not_dominates_iff]
  constructor
  · rintro ⟨hne, h⟩
    have hlift : ∀ j, ReflTransGen (Around s (f a)) (f head) j →
        ∃ x, inside x ∧ f x = j ∧ ReflTransGen (Around r a) head x := by
      intro j hj
      induction hj with
      | refl => exact ⟨head, hhead, rfl, .refl⟩
      | tail _ hstep ih =>
        obtain ⟨x, hx, rfl, hreach⟩ := ih
        obtain ⟨y, hxy, rfl⟩ := hback x _ hx hstep.1
        exact ⟨y, hclosed x y hx hxy, rfl, hreach.tail ⟨hxy, fun hya => hstep.2 (hya ▸ rfl)⟩⟩
    obtain ⟨x, hx, hxb, hreach⟩ := hlift _ h
    exact ⟨fun heq => hne (heq ▸ rfl), hinj x b hx hb hxb ▸ hreach⟩
  · rintro ⟨hne, h⟩
    have hdown : ∀ x, ReflTransGen (Around r a) head x →
        inside x ∧ ReflTransGen (Around s (f a)) (f head) (f x) := by
      intro x hx
      induction hx with
      | refl => exact ⟨hhead, .refl⟩
      | @tail x y _ hstep ih =>
        have hy := hclosed x y ih.1 hstep.1
        exact ⟨hy, ih.2.tail
          ⟨hforth x y ih.1 hstep.1, fun heq => hstep.2 (hinj y a hy ha heq)⟩⟩
    exact ⟨fun heq => hne (hinj head a hhead ha heq), (hdown b h).2⟩

section Image

variable {β : Type} {s : β → β → Prop} {f : α → β} {inside : α → Prop}
  (hclosed : ∀ x y, inside x → r x y → inside y)

include hclosed

/-- A path does not leave what is closed under the steps. -/
theorem Path.stays {a b : α} {p : List α} (h : Path r a b p) (ha : inside a) :
    ∀ x ∈ p, inside x := by
  induction h with
  | here a => exact List.forall_mem_singleton.2 ha
  | @step a b _ _ first _ ih => exact List.forall_mem_cons.2 ⟨ha, ih (hclosed a b ha first)⟩

/-- The image of a path under `f`, where the image of a step may stand still. -/
theorem Path.image (hforth : ∀ x y, inside x → r x y → f x = f y ∨ s (f x) (f y)) {a b : α}
    {p : List α} (h : Path r a b p) (ha : inside a) :
    ∃ q, Path s (f a) (f b) q ∧ ∀ j ∈ q, ∃ x ∈ p, f x = j := by
  induction h with
  | here a => exact ⟨[f a], .here (f a), fun j hj => ⟨a, by simp, (List.mem_singleton.1 hj).symm⟩⟩
  | @step a b _ p first _ ih =>
    obtain ⟨q, hq, hmet⟩ := ih (hclosed a b ha first)
    have hrest : ∀ j ∈ q, ∃ x ∈ a :: p, f x = j := fun j hj =>
      (hmet j hj).imp fun x hx => ⟨List.mem_cons_of_mem a hx.1, hx.2⟩
    obtain heq | hstep := hforth a b ha first
    · -- the step stands still, and the image of the rest is that of the whole
      exact ⟨q, heq ▸ hq, hrest⟩
    · exact ⟨f a :: q, .step hstep hq,
        List.forall_mem_cons.2 ⟨⟨a, List.mem_cons_self, rfl⟩, hrest⟩⟩

/-- A path of the image is the image of a path. -/
theorem Path.lift (hback : ∀ x j, inside x → s (f x) j → ∃ y, r x y ∧ f y = j) {a : α} {j : β}
    {q : List β} (h : Path s (f a) j q) (ha : inside a) :
    ∃ b p, Path r a b p ∧ f b = j ∧ p.map f = q := by
  -- on the path of the image, lifted one step at a time from a node over its beginning
  generalize hi : f a = i at h
  induction h generalizing a with
  | here i => exact ⟨a, [a], .here a, hi, by rw [List.map_singleton, hi]⟩
  | @step i k _ q first _ ih =>
    obtain ⟨y, hay, hy⟩ := hback a k ha (hi ▸ first)
    obtain ⟨b, p, hp, hb, hq⟩ := ih (hclosed a y ha hay) hy
    exact ⟨b, a :: p, .step hay hp, hb, by rw [List.map_cons, hi, hq]⟩

/-- **`Dominates` seen through `f`**, which may take several nodes to one: every path to a node that
is taken to `f b` meets one that is taken to `f a`. -/
theorem dominates_image_iff (hforth : ∀ x y, inside x → r x y → f x = f y ∨ s (f x) (f y))
    (hback : ∀ x j, inside x → s (f x) j → ∃ y, r x y ∧ f y = j) {head a b : α}
    (hhead : inside head) :
    Dominates s (f head) (f a) (f b) ↔
      ∀ n p, f n = f b → Path r head n p → ∃ x ∈ p, f x = f a := by
  refine ⟨fun h n p hn hp => ?_, fun h q hq => ?_⟩
  · obtain ⟨q, hq, hmet⟩ := hp.image hclosed hforth hhead
    exact hmet (f a) (h q (hn ▸ hq))
  · obtain ⟨n, p, hp, hn, rfl⟩ := hq.lift hclosed hback hhead
    obtain ⟨x, hx, hxa⟩ := h n p hn hp
    exact hxa ▸ List.mem_map_of_mem hx

end Image

end Dependence
