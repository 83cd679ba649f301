import Dependence.Graph.Reach
import Dependence.Proofs.Graph.Edges
import Mathlib.Data.List.Forall2

/-!
# The listing of a graph

A graph lists its edges by source, then by target. The listing has every edge as often as the graph
has it (`Graph.listing_perm`). Where no two edges are parallel, grouping by target has no effect,
and the edges from a node stand in the order in which they were added
(`Graph.Simple.listing_eq`).

Two graphs are `Alike` if they have the same nodes, and edges between the same ends in the same
order. They differ in what their edges carry, which no search sees, and what relates the edges of
the one to those of the other relates their listings (`Graph.forall₂_listing`).
-/

namespace Dependence

section Groups

variable {α β : Type} [DecidableEq β] (f : α → β)

/-- **Grouping `items`** by `f` only changes their order, where every group is listed once. -/
theorem perm_flatMap_filter {groups : List β} (hgroups : groups.Nodup) {items : List α}
    (h : ∀ a ∈ items, f a ∈ groups) :
    (groups.flatMap fun b => items.filter fun a => f a == b).Perm items := by
  -- on the groups: the first takes its items out, and the other groups do not see these
  induction groups generalizing items with
  | nil =>
    rw [List.eq_nil_iff_forall_not_mem.2 fun a ha => List.not_mem_nil (h a ha)]
    exact .nil
  | cons b groups ih =>
    obtain ⟨hb, hgroups⟩ := List.nodup_cons.1 hgroups
    let rest := items.filter fun a => !(f a == b)
    have hrest : ∀ a ∈ rest, f a ∈ groups := by
      intro a ha
      obtain ⟨ha, hne⟩ := List.mem_filter.1 ha
      exact (List.mem_cons.1 (h a ha)).resolve_left (by simpa using hne)
    have hsame : (groups.flatMap fun c => items.filter fun a => f a == c) =
        groups.flatMap fun c => rest.filter fun a => f a == c := by
      refine List.flatMap_congr fun c hc => ?_
      rw [List.filter_filter]
      refine List.filter_congr fun a _ => ?_
      -- an item of the group `c` is not one of the group `b`
      by_cases hac : f a = c
      · have hcb : c ≠ b := fun h => hb (h ▸ hc)
        simp [hac, hcb]
      · simp [hac]
    rw [List.flatMap_cons, hsame]
    exact ((ih hgroups hrest).append_left _).trans (List.filter_append_perm _ items)

/-- Where every group has one item, grouping does not even change the order. -/
theorem flatMap_filter_eq_self {items : List α} (h : (items.map f).Nodup) :
    ((items.map f).flatMap fun b => items.filter fun a => f a == b) = items := by
  induction items with
  | nil => rfl
  | cons a items ih =>
    obtain ⟨ha, hitems⟩ := List.nodup_cons.1 h
    -- the group of `a` has no other item, and the other groups do not have `a`
    have hfirst : (items.filter fun c => f c == f a) = [] := by
      refine List.filter_eq_nil_iff.2 fun c hc hca => ha ?_
      rw [← eq_of_beq hca]
      exact List.mem_map_of_mem hc
    have hothers : ((items.map f).flatMap fun b => (a :: items).filter fun c => f c == b) =
        (items.map f).flatMap fun b => items.filter fun c => f c == b := by
      refine List.flatMap_congr fun b hb => List.filter_cons_of_neg fun hab => ha ?_
      rw [eq_of_beq hab]
      exact hb
    rw [List.map_cons, List.flatMap_cons, hothers, ih hitems, List.filter_cons_of_pos (by simp),
      hfirst]
    rfl

theorem eraseDups_of_nodup {items : List β} (h : items.Nodup) : items.eraseDups = items := by
  induction items with
  | nil => rfl
  | cons b items ih =>
    obtain ⟨hb, hitems⟩ := List.nodup_cons.1 h
    have hkept : (items.filter fun c => !c == b) = items := by
      refine List.filter_eq_self.2 fun c hc => ?_
      have hne : c ≠ b := fun h => hb (h ▸ hc)
      simpa using hne
    rw [List.eraseDups_cons, hkept, ih hitems]

/-- Lists that are put together of related parts are related. -/
theorem forall₂_flatMap {α β γ : Type} {R : β → γ → Prop} {f : α → List β} {f' : α → List γ}
    {items : List α} (h : ∀ a ∈ items, List.Forall₂ R (f a) (f' a)) :
    List.Forall₂ R (items.flatMap f) (items.flatMap f') := by
  induction items with
  | nil => exact .nil
  | cons a items ih =>
    obtain ⟨ha, hitems⟩ := List.forall_mem_cons.1 h
    rw [List.flatMap_cons, List.flatMap_cons]
    exact List.rel_append ha (ih hitems)

/-- What is the same for related items is the same for related lists. -/
theorem map_eq_of_forall₂ {α β γ : Type} {R : α → β → Prop} {f : α → γ} {f' : β → γ}
    (hR : ∀ a b, R a b → f' b = f a) {items : List α} {items' : List β}
    (h : List.Forall₂ R items items') : items'.map f' = items.map f := by
  induction h with
  | nil => rfl
  | cons hab _ ih => rw [List.map_cons, List.map_cons, ih, hR _ _ hab]

end Groups

namespace Graph

variable {ν : Type} [DecidableEq ν] {g g' : Graph ν}

/-- `listing` goes by source, then by target. -/
theorem listing_eq (g : Graph ν) :
    g.listing = g.nodes.flatMap fun s => (g.successors s).flatMap (g.between s) := by
  refine List.flatMap_congr fun s _ => List.flatMap_congr fun t _ => ?_
  rw [outgoing, List.filter_filter, between]
  exact List.filter_congr fun e _ => Bool.and_comm _ _

/-- **`listing`** has every edge, as often as the graph has it. -/
theorem listing_perm (g : Graph ν) : g.listing.Perm g.edges := by
  -- grouped by source, and then each group by target
  have hsources : (g.nodes.flatMap g.outgoing).Perm g.edges :=
    perm_flatMap_filter Edge.source g.nodup fun e he => (g.ends e he).1
  have htargets : ∀ s, ((g.successors s).flatMap fun t =>
      (g.outgoing s).filter fun e => e.target == t).Perm (g.outgoing s) := fun s =>
    perm_flatMap_filter Edge.target (g.nodup_successors s) fun e he =>
      List.mem_eraseDups.2 (List.mem_map_of_mem he)
  exact (List.Perm.flatMap_left _ fun s _ => htargets s).trans hsources

/-- **`listing` of a simple graph** goes by source only. -/
theorem Simple.listing_eq (h : g.Simple) : g.listing = g.nodes.flatMap g.outgoing := by
  refine List.flatMap_congr fun s _ => ?_
  have htargets : ((g.outgoing s).map Edge.target).Nodup := by
    -- the edges from `s` have different ends, and all the same source
    have hends : ((g.outgoing s).map fun e => (e.source, e.target)).Nodup :=
      List.Nodup.sublist (List.filter_sublist.map _) h
    have hsource : ((g.outgoing s).map fun e => (e.source, e.target)) =
        ((g.outgoing s).map Edge.target).map (Prod.mk s) := by
      rw [List.map_map]
      refine List.map_congr_left fun e he => ?_
      rw [eq_of_beq (List.mem_filter.1 he).2]
      rfl
    exact (hsource ▸ hends).of_map
  rw [successors, eraseDups_of_nodup htargets]
  exact flatMap_filter_eq_self Edge.target htargets

/-! ### Graphs that are alike -/

/-- `g` and `g'` have the same nodes, and edges between the same ends in the same order. -/
structure Alike (g g' : Graph ν) : Prop where
  nodes : g'.nodes = g.nodes
  ends : g'.edges.map (fun e => (e.source, e.target)) = g.edges.map fun e => (e.source, e.target)

namespace Alike

omit [DecidableEq ν] in
/-- What is read off the ends of edges is the same. -/
theorem map_filter (h : Alike g g') (p : ν × ν → Bool) {β : Type} (f : ν × ν → β) :
    ((g'.edges.filter fun e => p (e.source, e.target)).map fun e => f (e.source, e.target)) =
      (g.edges.filter fun e => p (e.source, e.target)).map fun e => f (e.source, e.target) := by
  -- both sides are read off the list of ends
  have hread : ∀ g : Graph ν,
      ((g.edges.filter fun e => p (e.source, e.target)).map fun e => f (e.source, e.target)) =
        ((g.edges.map fun e => (e.source, e.target)).filter p).map f := by
    intro g
    rw [List.filter_map, List.map_map]
    rfl
  rw [hread, hread, h.ends]

theorem successors_eq (h : Alike g g') (n : ν) : g'.successors n = g.successors n :=
  congrArg List.eraseDups (h.map_filter (fun x => x.1 == n) Prod.snd)

theorem predecessors_eq (h : Alike g g') (n : ν) : g'.predecessors n = g.predecessors n :=
  congrArg List.eraseDups (h.map_filter (fun x => x.2 == n) Prod.fst)

/-- `collect` sees predecessors only. -/
theorem collect_eq (h : Alike g g') (visited pending : List ν) :
    g'.collect visited pending = g.collect visited pending := by
  fun_induction collect g visited pending with
  | case1 visited => rw [collect]
  | case2 visited n pending hn ih => rw [collect, if_pos hn, ih]
  | case3 visited n pending hn ih => rw [collect, if_neg hn, h.predecessors_eq, ih]

theorem transitivePredecessors_eq [Labelled ν] (h : Alike g g') {n : ν} (hn : n ∈ g.nodes) :
    g'.transitivePredecessors (some n) = g.transitivePredecessors (some n) := by
  simp [transitivePredecessors, predecessorsOf, member, h.nodes, hn, h.predecessors_eq,
    h.collect_eq]

end Alike

theorem mem_successors_iff_listing {s t : ν} :
    t ∈ g.successors s ↔ (s, t) ∈ g.listing.map fun e => (e.source, e.target) := by
  rw [mem_successors, List.mem_map]
  refine exists_congr fun e => and_congr g.listing_perm.mem_iff.symm ?_
  rw [Prod.mk.injEq]

/-- `sinks` does not depend on the order of edges, or on how many are parallel. -/
theorem sinks_congr (hnodes : g'.nodes = g.nodes)
    (h : ∀ s t, t ∈ g'.successors s ↔ t ∈ g.successors s) : g'.sinks = g.sinks := by
  have hpredecessors : ∀ n, (g'.predecessors n).isEmpty = (g.predecessors n).isEmpty := by
    intro n
    rw [Bool.eq_iff_iff, List.isEmpty_iff, List.isEmpty_iff]
    simp only [List.eq_nil_iff_forall_not_mem, mem_predecessors_iff, h]
  have hsuccessors : ∀ n, (g'.successors n).isEmpty = (g.successors n).isEmpty := by
    intro n
    rw [Bool.eq_iff_iff, List.isEmpty_iff, List.isEmpty_iff]
    simp only [List.eq_nil_iff_forall_not_mem, h]
  simp only [sinks, hnodes, hpredecessors, hsuccessors]

section Related

variable {R : Edge ν → Edge ν → Prop}
  (hends : ∀ e e', R e e' → e'.source = e.source ∧ e'.target = e.target)
  (hnodes : g'.nodes = g.nodes) (h : List.Forall₂ R g.edges g'.edges)

include hends hnodes h

omit [DecidableEq ν] in
theorem alike_of_forall₂ : Alike g g' := by
  refine ⟨hnodes, map_eq_of_forall₂ (fun e e' he => ?_) h⟩
  obtain ⟨hsource, htarget⟩ := hends e e' he
  rw [hsource, htarget]

/-- **Edges that are related one by one** are listed at the same places. -/
theorem forall₂_listing : List.Forall₂ R g.listing g'.listing := by
  -- edges are selected by their ends, which related edges share
  have hfilter : ∀ (p : ν × ν → Bool) {l l' : List (Edge ν)}, List.Forall₂ R l l' →
      List.Forall₂ R (l.filter fun e => p (e.source, e.target))
        (l'.filter fun e => p (e.source, e.target)) := by
    intro p l l' hl
    refine List.rel_filter (fun e e' he => ?_) hl
    obtain ⟨hsource, htarget⟩ := hends e e' he
    show p (e.source, e.target) = true ↔ p (e'.source, e'.target) = true
    rw [hsource, htarget]
  have halike := alike_of_forall₂ hends hnodes h
  rw [listing, listing, hnodes]
  refine forall₂_flatMap fun s _ => ?_
  rw [halike.successors_eq]
  exact forall₂_flatMap fun t _ => hfilter (fun x => x.2 == t) (hfilter (fun x => x.1 == s) h)

end Related

end Graph

end Dependence
