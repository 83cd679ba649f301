import Dependence.Proofs.Digraph.Crawl

/-!
# The extra roots of a crawl

A crawl goes through the keys of a graph in order, and starts again at each one that it has not seen
so far. What it has seen by then is what the head and the keys before can reach
(`reach_of_contains_descend`, `Left.contains_of_reach`). So the extra roots are the keys that
neither the head nor any key before them reaches (`mem_extraRoots_crawl`): which ones these are is
decided by the order of the keys.
-/

namespace Dependence

open Relation

section Uncovered

variable {α : Type} {covers : α → α → Prop} {head : α}

/-- `r` is a member of `order` that is covered neither by `head` nor by a member before it. -/
def Uncovered (covers : α → α → Prop) (head : α) (order : List α) (r : α) : Prop :=
  ∃ before after, order = before ++ r :: after ∧ ∀ s ∈ head :: before, ¬ covers s r

/-- `Uncovered`, with one more member at the end: it covers no one before it. -/
theorem uncovered_append_singleton {order : List α} {k r : α} :
    Uncovered covers head (order ++ [k]) r ↔
      Uncovered covers head order r ∨ r = k ∧ ∀ s ∈ head :: order, ¬ covers s k := by
  constructor
  · rintro ⟨before, after, heq, hnew⟩
    -- the member is the last one, or what comes after it ends with the last one
    rcases List.eq_nil_or_concat after with rfl | ⟨after, last, rfl⟩
    · obtain ⟨rfl, hlast⟩ := List.append_inj' heq rfl
      cases hlast
      exact .inr ⟨rfl, hnew⟩
    · rw [List.concat_eq_append, ← List.cons_append, ← List.append_assoc] at heq
      exact .inl ⟨before, after, (List.append_inj' heq rfl).1, hnew⟩
  · rintro (⟨before, after, rfl, hnew⟩ | ⟨rfl, hnew⟩)
    · exact ⟨before, after ++ [k], by simp, hnew⟩
    · exact ⟨order, [], rfl, hnew⟩

end Uncovered

namespace Digraph

variable {ν : Type} [BEq ν] [LawfulBEq ν] {g : Digraph ν} {head : ν}

/-- **`descend` sees nothing else** than what the nodes under way can reach. -/
theorem reach_of_contains_descend {seen order : List ν} {stack : Stack ν}
    (hpending : ∀ top ∈ stack, ∀ v ∈ top.2, g.Leads top.1 v) {m : ν}
    (hm : (descend g seen order stack).1.contains m = true) :
    seen.contains m = true ∨ ∃ top ∈ stack, ReflTransGen g.Leads top.1 m := by
  fun_induction descend g seen order stack with
  | case1 seen order => exact .inl hm
  | case2 seen order n stack ih =>
    refine (ih (fun top htop => hpending top (List.mem_cons_of_mem _ htop)) hm).imp_right ?_
    rintro ⟨top, htop, hreach⟩
    exact ⟨top, List.mem_cons_of_mem _ htop, hreach⟩
  | case3 seen order n c rest stack hc ih =>
    -- `n` has less to try, and is still under way
    obtain ⟨hn, hstack⟩ := List.forall_mem_cons.1 hpending
    have hpending' : ∀ top ∈ (n, rest) :: stack, ∀ v ∈ top.2, g.Leads top.1 v :=
      List.forall_mem_cons.2 ⟨fun v hv => hn v (List.mem_cons_of_mem _ hv), hstack⟩
    refine (ih hpending' hm).imp_right ?_
    rintro ⟨top, htop, hreach⟩
    rcases List.mem_cons.1 htop with rfl | htop
    · exact ⟨_, List.mem_cons_self, hreach⟩
    · exact ⟨top, List.mem_cons_of_mem _ htop, hreach⟩
  | case4 seen order n c rest stack hc ih =>
    obtain ⟨hn, hstack⟩ := List.forall_mem_cons.1 hpending
    have hnc : g.Leads n c := hn c List.mem_cons_self
    have hpending' : ∀ top ∈ (c, g.successors c) :: (n, rest) :: stack, ∀ v ∈ top.2,
        g.Leads top.1 v := by
      have hrest : ∀ v ∈ rest, g.Leads n v := fun v hv => hn v (List.mem_cons_of_mem _ hv)
      have hc : ∀ v ∈ g.successors c, g.Leads c v := fun v hv => List.contains_iff_mem.2 hv
      exact List.forall_mem_cons.2 ⟨hc, List.forall_mem_cons.2 ⟨hrest, hstack⟩⟩
    -- what is reached from the node entered is reached from the one that leads to it
    rcases ih hpending' hm with hseen | ⟨top, htop, hreach⟩
    · rcases List.mem_cons.1 (List.contains_iff_mem.1 hseen) with rfl | hseen
      · exact .inr ⟨_, List.mem_cons_self, .single hnc⟩
      · exact .inl (List.contains_iff_mem.2 hseen)
    · rcases List.mem_cons.1 htop with rfl | htop
      · exact .inr ⟨_, List.mem_cons_self, .head hnc hreach⟩
      · rcases List.mem_cons.1 htop with rfl | htop
        · exact .inr ⟨_, List.mem_cons_self, hreach⟩
        · exact .inr ⟨top, List.mem_cons_of_mem _ htop, hreach⟩

theorem reach_of_contains_enter {visit : List ν × List ν} {k m : ν}
    (hm : (enter g visit k).1.contains m = true) :
    visit.1.contains m = true ∨ ReflTransGen g.Leads k m := by
  unfold enter at hm
  split at hm
  · exact .inl hm
  · have hpending : ∀ top ∈ [(k, g.successors k)], ∀ v ∈ top.2, g.Leads top.1 v := by
      intro top htop v hv
      obtain rfl := List.mem_singleton.1 htop
      exact List.contains_iff_mem.2 hv
    rcases reach_of_contains_descend hpending hm with hseen | ⟨top, htop, hreach⟩
    · rcases List.mem_cons.1 (List.contains_iff_mem.1 hseen) with rfl | hseen
      · exact .inr .refl
      · exact .inl (List.contains_iff_mem.2 hseen)
    · obtain rfl := List.mem_singleton.1 htop
      exact .inr hreach

/-- `enter` at node after node sees nothing else than what these nodes can reach. -/
theorem reach_of_contains_foldl_enter {ns : List ν} {visit : List ν × List ν} {m : ν}
    (hm : (ns.foldl (enter g) visit).1.contains m = true) :
    visit.1.contains m = true ∨ ∃ n ∈ ns, ReflTransGen g.Leads n m := by
  induction ns generalizing visit with
  | nil => exact .inl hm
  | cons n ns ih =>
    rcases ih hm with hm | ⟨n', hn', hreach⟩
    · exact (reach_of_contains_enter hm).imp_right fun hreach => ⟨n, List.mem_cons_self, hreach⟩
    · exact .inr ⟨n', List.mem_cons_of_mem _ hn', hreach⟩

theorem reach_of_contains_enterRoot {state : List ν × (List ν × List ν)} {k m : ν}
    (hm : (enterRoot g state k).2.1.contains m = true) :
    state.2.1.contains m = true ∨ ReflTransGen g.Leads k m := by
  unfold enterRoot at hm
  split at hm
  · exact .inl hm
  · exact reach_of_contains_enter hm

/-- **The second phase after the keys `before`**: the visit has seen what the head and these keys
reach, and its roots are those that were not covered in their turn. -/
structure Started (g : Digraph ν) (head : ν) (before : List ν)
    (state : List ν × (List ν × List ν)) : Prop where
  left : Left g head (Root g head state.1) state.2
  seen : ∀ m, state.2.1.contains m = true ↔ ∃ s ∈ head :: before, ReflTransGen g.Leads s m
  roots : ∀ r, r ∈ state.1 ↔ Uncovered (ReflTransGen g.Leads) head before r

/-- The second phase starts with what the head reaches (`reached`). -/
theorem started_reached (g : Digraph ν) (head : ν) : Started g head [] ([], reached g head) where
  left := (reached_spec g head).1
  seen m := by
    constructor
    · intro hm
      refine ⟨head, List.mem_cons_self, ?_⟩
      rcases reach_of_contains_foldl_enter hm with hm | ⟨n, hn, hreach⟩
      · obtain rfl := List.mem_singleton.1 (List.contains_iff_mem.1 hm)
        exact .refl
      · exact .head (List.contains_iff_mem.2 hn) hreach
    · rintro ⟨s, hs, hreach⟩
      obtain rfl := List.mem_singleton.1 hs
      exact contains_reached hreach
  roots r := by
    refine ⟨nofun, ?_⟩
    rintro ⟨before, after, heq, -⟩
    simp at heq

/-- **`enterRoot`, one key**: it is passed over if it has been seen, and is a root otherwise. -/
theorem Started.enterRoot {before : List ν} {state : List ν × (List ν × List ν)}
    (h : Started g head before state) (k : ν) :
    Started g head (before ++ [k]) (enterRoot g state k) := by
  obtain ⟨hleft, hkeep, -⟩ := enterRoot_spec h.left k
  refine ⟨hleft, fun m => ?_, fun r => ?_⟩
  · -- seen before, or reached from the new key
    have hsplit : (∃ s ∈ head :: (before ++ [k]), ReflTransGen g.Leads s m) ↔
        state.2.1.contains m = true ∨ ReflTransGen g.Leads k m := by
      rw [h.seen, ← List.cons_append]
      simp only [List.mem_append, List.mem_singleton, or_and_right, exists_or, exists_eq_left]
    rw [hsplit]
    refine ⟨reach_of_contains_enterRoot, ?_⟩
    rintro (hm | hreach)
    · exact hkeep m (.inl hm)
    · -- the key has been seen, so all that it reaches has been
      have hhead : ∀ v, g.Leads head v → (Digraph.enterRoot g state k).2.1.contains v = true :=
        fun v hv => hkeep v (.inl ((h.seen v).2 ⟨head, List.mem_cons_self, .single hv⟩))
      exact Left.contains_of_reach hleft hhead (hkeep k (.inr rfl)) hreach
  · -- `h.seen` decides whether the key is covered
    have hseen : state.2.1.contains k = true ↔
        ¬ ∀ s ∈ head :: before, ¬ ReflTransGen g.Leads s k := by
      rw [h.seen]
      simp only [not_forall, not_not, exists_prop]
    rw [uncovered_append_singleton, ← h.roots]
    unfold Digraph.enterRoot
    split
    · rename_i hk
      exact ⟨.inl, fun hr => hr.resolve_right fun hnew => hseen.1 hk hnew.2⟩
    · rename_i hk
      have hnew : ∀ s ∈ head :: before, ¬ ReflTransGen g.Leads s k := not_not.1 (mt hseen.2 hk)
      rw [List.mem_append, List.mem_singleton]
      exact or_congr_right ⟨fun heq => ⟨heq, hnew⟩, fun hr => hr.1⟩

/-- **`enterRoot`, key after key.** -/
theorem Started.foldl_enterRoot {before : List ν} {state : List ν × (List ν × List ν)}
    (h : Started g head before state) (keys : List ν) :
    Started g head (before ++ keys) (keys.foldl (Digraph.enterRoot g) state) := by
  induction keys generalizing before state with
  | nil => rwa [List.append_nil]
  | cons k keys ih =>
    rw [List.append_cons]
    exact ih (h.enterRoot k)

/-- **`extraRoots`** are the keys that neither the head nor a key before them reaches. -/
theorem mem_extraRoots_crawl {r : ν} :
    r ∈ (g.crawl head).extraRoots ↔ Uncovered (ReflTransGen g.Leads) head g.keys r :=
  ((started_reached g head).foldl_enterRoot g.keys).roots r

end Digraph

end Dependence
