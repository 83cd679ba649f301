import Dependence.Proofs.Dominance.Immediate
import Dependence.Proofs.Search
import Mathlib.Tactic

/-!
# A crawl is a reverse post-order

A crawl works off a stack, and is started many times: for each successor of the head, then for each
key that is still unseen. `search` is depth-first search by recursion, where a call goes through the
successors of one node. Both leave nodes in the same order: the nodes that the innermost node of the
stack has still to try are those that the innermost call has still to go through
(`resume_search`). Starting again for one node after the other is a call for all of them
(`foldl_enter_eq`), so a crawl is one search from the head, in the graph where the head leads to the
extra roots as well (`order_crawl`).

What is known of a post-order is said for one call (`Leaves`). An edge from a node that the call
leaves ends at a node that was seen before the call, or at one that is left earlier, or it leads
back to a node under way, and from there a way leads to its beginning (`Classified`). In a whole
search nothing was seen before: where an edge does not go forward in the order, a way leads back
(`lt_or_reaches_of_leads`).

* `crawl_postorder` — the order of a crawl, its edges and its extra roots.
-/

namespace Dependence.Digraph

open Relation

variable {ν : Type} [BEq ν]

/-! ### Depth-first search by recursion -/

/-- **One call of a depth-first search**: go through the nodes one after the other. A node that was
visited is passed over. Any other is visited, a call is made for its successors, and then it is
recorded. -/
def search [EquivBEq ν] (g : Digraph ν) (s : Trail ν) : List ν → s.Further
  | [] => ⟨s, List.Subset.refl s.visited⟩
  | n :: rest =>
    if s.visited.contains n then search g s rest
    else
      let inner := search g (s.visit n) (g.successors n)
      (search g (inner.1.record n) rest).since
        (List.Subset.trans (s.visited_subset_visit n) inner.2)
termination_by ns => unseenWork s.visited g.entries + ns.length
decreasing_by
  · simp only [List.length_cons]; omega
  all_goals
    have hle := unseenWork_cons_add_le
      (eq_false_of_ne_true ‹¬ s.visited.contains n = true›) g.entries
  · simp only [Trail.visit, List.length_cons, successors, OrderedMap.find?]
    omega
  · -- the inner call has visited more nodes, so less work is left
    refine Nat.lt_of_le_of_lt (Nat.add_le_add_right (unseenWork_mono inner.2 g.entries) _) ?_
    simp only [Trail.visit, List.length_cons]
    omega

/-- **The finishing order** of the depth-first `search` from `head`. -/
def postorder [EquivBEq ν] (g : Digraph ν) (head : ν) : List ν :=
  (g.search .start [head]).1.recorded

/-! ### Ways, and edges to further nodes -/

/-- A way leads from `a` to a node that is the same as `b`. -/
def Reaches (g : Digraph ν) (a b : ν) : Prop := ∃ m, (m == b) = true ∧ ReflTransGen g.Leads a m

/-- The graph `g` with edges from `head` to `roots`, which come after its own. -/
def attach (g : Digraph ν) (head : ν) (roots : List ν) : Digraph ν :=
  g.upsert head fun row => row.getD [] ++ roots

theorem Reaches.of_beq {g : Digraph ν} {a b : ν} (h : (a == b) = true) : g.Reaches a b :=
  ⟨a, h, .refl⟩

theorem Reaches.head {g : Digraph ν} {a b c : ν} (hac : g.Leads a c) (hcb : g.Reaches c b) :
    g.Reaches a b := by
  obtain ⟨m, hm, hway⟩ := hcb
  exact ⟨m, hm, .head hac hway⟩

variable [EquivBEq ν] {g : Digraph ν} {head : ν}

theorem Reaches.congr {a a' b b' : ν} (ha : (a == a') = true) (hb : (b == b') = true)
    (h : g.Reaches a b) : g.Reaches a' b' := by
  obtain ⟨m, hm, hway⟩ := h
  -- only the first edge depends on how the beginning is spelt
  rcases hway.cases_head with rfl | ⟨c, hac, hcm⟩
  · exact .of_beq (BEq.trans (BEq.symm ha) (BEq.trans hm hb))
  · exact ⟨m, BEq.trans hm hb, .head ((leads_congr ha BEq.rfl).1 hac) hcm⟩

theorem successors_attach (g : Digraph ν) (head : ν) (roots : List ν) (n : ν) :
    (g.attach head roots).successors n =
      if n == head then g.successors n ++ roots else g.successors n := by
  rw [attach, successors, OrderedMap.find?_upsert, BEq.comm]
  split
  · rename_i hn
    rw [successors, g.find?_congr hn]
    rfl
  · rfl

theorem leads_attach {c : Crawl ν} {a b : ν} :
    (g.attach head c.extraRoots).Leads a b ↔ g.Attached head c a b := by
  rw [Leads, successors_attach, Attached, Leads]
  by_cases ha : (a == head) = true
  · rw [if_pos ha, List.contains_append, Bool.or_eq_true, and_iff_right ha]
  · rw [if_neg ha, or_iff_left fun h => ha h.1]

/-! ### Calls of a search -/

theorem search_nil (s : Trail ν) : (g.search s []).1 = s := by rw [search]

theorem search_cons_of_visited {s : Trail ν} {n : ν} (hn : s.visited.contains n = true)
    (rest : List ν) : (g.search s (n :: rest)).1 = (g.search s rest).1 := by
  rw [search, if_pos hn]

theorem search_cons_of_new {s : Trail ν} {n : ν} (hn : ¬ s.visited.contains n = true)
    (rest : List ν) :
    (g.search s (n :: rest)).1 =
      (g.search ((g.search (s.visit n) (g.successors n)).1.record n) rest).1 := by
  rw [search, if_neg hn]
  rfl

/-- A call for two lists is two calls. -/
theorem search_append (s : Trail ν) (ns rest : List ν) :
    (g.search s (ns ++ rest)).1 = (g.search (g.search s ns).1 rest).1 := by
  induction s, ns using search.induct g with
  | case1 s => rw [search_nil, List.nil_append]
  | case2 s n ns hn ih =>
    rw [List.cons_append, search_cons_of_visited hn, search_cons_of_visited hn, ih]
  | case3 s n ns hn inner _ ih =>
    rw [List.cons_append, search_cons_of_new hn, search_cons_of_new hn, ih]

/-- `search` does not look at the successors of nodes that it has visited. -/
theorem search_congr {g' : Digraph ν} {s : Trail ν}
    (h : ∀ n, s.visited.contains n = false → g.successors n = g'.successors n) (ns : List ν) :
    (g.search s ns).1 = (g'.search s ns).1 := by
  induction s, ns using search.induct g with
  | case1 s => rw [search_nil, search_nil]
  | case2 s n ns hn ih => rw [search_cons_of_visited hn, search_cons_of_visited hn, ih h]
  | case3 s n ns hn inner ih₁ ih₂ =>
    -- the two calls of the step start with more visited nodes
    have hlater : ∀ t : Trail ν, s.visited ⊆ t.visited → ∀ m, t.visited.contains m = false →
        g.successors m = g'.successors m := by
      intro t hst m hm
      refine h m (eq_false_of_ne_true fun hs => ?_)
      rw [contains_of_subset hst hs] at hm
      cases hm
    have hvisit := s.visited_subset_visit n
    rw [search_cons_of_new hn, search_cons_of_new hn,
      ih₂ (hlater (inner.1.record n) (List.Subset.trans hvisit inner.2)),
      ih₁ (hlater (s.visit n) hvisit), h n (eq_false_of_ne_true hn)]

/-! ### The visit with a stack -/

/-- `descend` with `stack`, from where a `search` has left the trail `s`. -/
def resume (g : Digraph ν) (s : Trail ν) (stack : Stack ν) : List ν × List ν :=
  descend g s.visited s.recorded.reverse stack

/-- The trail `s`, in the form that a visit has it: what was recorded last comes first. -/
def visitOf (s : Trail ν) : List ν × List ν := (s.visited, s.recorded.reverse)

theorem resume_nil (s : Trail ν) : resume g s [] = visitOf s := by
  rw [resume, descend, visitOf]

theorem resume_leave (s : Trail ν) (n : ν) (stack : Stack ν) :
    resume g s ((n, []) :: stack) = resume g (s.record n) stack := by
  rw [resume, descend, resume, Trail.record, List.reverse_append, List.reverse_singleton,
    List.singleton_append]

theorem resume_try (s : Trail ν) (n c : ν) (cs : List ν) (stack : Stack ν) :
    resume g s ((n, c :: cs) :: stack) =
      if s.visited.contains c then resume g s ((n, cs) :: stack)
      else resume g (s.visit c) ((c, g.successors c) :: (n, cs) :: stack) := by
  rw [resume, descend]
  rfl

/-- **What the innermost node has to try is a call**: after it the node is left, and the visit goes
on with the node around it. -/
theorem resume_search (s : Trail ν) (cs : List ν) (n : ν) (stack : Stack ν) :
    resume g s ((n, cs) :: stack) = resume g ((g.search s cs).1.record n) stack := by
  -- along the calls; a new node is tried on top of the stack, with the rest of `cs` below it
  induction s, cs using search.induct g generalizing n stack with
  | case1 s => rw [search_nil, resume_leave]
  | case2 s c cs hc ih => rw [resume_try, if_pos hc, ih, search_cons_of_visited hc]
  | case3 s c cs hc inner ih₁ ih₂ =>
    rw [resume_try, if_neg hc, ih₁, ih₂, search_cons_of_new hc]

/-- `enter` is a call of `search` for one node. -/
theorem enter_eq (s : Trail ν) (n : ν) :
    enter g (visitOf s) n = visitOf (g.search s [n]).1 := by
  by_cases hn : s.visited.contains n = true
  · rw [search_cons_of_visited hn, search_nil]
    exact if_pos hn
  · have hdescend : enter g (visitOf s) n = resume g (s.visit n) [(n, g.successors n)] := if_neg hn
    rw [hdescend, resume_search, resume_nil, search_cons_of_new hn, search_nil]

/-- **`enter` at one node after the other** is a call of `search` for all of them. -/
theorem foldl_enter_eq (ns : List ν) (s : Trail ν) :
    ns.foldl (enter g) (visitOf s) = visitOf (g.search s ns).1 := by
  induction ns generalizing s with
  | nil => rw [search_nil, List.foldl_nil]
  | cons n ns ih => rw [List.foldl_cons, enter_eq, ih, ← search_append, List.singleton_append]

/-- The second phase of a crawl is `enter` at those keys that become extra roots. -/
theorem foldl_enterRoot_eq (keys : List ν) (state : List ν × (List ν × List ν)) :
    ∃ extra : List ν, extra.Sublist keys ∧
      keys.foldl (enterRoot g) state = (state.1 ++ extra, extra.foldl (enter g) state.2) := by
  induction keys generalizing state with
  | nil => exact ⟨[], .slnil, by rw [List.append_nil]; rfl⟩
  | cons k keys ih =>
    obtain ⟨extra, hsub, hfold⟩ := ih (enterRoot g state k)
    rw [List.foldl_cons, hfold]
    -- a key that was seen is passed over, any other is an extra root
    by_cases hk : state.2.1.contains k = true
    · refine ⟨extra, hsub.cons k, ?_⟩
      rw [enterRoot, if_pos hk]
    · refine ⟨k :: extra, hsub.cons_cons k, ?_⟩
      rw [enterRoot, if_neg hk, List.append_assoc]
      rfl

/-- **`crawl` is one `search`**: for the successors of the head, and then for the extra roots. -/
theorem crawl_eq_search (g : Digraph ν) (head : ν) :
    (g.crawl head).extraRoots.Sublist g.keys ∧
      (g.crawl head).order = head :: (g.search (Trail.start.visit head)
        (g.successors head ++ (g.crawl head).extraRoots)).1.recorded.reverse := by
  obtain ⟨extra, hsub, hfold⟩ := foldl_enterRoot_eq (g := g) g.keys ([], reached g head)
  -- the two phases are two calls, one after the other
  have hreached : reached g head =
      visitOf (g.search (Trail.start.visit head) (g.successors head)).1 :=
    foldl_enter_eq (g.successors head) (Trail.start.visit head)
  rw [crawl_eq, hfold, hreached, foldl_enter_eq, ← search_append]
  exact ⟨hsub, rfl⟩

theorem postorder_attach (g : Digraph ν) (head : ν) (roots : List ν) :
    (g.attach head roots).postorder head =
      (g.search (Trail.start.visit head) (g.successors head ++ roots)).1.recorded ++ [head] := by
  have hnew : ¬ (Trail.start : Trail ν).visited.contains head = true := Bool.false_ne_true
  have hsuccessors : (g.attach head roots).successors head = g.successors head ++ roots := by
    rw [successors_attach, if_pos BEq.rfl]
  -- the head has been visited when its successors are, so its further edges are not looked at
  have hsame : ∀ n, (Trail.start.visit head).visited.contains n = false →
      (g.attach head roots).successors n = g.successors n := by
    intro n hn
    rw [Trail.visit, List.contains_cons, Bool.or_eq_false_iff] at hn
    rw [successors_attach, if_neg (by rw [hn.1]; exact Bool.false_ne_true)]
  rw [postorder, search_cons_of_new hnew, search_nil, hsuccessors, search_congr hsame]
  rfl

/-- **The order of `crawl`** is the reverse of a `postorder`. -/
theorem order_crawl (g : Digraph ν) (head : ν) :
    (g.crawl head).order =
      ((g.attach head (g.crawl head).extraRoots).postorder head).reverse := by
  rw [postorder_attach, List.reverse_append, List.reverse_singleton, List.singleton_append]
  exact (crawl_eq_search g head).2

/-! ### Where edges end -/

/-- **An edge from `u` to `v` is classified**: when `u` is left, `v` was `seen` before the call, or
is among those `left` earlier in it, or a way leads back to `u`. -/
def Classified (g : Digraph ν) (seen left : List ν) (u v : ν) : Prop :=
  seen.contains v = true ∨ (∃ v', (v' == v) = true ∧ [v', u].Sublist left) ∨ g.Reaches v u

namespace Classified

variable {seen left : List ν} {u v : ν}

omit [EquivBEq ν] in
theorem mono (h : g.Classified seen left u v) {left' : List ν} (hsub : left.Sublist left') :
    g.Classified seen left' u v := by
  refine h.imp_right (Or.imp_left fun hearlier => ?_)
  obtain ⟨v', hv', hsub'⟩ := hearlier
  exact ⟨v', hv', hsub'.trans hsub⟩

/-- An edge to the node `n` under way is one from which a way leads back. -/
theorem of_visit {n : ν} (h : g.Classified (n :: seen) left u v) (hreach : g.Reaches n u) :
    g.Classified seen left u v := by
  rcases h with hseen | hlater
  · rw [List.contains_cons, Bool.or_eq_true] at hseen
    rcases hseen with hvn | hseen
    · exact .inr (.inr (hreach.congr (BEq.symm hvn) BEq.rfl))
    · exact .inl hseen
  · exact .inr hlater

omit [EquivBEq ν] in
/-- What was seen since `seen` was left in the meantime (`before`), and so stands before `u`. -/
theorem of_left {seen' before : List ν} (h : g.Classified seen' left u v) (hu : u ∈ left)
    (hseen' : seen'.contains v = true →
      seen.contains v = true ∨ ∃ v' ∈ before, (v' == v) = true) :
    g.Classified seen (before ++ left) u v := by
  rcases h with hseen | hlater
  · refine (hseen' hseen).imp_right fun hbefore => .inl ?_
    obtain ⟨v', hv', hvv'⟩ := hbefore
    exact ⟨v', hvv', (List.singleton_sublist.2 hv').append (List.singleton_sublist.2 hu)⟩
  · exact mono (.inr hlater) (List.sublist_append_right before left)

end Classified

/-! ### What a call leaves -/

/-- **A call for nodes `ns`**, which finds the trail `s` and leaves the trail `t`, leaves the nodes
`left`, in this order. -/
structure Leaves (g : Digraph ν) (s : Trail ν) (ns : List ν) (t : Trail ν) (left : List ν) :
    Prop where
  recorded : t.recorded = s.recorded ++ left
  /-- What was visited in the call was left in it. -/
  visited : ∀ n, t.visited.contains n = (s.visited.contains n || left.contains n)
  called : ∀ n ∈ ns, t.visited.contains n = true
  /-- Nodes are left that can be reached from those of the call. -/
  reach : ∀ u ∈ left, ∃ n ∈ ns, g.Reaches n u
  edge : ∀ u ∈ left, ∀ v, g.Leads u v → g.Classified s.visited left u v

namespace Leaves

omit [EquivBEq ν] in
theorem nil (s : Trail ν) : Leaves g s [] s [] where
  recorded := (List.append_nil _).symm
  visited _ := (Bool.or_false _).symm
  called := nofun
  reach := nofun
  edge := nofun

omit [EquivBEq ν] in
theorem skip {s t : Trail ν} {n : ν} {rest left : List ν} (hn : s.visited.contains n = true)
    (h : Leaves g s rest t left) : Leaves g s (n :: rest) t left where
  recorded := h.recorded
  visited := h.visited
  called := List.forall_mem_cons.2 ⟨by rw [h.visited, hn, Bool.true_or], h.called⟩
  reach u hu := by
    obtain ⟨m, hm, hreach⟩ := h.reach u hu
    exact ⟨m, List.mem_cons_of_mem n hm, hreach⟩
  edge := h.edge

section Node

variable {s t₁ : Trail ν} {n : ν} {left₁ : List ν}
  (h₁ : Leaves g (s.visit n) (g.successors n) t₁ left₁)

include h₁

/-- What is left in the call for the successors of `n` can be reached from `n`. -/
theorem reach_node {u : ν} (hu : u ∈ left₁) : g.Reaches n u := by
  obtain ⟨m, hm, hreach⟩ := h₁.reach u hu
  exact hreach.head (List.contains_iff_exists_mem_beq.2 ⟨m, hm, BEq.rfl⟩)

/-- What was visited after the call: before it, `n` itself, or what the call left. -/
theorem cases_visited {v : ν} (hv : t₁.visited.contains v = true) :
    s.visited.contains v = true ∨ (v == n) = true ∨ ∃ v' ∈ left₁, (v' == v) = true := by
  rw [h₁.visited, Trail.visit, List.contains_cons, Bool.or_eq_true, Bool.or_eq_true] at hv
  rcases hv with (hvn | hs) | hleft
  · exact .inr (.inl hvn)
  · exact .inl hs
  · obtain ⟨v', hv', hvv'⟩ := List.contains_iff_exists_mem_beq.1 hleft
    exact .inr (.inr ⟨v', hv', BEq.symm hvv'⟩)

/-- The edges of `n` itself, which is left when all of its successors have been visited. -/
theorem edge_node {v : ν} (hnv : g.Leads n v) :
    g.Classified s.visited (left₁ ++ [n]) n v := by
  obtain ⟨m, hm, hvm⟩ := List.contains_iff_exists_mem_beq.1 hnv
  have hseen : t₁.visited.contains v = true := by
    rw [contains_congr hvm]
    exact h₁.called m hm
  -- an edge from `n` to itself leads back at once
  rcases h₁.cases_visited hseen with hs | hvn | ⟨v', hv', hvv'⟩
  · exact .inl hs
  · exact .inr (.inr (.of_beq hvn))
  · refine .inr (.inl ⟨v', hvv', ?_⟩)
    exact (List.singleton_sublist.2 hv').append (List.Sublist.refl [n])

/-- **A node `n` that is new**: what its call leaves comes first, then `n`, then the rest. -/
theorem node {t : Trail ν} {rest left₂ : List ν} (h₂ : Leaves g (t₁.record n) rest t left₂) :
    Leaves g s (n :: rest) t (left₁ ++ [n] ++ left₂) where
  recorded := by
    rw [h₂.recorded, Trail.record, h₁.recorded, Trail.visit]
    simp only [List.append_assoc]
  visited m := by
    rw [h₂.visited, Trail.record, h₁.visited, Trail.visit, List.contains_cons,
      List.contains_append, List.contains_append, List.contains_cons, List.contains_nil,
      Bool.or_false]
    ac_rfl
  called := by
    refine List.forall_mem_cons.2 ⟨?_, h₂.called⟩
    rw [h₂.visited, Trail.record, h₁.visited, Trail.visit, List.contains_cons, BEq.rfl,
      Bool.true_or, Bool.true_or, Bool.true_or]
  reach u hu := by
    rcases List.mem_append.1 hu with hu | hu
    · refine ⟨n, List.mem_cons_self, ?_⟩
      rcases List.mem_append.1 hu with hu | hu
      · exact h₁.reach_node hu
      · obtain rfl := List.mem_singleton.1 hu
        exact .of_beq BEq.rfl
    · obtain ⟨m, hm, hreach⟩ := h₂.reach u hu
      exact ⟨m, List.mem_cons_of_mem n hm, hreach⟩
  edge u hu v huv := by
    rcases List.mem_append.1 hu with hu | hu
    · refine Classified.mono ?_ (List.sublist_append_left (left₁ ++ [n]) left₂)
      rcases List.mem_append.1 hu with hu | hu
      · -- `u` is left while `n` is under way, so an edge to `n` leads back
        exact ((h₁.edge u hu v huv).of_visit (h₁.reach_node hu)).mono
          (List.sublist_append_left left₁ [n])
      · obtain rfl := List.mem_singleton.1 hu
        exact h₁.edge_node huv
    · -- `u` is left after `n`, and what was left with `n` stands before it
      refine (h₂.edge u hu v huv).of_left hu fun hseen => ?_
      refine (h₁.cases_visited hseen).imp_right fun hleft => ?_
      rcases hleft with hvn | ⟨v', hv', hvv'⟩
      · exact ⟨n, List.mem_append_right _ List.mem_cons_self, BEq.symm hvn⟩
      · exact ⟨v', List.mem_append_left _ hv', hvv'⟩

end Node

end Leaves

/-- **Every call of `search`** leaves some nodes as `Leaves` says. -/
theorem search_leaves (s : Trail ν) (ns : List ν) :
    ∃ left, Leaves g s ns (g.search s ns).1 left := by
  induction s, ns using search.induct g with
  | case1 s =>
    rw [search_nil]
    exact ⟨[], .nil s⟩
  | case2 s n ns hn ih =>
    obtain ⟨left, h⟩ := ih
    rw [search_cons_of_visited hn]
    exact ⟨left, h.skip hn⟩
  | case3 s n ns hn inner ih₁ ih₂ =>
    obtain ⟨left₁, h₁⟩ := ih₁
    obtain ⟨left₂, h₂⟩ := ih₂
    rw [search_cons_of_new hn]
    exact ⟨left₁ ++ [n] ++ left₂, h₁.node h₂⟩

/-- In a `postorder`, an edge ends at a node that stands before its beginning, or a way leads back.
-/
theorem edge_postorder {u v : ν} (hu : u ∈ g.postorder head) (huv : g.Leads u v) :
    (∃ v', (v' == v) = true ∧ [v', u].Sublist (g.postorder head)) ∨ g.Reaches v u := by
  obtain ⟨left, h⟩ := search_leaves (g := g) .start [head]
  -- the whole search starts with nothing seen
  have hpost : g.postorder head = left := h.recorded
  rw [hpost] at hu ⊢
  exact (h.edge u hu v huv).resolve_left Bool.false_ne_true

/-! ### The order of a crawl -/

/-- **An edge goes forward** in the order of `crawl`, or a way leads back. -/
theorem lt_or_reaches_of_leads {u v : ν}
    (huv : (g.attach head (g.crawl head).extraRoots).Leads u v) :
    number (g.crawl head).order u < number (g.crawl head).order v ∨
      (g.attach head (g.crawl head).extraRoots).Reaches v u := by
  have hcovers := crawl_spec g head
  -- only keys and the head have edges, and these are listed
  have hmentions : g.Mentions head u := by
    rcases leads_attach.1 huv with hlead | ⟨hhead, -⟩
    · obtain ⟨row, hrow, hru, -⟩ := leads_iff.1 hlead
      exact .inr (.inl (OrderedMap.contains_iff.2 ⟨row, hrow, hru⟩))
    · exact .inl hhead
  obtain ⟨u', hu', huu'⟩ :=
    List.contains_iff_exists_mem_beq.1 (hcovers.contains_order_iff.2 hmentions)
  rw [order_crawl, List.mem_reverse] at hu'
  rcases edge_postorder hu' ((leads_congr huu' BEq.rfl).1 huv) with ⟨v', hv', hsub⟩ | hback
  · -- what is left earlier is listed later
    have hforward : [u', v'].Sublist (g.crawl head).order := by
      rw [order_crawl]
      exact hsub.reverse
    rw [number_congr huu', ← number_congr hv']
    exact .inl (number_lt_number hcovers.distinct hforward)
  · exact .inr (hback.congr BEq.rfl (BEq.symm huu'))

/-- Where no way leads in a circle, every edge goes forward. -/
theorem lt_of_leads (hacyclic : ∀ x, ¬ TransGen (g.attach head (g.crawl head).extraRoots).Leads x x)
    {u v : ν} (huv : (g.attach head (g.crawl head).extraRoots).Leads u v) :
    number (g.crawl head).order u < number (g.crawl head).order v := by
  refine (lt_or_reaches_of_leads huv).resolve_right fun hback => ?_
  -- the way back ends at a spelling of `u`, which has the same edges
  obtain ⟨m, hm, hway⟩ := hback
  exact hacyclic m (.head' ((leads_congr (BEq.symm hm) BEq.rfl).1 huv) hway)

/-- A node other than the head stands behind one that leads to it (`Covers.parent`). -/
theorem exists_leads_lt {v : ν} (hv : g.Mentions head v) (hne : (v == head) = false) :
    ∃ u, (g.attach head (g.crawl head).extraRoots).Leads u v ∧
      number (g.crawl head).order u < number (g.crawl head).order v := by
  have hcovers := crawl_spec g head
  obtain ⟨v', hv', hvv'⟩ :=
    List.contains_iff_exists_mem_beq.1 (hcovers.contains_order_iff.2 hv)
  rcases hcovers.parent v' hv' with rfl | ⟨u, huv, hsub⟩
  · rw [hvv'] at hne
    cases hne
  · refine ⟨u, leads_attach.2 ((Covers.attached_congr BEq.rfl hvv').2 huv), ?_⟩
    rw [number_congr hvv']
    exact number_lt_number hcovers.distinct hsub

/-- No extra root is reached from one before it: what a root reaches has been seen when the next key
has its turn. -/
theorem pairwise_foldl_enterRoot (keys : List ν) (state : List ν × (List ν × List ν))
    (h : Left g head (Root g head state.1) state.2)
    (hhead : ∀ v, g.Leads head v → state.2.1.contains v = true)
    (hroots : ∀ r ∈ state.1, state.2.1.contains r = true)
    (hpair : state.1.Pairwise fun r r' => ¬ g.Reaches r r') :
    (keys.foldl (enterRoot g) state).1.Pairwise fun r r' => ¬ g.Reaches r r' := by
  induction keys generalizing state with
  | nil => exact hpair
  | cons k keys ih =>
    obtain ⟨hleft, hkeep, hnew⟩ := enterRoot_spec h k
    refine ih (enterRoot g state k) hleft (fun v hv => hkeep v (.inl (hhead v hv))) ?_ ?_
    · intro r hr
      exact hkeep r ((hnew r hr).imp (hroots r) And.left)
    · unfold enterRoot
      split
      · exact hpair
      · -- a new root had not been seen, so no root before reaches it
        rename_i hk
        refine List.pairwise_append.2 ⟨hpair, List.pairwise_singleton _ _, ?_⟩
        rintro r hr k' hk' ⟨m, hm, hway⟩
        obtain rfl := List.mem_singleton.1 hk'
        refine hk ?_
        rw [← contains_congr hm]
        exact Left.contains_of_reach h hhead (hroots r hr) hway

theorem pairwise_extraRoots (g : Digraph ν) (head : ν) :
    (g.crawl head).extraRoots.Pairwise fun r r' => ¬ g.Reaches r r' := by
  obtain ⟨hleft, hseen⟩ := reached_spec g head
  exact pairwise_foldl_enterRoot g.keys ([], reached g head) hleft (fun v hv => hseen v (.inr hv))
    nofun .nil

/-- **A crawl is a reverse post-order of the whole graph**, for every graph and every head. Let the
head lead to the extra roots as well, after its own successors.

* The order starts with the head, and has every node of the graph once.
* It is the reverse of the finishing order of the depth-first search from the head.
* Every node but the head stands behind one that leads to it.
* Where an edge does not go forward, a way leads back. So every edge goes forward if no way leads in
  a circle.
* The extra roots are keys, in the order of the keys. None can be reached, in the graph as it is,
  from the head or from an extra root before it. -/
theorem crawl_postorder (g : Digraph ν) (head : ν) :
    let order := (g.crawl head).order
    let extra := (g.crawl head).extraRoots
    let g' := g.attach head extra
    (∃ rest, order = head :: rest) ∧ Distinct order ∧
      (∀ n, order.contains n = true ↔ g.Mentions head n) ∧
      order = (g'.postorder head).reverse ∧
      (∀ v, g.Mentions head v → (v == head) = false →
        ∃ u, g'.Leads u v ∧ number order u < number order v) ∧
      (∀ u v, g'.Leads u v → number order v ≤ number order u → g'.Reaches v u) ∧
      ((∀ x, ¬ TransGen g'.Leads x x) →
        ∀ u v, g'.Leads u v → number order u < number order v) ∧
      extra.Sublist g.keys ∧ (∀ r ∈ extra, ¬ g.Reaches head r) ∧
      extra.Pairwise fun r r' => ¬ g.Reaches r r' := by
  have hcovers := crawl_spec g head
  refine ⟨hcovers.head_first, hcovers.distinct, fun n => hcovers.contains_order_iff,
    order_crawl g head, fun v hv hne => exists_leads_lt hv hne, ?_,
    fun hacyclic u v huv => lt_of_leads hacyclic huv, (crawl_eq_search g head).1, ?_,
    pairwise_extraRoots g head⟩
  · intro u v huv hle
    exact (lt_or_reaches_of_leads huv).resolve_left (Nat.not_lt.2 hle)
  · rintro r hr ⟨m, hm, hway⟩
    have hne := (hcovers.roots r hr).2 m hway
    rw [BEq.symm hm] at hne
    cases hne

/-- The loop that the head does not reach comes right behind the head, though it is visited last.
One edge of the other loop goes from its last node to its first one, under another spelling. -/
theorem crawl_postorder_irreducible :
    (irreducible.crawl (.int 0)).order = [.int 0, .int 3, .int 4, .int 1, .int 5, .int 2] ∧
      (irreducible.crawl (.int 0)).extraRoots = [.int 3] ∧
      ((irreducible.attach (.int 0) [.int 3]).postorder (.int 0)).reverse =
        [.int 0, .int 3, .int 4, .int 1, .int 5, .int 2] ∧
      (irreducible.attach (.int 0) [.int 3]).Reaches (.bool true) (.int 2) ∧
      ¬ irreducible.Reaches (.int 0) (.int 3) := by
  have horder : (irreducible.crawl (.int 0)).order =
      [.int 0, .int 3, .int 4, .int 1, .int 5, .int 2] := by cbv
  have hextra : (irreducible.crawl (.int 0)).extraRoots = [.int 3] := by cbv
  obtain ⟨-, -, -, hpost, -, hback, -, -, hroots, -⟩ := crawl_postorder irreducible (.int 0)
  rw [hextra] at hpost hback hroots
  rw [horder] at hpost hback
  refine ⟨horder, hextra, hpost.symm, ?_, hroots _ List.mem_cons_self⟩
  refine hback (.int 2) (.bool true) ?_ (by decide)
  show ((irreducible.attach (.int 0) [.int 3]).successors (.int 2)).contains (.bool true) = true
  decide

end Dependence.Digraph
