import Dependence.Digraph.Crawl
import Dependence.Proofs.Digraph.Transpose
import Mathlib.Logic.Relation

/-!
# A crawl numbers the whole graph from its head

The nodes that are under way, outermost first, followed by the nodes that have been left, are the
*line* of a visit: the order in which they will be listed in the end. Leaving a node does not move
it in the line, and entering a node puts it behind the node that leads to it. So every node of the
line but a root stands behind one that leads to it, and this is kept by insertion, because a part of
the line stays a part of it (`List.Sublist`).

The clauses of `Visiting` say this and that no successor is forgotten. Each step of a descent keeps
them (`Visiting.leave`, `Visiting.skip`, `Visiting.push`), hence a whole descent does
(`descend_spec`), and a crawl ends with all keys listed:

* `crawl_spec` — the head comes first, every node once, each behind one that leads to it.
-/

namespace Dependence.Digraph

open Relation

variable {ν : Type}

/-- The *line* of a visit: the nodes under way on `stack`, outermost first, then those of `order`.
-/
def line (stack : Stack ν) (order : List ν) : List ν := (stack.map (·.1)).reverse ++ order

/-- A node that is left keeps its place in the line. -/
theorem line_cons (n : ν) (rest : List ν) (stack : Stack ν) (order : List ν) :
    line ((n, rest) :: stack) order = line stack (n :: order) := by
  simp [line]

variable [BEq ν]

/-- No two of `nodes` are the same. -/
abbrev Distinct (nodes : List ν) : Prop := nodes.Pairwise fun a b => (a == b) = false

/-- **A visit under way** from `head`: the nodes `seen`, those left in `order`, those under way on
`stack`, and which nodes count as a `root`. -/
structure Visiting (g : Digraph ν) (head : ν) (root : ν → Prop) (seen order : List ν)
    (stack : Stack ν) : Prop where
  distinct : Distinct (head :: line stack order)
  /-- The nodes seen are the head and those of the line. -/
  seen_eq : ∀ n, seen.contains n = (head :: line stack order).contains n
  /-- A node that is no root stands behind one that leads to it. -/
  parent : ∀ v ∈ line stack order,
    root v ∨ ∃ u, g.Leads u v ∧ [u, v].Sublist (line stack order)
  /-- What a node that was left leads to has been seen. -/
  closed : ∀ u ∈ order, ∀ v, g.Leads u v → seen.contains v = true
  /-- What a node under way leads to has been seen or is still to be tried. -/
  tried : ∀ top ∈ stack, ∀ v, g.Leads top.1 v → top.2.contains v = true ∨ seen.contains v = true
  /-- A node under way leads to what it has still to try. -/
  pending : ∀ top ∈ stack, ∀ v ∈ top.2, g.Leads top.1 v

/-- A `Visiting` with nothing under way. -/
abbrev Left (g : Digraph ν) (head : ν) (root : ν → Prop) (visit : List ν × List ν) : Prop :=
  Visiting g head root visit.1 visit.2 []

namespace Visiting

variable {g : Digraph ν} {head : ν} {root : ν → Prop} {seen order : List ν} {stack : Stack ν}

/-- More nodes may count as roots. -/
theorem mono {root' : ν → Prop} (h : Visiting g head root seen order stack)
    (hroot : ∀ v, root v → root' v) : Visiting g head root' seen order stack :=
  { h with parent := fun v hv => (h.parent v hv).imp_left (hroot v) }

/-- Leaving a node that has nothing left to try keeps `Visiting`. -/
theorem leave {n : ν} (h : Visiting g head root seen order ((n, []) :: stack)) :
    Visiting g head root seen (n :: order) stack where
  distinct := line_cons n [] stack order ▸ h.distinct
  seen_eq := line_cons n [] stack order ▸ h.seen_eq
  parent := line_cons n [] stack order ▸ h.parent
  closed u hu v huv := by
    -- `n` has tried all that it leads to, so it has been seen
    rcases List.mem_cons.1 hu with rfl | hu
    · exact (h.tried _ List.mem_cons_self v huv).resolve_left (by simp)
    · exact h.closed u hu v huv
  tried top htop := h.tried top (List.mem_cons_of_mem _ htop)
  pending top htop := h.pending top (List.mem_cons_of_mem _ htop)

variable [EquivBEq ν]

/-- Passing over a successor `c` that has been seen keeps `Visiting`. -/
theorem skip (above : Stack ν) {n c : ν} {rest : List ν}
    (h : Visiting g head root seen order (above ++ (n, c :: rest) :: stack))
    (hc : seen.contains c = true) :
    Visiting g head root seen order (above ++ (n, rest) :: stack) := by
  have hline : line (above ++ (n, rest) :: stack) order =
      line (above ++ (n, c :: rest) :: stack) order := by simp [line]
  -- nodes under way other than `n` stay with what they have to try
  have hother : ∀ top ∈ above ++ (n, rest) :: stack,
      top ∈ above ++ (n, c :: rest) :: stack ∨ top = (n, rest) := by
    intro top htop
    simp only [List.mem_append, List.mem_cons] at htop ⊢
    tauto
  have hself : (n, c :: rest) ∈ above ++ (n, c :: rest) :: stack :=
    List.mem_append_right _ List.mem_cons_self
  refine ⟨hline ▸ h.distinct, hline ▸ h.seen_eq, hline ▸ h.parent, h.closed, ?_, ?_⟩
  · -- what `n` does not try any more is `c`, in some spelling
    intro top htop v hv
    rcases hother top htop with htop | rfl
    · exact h.tried top htop v hv
    · rcases h.tried _ hself v hv with hrest | hseen
      · rw [List.contains_cons, Bool.or_eq_true] at hrest
        exact hrest.symm.imp_right fun heq => by rw [contains_congr heq, hc]
      · exact .inr hseen
  · intro top htop v hv
    rcases hother top htop with htop | rfl
    · exact h.pending top htop v hv
    · exact h.pending _ hself v (List.mem_cons_of_mem _ hv)

/-- **Entering a node** `c` that has not been seen, as a root or behind a node under way, keeps
`Visiting`. -/
theorem push {c : ν} (h : Visiting g head root seen order stack) (hc : seen.contains c = false)
    (hparent : root c ∨ ∃ top ∈ stack, g.Leads top.1 c) :
    Visiting g head root (c :: seen) order ((c, g.successors c) :: stack) where
  distinct := by
    -- the new node stands in the middle of the line, but repetitions do not see places
    have hnew : (head :: line stack order).contains c = false := h.seen_eq c ▸ hc
    have hperm : (head :: line ((c, g.successors c) :: stack) order).Perm
        (c :: head :: line stack order) := by
      rw [line_cons]
      exact (List.perm_middle.cons head).trans (.swap _ _ _)
    refine (hperm.pairwise_iff fun {a b} hab => by rw [BEq.comm, hab]).2 ?_
    refine List.pairwise_cons.2 ⟨fun x hx => eq_false_of_ne_true fun hcx => ?_, h.distinct⟩
    rw [List.contains_iff_exists_mem_beq.2 ⟨x, hx, hcx⟩] at hnew
    cases hnew
  seen_eq n := by
    have hseen := h.seen_eq n
    simp only [List.contains_cons, line, List.map_cons, List.reverse_cons, List.contains_append,
      List.contains_nil, Bool.or_false] at hseen ⊢
    rw [hseen]
    ac_rfl
  parent v hv := by
    rw [line_cons] at hv ⊢
    -- the line before is a part of the line after
    have hpart : (line stack order).Sublist (line stack (c :: order)) :=
      (List.Sublist.refl _).append (List.sublist_cons_self c order)
    rcases List.mem_append.1 hv with hv | hv
    · exact (h.parent v (List.mem_append_left _ hv)).imp_right
        fun ⟨u, huv, hsub⟩ => ⟨u, huv, hsub.trans hpart⟩
    -- the new node itself stands behind all nodes under way
    rcases List.mem_cons.1 hv with rfl | hv
    · refine hparent.imp_right fun ⟨top, htop, hlead⟩ => ⟨top.1, hlead, ?_⟩
      have htop' : top.1 ∈ (stack.map (·.1)).reverse :=
        List.mem_reverse.2 (List.mem_map_of_mem htop)
      exact (List.singleton_sublist.2 htop').append (List.singleton_sublist.2 List.mem_cons_self)
    · exact (h.parent v (List.mem_append_right _ hv)).imp_right
        fun ⟨u, huv, hsub⟩ => ⟨u, huv, hsub.trans hpart⟩
  closed u hu v huv := by
    rw [List.contains_cons, h.closed u hu v huv, Bool.or_true]
  tried top htop v hv := by
    rcases List.mem_cons.1 htop with rfl | htop
    · exact .inl hv
    · refine (h.tried top htop v hv).imp_right fun hseen => ?_
      rw [List.contains_cons, hseen, Bool.or_true]
  pending top htop v hv := by
    rcases List.mem_cons.1 htop with rfl | htop
    · exact List.contains_iff_exists_mem_beq.2 ⟨v, hv, BEq.rfl⟩
    · exact h.pending top htop v hv

end Visiting

section Visit

variable [EquivBEq ν] {g : Digraph ν} {head : ν}

/-- **`descend`** works off all that is under way. -/
theorem descend_spec {root : ν → Prop} {seen order : List ν} {stack : Stack ν}
    (h : Visiting g head root seen order stack) :
    Left g head root (descend g seen order stack) := by
  -- the branches of `descend`: done, leave, pass over, enter
  fun_induction descend g seen order stack with
  | case1 seen order => exact h
  | case2 seen order n stack ih => exact ih h.leave
  | case3 seen order n c rest stack hc ih => exact ih (h.skip [] hc)
  | case4 seen order n c rest stack hc ih =>
    -- the node is entered behind `n`, which need not try it again
    have hlead : g.Leads n c := h.pending _ List.mem_cons_self c List.mem_cons_self
    have hpush := h.push (eq_false_of_ne_true hc) (.inr ⟨_, List.mem_cons_self, hlead⟩)
    exact ih (hpush.skip [(c, g.successors c)] (by simp))

/-- `descend` forgets nothing that has been seen. -/
theorem contains_descend {seen order : List ν} {stack : Stack ν} {n : ν}
    (h : seen.contains n = true) : (descend g seen order stack).1.contains n = true := by
  fun_induction descend g seen order stack with
  | case1 seen order => exact h
  | case2 seen order m stack ih => exact ih h
  | case3 seen order m c rest stack hc ih => exact ih h
  | case4 seen order m c rest stack hc ih => exact ih (by rw [List.contains_cons, h, Bool.or_true])

/-- `enter` forgets nothing, and sees the node. -/
theorem contains_enter {visit : List ν × List ν} {m n : ν}
    (h : visit.1.contains n = true ∨ n = m) : (enter g visit m).1.contains n = true := by
  unfold enter
  split
  · rename_i hm
    rcases h with h | rfl
    · exact h
    · exact hm
  · refine contains_descend ?_
    rcases h with h | rfl <;> simp_all

/-- **`enter` at a root** keeps `Left`. -/
theorem Left.enter {root : ν → Prop} {visit : List ν × List ν} {n : ν}
    (h : Left g head root visit) (hn : root n) : Left g head root (enter g visit n) := by
  unfold Digraph.enter
  split
  · exact h
  · rename_i hseen
    exact descend_spec (h.push (eq_false_of_ne_true hseen) (.inl hn))

/-! ### The two phases of a crawl -/

/-- `enter` at root after root keeps `Left`, and sees them all. -/
theorem foldl_enter_spec {root : ν → Prop} {ns : List ν} {visit : List ν × List ν}
    (h : Left g head root visit) (hns : ∀ n ∈ ns, root n) :
    Left g head root (ns.foldl (enter g) visit) ∧
      ∀ n, visit.1.contains n = true ∨ n ∈ ns → (ns.foldl (enter g) visit).1.contains n = true := by
  induction ns generalizing visit with
  | nil => exact ⟨h, fun n hn => hn.resolve_right List.not_mem_nil⟩
  | cons m ns ih =>
    obtain ⟨hm, hns⟩ := List.forall_mem_cons.1 hns
    obtain ⟨hleft, hseen⟩ := ih (h.enter hm) hns
    refine ⟨hleft, fun n hn => hseen n ?_⟩
    rcases hn with hn | hn
    · exact .inl (contains_enter (.inl hn))
    · exact (List.mem_cons.1 hn).imp_left fun heq => contains_enter (.inr heq)

/-- The roots of a visit: what the head leads to, and the extra roots so far. -/
def Root (g : Digraph ν) (head : ν) (extra : List ν) (v : ν) : Prop := g.Leads head v ∨ v ∈ extra

/-- The first phase of `crawl`: the visit of what can be reached from the head. -/
def reached (g : Digraph ν) (head : ν) : List ν × List ν :=
  (g.successors head).foldl (enter g) ([head], [])

theorem reached_spec (g : Digraph ν) (head : ν) :
    Left g head (Root g head []) (reached g head) ∧
      (∀ v, v = head ∨ g.Leads head v → (reached g head).1.contains v = true) := by
  have hstart : Left g head (Root g head []) ([head], []) :=
    { distinct := List.pairwise_singleton _ _
      seen_eq := fun _ => rfl
      parent := nofun
      closed := nofun
      tried := nofun
      pending := nofun }
  have hroot : ∀ v ∈ g.successors head, Root g head [] v := fun v hv =>
    .inl (List.contains_iff_exists_mem_beq.2 ⟨v, hv, BEq.rfl⟩)
  obtain ⟨hleft, hseen⟩ := foldl_enter_spec hstart hroot
  refine ⟨hleft, fun v hv => ?_⟩
  rcases hv with rfl | hv
  · exact hseen v (.inl (by simp))
  · obtain ⟨x, hx, hvx⟩ := List.contains_iff_exists_mem_beq.1 hv
    rw [contains_congr hvx]
    exact hseen x (.inr hx)

/-- What has been seen reaches only what has been seen, if this holds of the head. -/
theorem Left.contains_of_reach {root : ν → Prop} {visit : List ν × List ν}
    (h : Left g head root visit) (hhead : ∀ v, g.Leads head v → visit.1.contains v = true)
    {a b : ν} (ha : visit.1.contains a = true) (hab : ReflTransGen g.Leads a b) :
    visit.1.contains b = true := by
  induction hab with
  | refl => exact ha
  | @tail b c _ hbc ih =>
    -- what has been seen is the head or was left
    rw [h.seen_eq] at ih
    obtain ⟨x, hx, hbx⟩ := List.contains_iff_exists_mem_beq.1 ih
    have hxc : g.Leads x c := (leads_congr hbx BEq.rfl).1 hbc
    rcases List.mem_cons.1 hx with rfl | hx
    · exact hhead c hxc
    · exact h.closed x hx c hxc

/-- The first phase sees all that can be reached from the head. -/
theorem contains_reached {v : ν} (h : ReflTransGen g.Leads head v) :
    (reached g head).1.contains v = true := by
  obtain ⟨hleft, hfirst⟩ := reached_spec g head
  exact Left.contains_of_reach hleft (fun v hv => hfirst v (.inr hv)) (hfirst head (.inl rfl)) h

/-- **`enterRoot`**, one key of the second phase: it is seen, and becomes a root only if it was not
before. -/
theorem enterRoot_spec {state : List ν × (List ν × List ν)}
    (h : Left g head (Root g head state.1) state.2) (k : ν) :
    Left g head (Root g head (enterRoot g state k).1) (enterRoot g state k).2 ∧
      (∀ n, state.2.1.contains n = true ∨ n = k →
        (enterRoot g state k).2.1.contains n = true) ∧
      ∀ r ∈ (enterRoot g state k).1, r ∈ state.1 ∨ r = k ∧ state.2.1.contains r = false := by
  unfold enterRoot
  split
  · rename_i hk
    refine ⟨h, ?_, fun r hr => .inl hr⟩
    rintro n (hn | rfl)
    · exact hn
    · exact hk
  · rename_i hk
    -- the key counts as a root before it is entered
    have hmono : Left g head (Root g head (state.1 ++ [k])) state.2 :=
      h.mono fun v hv => hv.imp_right (List.mem_append_left _)
    refine ⟨Left.enter hmono (.inr (by simp)), fun n hn => contains_enter hn, fun r hr => ?_⟩
    refine (List.mem_append.1 hr).imp_right fun hr => ?_
    obtain rfl := List.mem_singleton.1 hr
    exact ⟨rfl, eq_false_of_ne_true hk⟩

/-- **The second phase** sees all keys, and takes only keys as roots that had not been seen. -/
theorem foldl_enterRoot_spec (keys : List ν) (state : List ν × (List ν × List ν))
    (h : Left g head (Root g head state.1) state.2) :
    Left g head (Root g head (keys.foldl (enterRoot g) state).1)
        (keys.foldl (enterRoot g) state).2 ∧
      (∀ n, state.2.1.contains n = true ∨ n ∈ keys →
        (keys.foldl (enterRoot g) state).2.1.contains n = true) ∧
      ∀ r ∈ (keys.foldl (enterRoot g) state).1,
        r ∈ state.1 ∨ r ∈ keys ∧ state.2.1.contains r = false := by
  induction keys generalizing state with
  | nil => exact ⟨h, fun n hn => hn.resolve_right List.not_mem_nil, fun r hr => .inl hr⟩
  | cons k keys ih =>
    obtain ⟨hleft, hseen, hroots⟩ := enterRoot_spec h k
    obtain ⟨hleft', hseen', hroots'⟩ := ih _ hleft
    refine ⟨hleft', fun n hn => hseen' n ?_, fun r hr => ?_⟩
    · rcases hn with hn | hn
      · exact .inl (hseen n (.inl hn))
      · exact (List.mem_cons.1 hn).imp_left fun heq => hseen n (.inr heq)
    · rcases hroots' r hr with hr | hr
      · exact (hroots r hr).imp_right fun ⟨heq, hnew⟩ => ⟨List.mem_cons.2 (.inl heq), hnew⟩
      · -- what had been seen before this key is still seen after it
        refine .inr ⟨List.mem_cons_of_mem _ hr.1, eq_false_of_ne_true fun hr' => ?_⟩
        rw [hseen r (.inl hr')] at hr
        cases hr.2

end Visit

/-! ### The whole crawl -/

/-- The edges of `g`, and one from the head to each extra root of the crawl `c`. -/
def Attached (g : Digraph ν) (head : ν) (c : Crawl ν) (a b : ν) : Prop :=
  g.Leads a b ∨ (a == head) = true ∧ c.extraRoots.contains b = true

/-- **What a crawl `c` lists**: all keys, from the head on. -/
structure Covers (g : Digraph ν) (head : ν) (c : Crawl ν) : Prop where
  distinct : Distinct c.order
  head_first : ∃ rest, c.order = head :: rest
  keys : ∀ n ∈ g.keys, c.order.contains n = true
  /-- The extra roots are keys that the head does not reach. -/
  roots : ∀ r ∈ c.extraRoots, r ∈ g.keys ∧ ∀ n, ReflTransGen g.Leads head n → (r == n) = false
  closed : ∀ a b, c.order.contains a = true → g.Attached head c a b → c.order.contains b = true
  /-- Each node but the head stands behind one that leads to it. -/
  parent : ∀ v ∈ c.order, v = head ∨ ∃ u, g.Attached head c u v ∧ [u, v].Sublist c.order

variable [EquivBEq ν]

theorem crawl_eq (g : Digraph ν) (head : ν) :
    g.crawl head =
      { order := head :: (g.keys.foldl (enterRoot g) ([], reached g head)).2.2
        extraRoots := (g.keys.foldl (enterRoot g) ([], reached g head)).1 } := rfl

/-- **`crawl` lists the whole graph** from its head. -/
theorem crawl_spec (g : Digraph ν) (head : ν) : Covers g head (g.crawl head) := by
  obtain ⟨hfirst, hsucc⟩ := reached_spec g head
  obtain ⟨hleft, hseen, hroots⟩ :=
    foldl_enterRoot_spec g.keys ([], reached g head) hfirst
  rw [crawl_eq]
  -- only what the two phases are known to give is used from here on
  generalize g.keys.foldl (enterRoot g) ([], reached g head) = final at hleft hseen hroots
  obtain ⟨extra, seen, order⟩ := final
  have hlisted : ∀ n, (head :: order).contains n = seen.contains n := fun n =>
    (hleft.seen_eq n).symm
  have hkeys : ∀ n ∈ g.keys, (head :: order).contains n = true := fun n hn => by
    rw [hlisted]
    exact hseen n (.inr hn)
  -- a key that the head reaches was seen in the first phase
  have hroot : ∀ r ∈ extra, r ∈ g.keys ∧ ∀ n, ReflTransGen g.Leads head n → (r == n) = false := by
    intro r hr
    obtain ⟨hkey, hnew⟩ := (hroots r hr).resolve_left List.not_mem_nil
    refine ⟨hkey, fun n hn => eq_false_of_ne_true fun hrn => ?_⟩
    rw [contains_congr hrn, contains_reached hn] at hnew
    cases hnew
  refine ⟨hleft.distinct, ⟨order, rfl⟩, hkeys, hroot, ?_, ?_⟩
  · -- an edge of the graph starts at the head or at a node that was left
    rintro a b ha (hab | ⟨-, hb⟩)
    · obtain ⟨x, hx, hax⟩ := List.contains_iff_exists_mem_beq.1 ha
      have hxb : g.Leads x b := (leads_congr hax BEq.rfl).1 hab
      rw [hlisted]
      rcases List.mem_cons.1 hx with rfl | hx
      · exact hseen b (.inl (hsucc b (.inr hxb)))
      · exact hleft.closed x hx b hxb
    · obtain ⟨r, hr, hbr⟩ := List.contains_iff_exists_mem_beq.1 hb
      rw [contains_congr hbr]
      exact hkeys r (hroot r hr).1
  · -- a root stands behind the head, which leads to it in `Attached`
    intro v hv
    refine (List.mem_cons.1 hv).imp_right fun hv => ?_
    rcases hleft.parent v hv with (hlead | hextra) | ⟨u, huv, hsub⟩
    · exact ⟨head, .inl hlead, (List.singleton_sublist.2 hv).cons_cons head⟩
    · refine ⟨head, .inr ⟨BEq.rfl, ?_⟩, (List.singleton_sublist.2 hv).cons_cons head⟩
      exact List.contains_iff_exists_mem_beq.2 ⟨v, hextra, BEq.rfl⟩
    · exact ⟨u, .inl huv, hsub.cons head⟩

end Dependence.Digraph
