import Dependence.Dominance.Tree
import Dependence.Proofs.Digraph.Crawl
import Dependence.Proofs.Dominance.Refinement
import Mathlib.Data.List.NodupEquivFin

/-!
# Immediate dominators of a graph

A crawl numbers the nodes of a graph, and the table of dominators is computed on the numbers. The
numbered graph is a copy of the graph with its extra roots attached, edges from a node to itself
left out (`Covers.precedes_number`, `Covers.exists_of_precedes`); it is numbered as the table needs
it (`Covers.numbering`). So dominance among numbers is dominance among nodes.

The map of immediate dominators that is read off the table is described by `Climbs`, for any
dominance relation: the dominators of a node are the node and those of its immediate dominator. All
that is read off the map by climbing it follows from that, and from the rank that a climb lowers
(`Descends`):

* `Climbs.mem_ancestors` — the way up meets exactly the dominators;
* `Climbs.mem_takeWhile_ancestors` — the way up to a dominator of the node meets the dominators of
  the node that do not dominate that one;
* `Digraph.dominators_spec` — the map is computed without a fault, and is the one of the paths from
  the head.
-/

namespace Dependence

open Relation

variable {ν : Type} [BEq ν]

namespace Digraph

/-! ### Numbers of nodes -/

section Number

variable [EquivBEq ν] {order : List ν}

theorem number_lt {n : ν} (h : order.contains n = true) : number order n < order.length := by
  obtain ⟨x, hx, hn⟩ := List.contains_iff_exists_mem_beq.1 h
  exact List.findIdx_lt_length_of_exists ⟨x, hx, BEq.symm hn⟩

theorem number_congr {a b : ν} (h : (a == b) = true) : number order a = number order b := by
  simp only [number, BEq.congr_right h]

theorem number_head (head : ν) (rest : List ν) : number (head :: rest) head = 0 := by
  simp [number, List.findIdx_cons]

/-- The node at the number of `n` is a spelling of `n`. -/
theorem getElem?_number {n : ν} (h : order.contains n = true) :
    ∃ x, order[number order n]? = some x ∧ (x == n) = true :=
  ⟨_, List.getElem?_eq_getElem (number_lt h), List.findIdx_getElem (w := number_lt h)⟩

theorem beq_of_number_eq {a b : ν} (ha : order.contains a = true) (hb : order.contains b = true)
    (h : number order a = number order b) : (a == b) = true := by
  obtain ⟨x, hx, hxa⟩ := getElem?_number ha
  obtain ⟨y, hy, hyb⟩ := getElem?_number hb
  rw [h, hy] at hx
  obtain rfl := Option.some.inj hx
  exact BEq.trans (BEq.symm hxa) hyb

/-- In a list of distinct nodes, nodes have the numbers of their places. -/
theorem number_of_getElem? (h : Distinct order) {i : ℕ} {n : ν} (hn : order[i]? = some n) :
    number order n = i := by
  -- the first node equal to `n` is at the place of `n`: no earlier one equals it
  induction order generalizing i with
  | nil => cases hn
  | cons x rest ih =>
    obtain ⟨hhead, htail⟩ := List.pairwise_cons.1 h
    cases i with
    | zero =>
      obtain rfl : x = n := by simpa using hn
      exact number_head x rest
    | succ i =>
      rw [List.getElem?_cons_succ] at hn
      have hxn : (x == n) = false := hhead n (List.mem_of_getElem? hn)
      rw [number, List.findIdx_cons, hxn, cond_false]
      exact congrArg (· + 1) (ih htail hn)

/-- Nodes have their numbers in the order of the list. -/
theorem number_lt_number (h : Distinct order) {a b : ν} (hab : [a, b].Sublist order) :
    number order a < number order b := by
  -- the two nodes stand at places in order, and have these for their numbers
  obtain ⟨place, hplace⟩ := List.sublist_iff_exists_orderEmbedding_getElem?_eq.1 hab
  rw [number_of_getElem? h (hplace 0).symm, number_of_getElem? h (hplace 1).symm]
  exact place.lt_iff_lt.2 Nat.zero_lt_one

end Number

/-! ### The numbered graph -/

section Numbered

variable {g : Digraph ν} {c : Crawl ν}

/-- A numbered edge is one between keys and successors of different numbers, or leads from the head
to an extra root. -/
theorem mem_numberedEdges {p i : ℕ} :
    (p, i) ∈ g.numberedEdges c ↔
      (∃ row ∈ g.entries, ∃ next ∈ row.2,
        number c.order row.1 = p ∧ number c.order next = i ∧ p ≠ i) ∨
      p = 0 ∧ ∃ r ∈ c.extraRoots, number c.order r = i := by
  simp only [numberedEdges, List.mem_append, List.mem_filter, List.mem_flatMap, List.mem_map,
    Prod.mk.injEq, bne_iff_ne]
  constructor
  · rintro (⟨⟨row, hrow, next, hnext, rfl, rfl⟩, hne⟩ | ⟨r, hr, rfl, rfl⟩)
    · exact .inl ⟨row, hrow, next, hnext, rfl, rfl, hne⟩
    · exact .inr ⟨rfl, r, hr, rfl⟩
  · rintro (⟨row, hrow, next, hnext, rfl, rfl, hne⟩ | ⟨rfl, r, hr, rfl⟩)
    · exact .inl ⟨⟨row, hrow, next, hnext, rfl, rfl⟩, hne⟩
    · exact .inr ⟨r, hr, rfl, rfl⟩

theorem length_numberedPredecessors :
    (g.numberedPredecessors c).length = c.order.length := by
  simp [numberedPredecessors]

theorem precedes_iff {p i : ℕ} :
    Precedes (g.numberedPredecessors c) p i ↔
      i < c.order.length ∧ (p, i) ∈ g.numberedEdges c := by
  rw [Precedes, List.getD_eq_getElem?_getD, numberedPredecessors, List.getElem?_map]
  by_cases hi : i < c.order.length
  · simp [hi]
  · simp [hi]

theorem size_of_settled {t : Table} (ht : Table.Settled (g.numberedPredecessors c) t) :
    t.size = c.order.length :=
  ht.size.trans length_numberedPredecessors

theorem known_of_settled {t : Table} (ht : Table.Settled (g.numberedPredecessors c) t) (i : ℕ)
    (hi : i < c.order.length) : t.known i = true :=
  ht.known_of_lt (length_numberedPredecessors (g := g) (c := c) ▸ hi)

end Numbered

namespace Covers

variable [EquivBEq ν] {g : Digraph ν} {head : ν} {c : Crawl ν} (h : Covers g head c)

include h

theorem number_head_eq : number c.order head = 0 := by
  obtain ⟨rest, hrest⟩ := h.head_first
  rw [hrest, number_head]

theorem contains_head : c.order.contains head = true := by
  obtain ⟨rest, hrest⟩ := h.head_first
  rw [hrest]
  simp

/-- All nodes can be reached from the head, with the extra roots attached to it. -/
theorem reach {n : ν} (hn : n ∈ c.order) : ReflTransGen (g.Attached head c) head n := by
  -- on the number: a node other than the head was met from one of a smaller number
  induction hr : number c.order n using Nat.strong_induction_on generalizing n with
  | _ r ih =>
    rcases h.parent n hn with rfl | ⟨u, hun, hsub⟩
    · exact .refl
    · have hlt := number_lt_number h.distinct hsub
      exact (ih _ (hr ▸ hlt) (hsub.subset List.mem_cons_self) rfl).tail hun

/-- An edge from `a` to another node `b` is one between their numbers. -/
theorem precedes_number {a b : ν} (ha : c.order.contains a = true)
    (hab : g.Attached head c a b) (hne : (a == b) = false) :
    Precedes (g.numberedPredecessors c) (number c.order a) (number c.order b) := by
  have hb := h.closed a b ha hab
  refine precedes_iff.2 ⟨number_lt hb, mem_numberedEdges.2 ?_⟩
  rcases hab with hab | ⟨hhead, hroot⟩
  · obtain ⟨row, hrow, hra, hrb⟩ := leads_iff.1 hab
    obtain ⟨next, hnext, hbn⟩ := List.contains_iff_exists_mem_beq.1 hrb
    refine .inl ⟨row, hrow, next, hnext, number_congr hra, number_congr (BEq.symm hbn), ?_⟩
    intro heq
    rw [beq_of_number_eq ha hb heq] at hne
    cases hne
  · obtain ⟨r, hr, hbr⟩ := List.contains_iff_exists_mem_beq.1 hroot
    exact .inr ⟨number_congr hhead ▸ h.number_head_eq, r, hr, number_congr (BEq.symm hbr)⟩

/-- An edge between the numbers `p` and `i` is one between nodes that have them. -/
theorem exists_of_precedes {p i : ℕ} (hp : Precedes (g.numberedPredecessors c) p i) :
    ∃ a b, c.order.contains a = true ∧ number c.order a = p ∧ number c.order b = i ∧
      g.Attached head c a b ∧ p ≠ i := by
  rcases mem_numberedEdges.1 (precedes_iff.1 hp).2 with
    ⟨row, hrow, next, hnext, hrowp, hnexti, hne⟩ | ⟨rfl, r, hr, hri⟩
  · have hlead : g.Leads row.1 next :=
      leads_iff.2 ⟨row, hrow, BEq.rfl, List.contains_iff_exists_mem_beq.2 ⟨next, hnext, BEq.rfl⟩⟩
    exact ⟨row.1, next, h.keys _ (List.mem_map_of_mem hrow), hrowp, hnexti, .inl hlead,
      hne⟩
  · -- an extra root is not the head: the head does not reach it
    have hroot : c.extraRoots.contains r = true :=
      List.contains_iff_exists_mem_beq.2 ⟨r, hr, BEq.rfl⟩
    obtain ⟨hkey, hunreached⟩ := h.roots r hr
    refine ⟨head, r, h.contains_head, h.number_head_eq, hri, .inr ⟨BEq.rfl, hroot⟩, fun heq => ?_⟩
    have hhead : (r == head) = true :=
      beq_of_number_eq (h.keys r hkey) h.contains_head (by rw [hri, ← heq, h.number_head_eq])
    rw [hunreached head .refl] at hhead
    cases hhead

/-- **The numbered graph** is numbered from its head. -/
theorem numbering : Numbering (g.numberedPredecessors c) where
  bounded p i hp := by
    obtain ⟨a, b, ha, rfl, -⟩ := h.exists_of_precedes hp
    rw [length_numberedPredecessors]
    exact number_lt ha
  earlier i hpos hi := by
    rw [length_numberedPredecessors] at hi
    -- the crawl has met the node from one that stands before it in the order
    have hnumber := number_of_getElem? h.distinct (List.getElem?_eq_getElem hi)
    rcases h.parent c.order[i] (List.getElem_mem hi) with hhead | ⟨u, hu, hsub⟩
    · rw [hhead, h.number_head_eq] at hnumber
      omega
    · have hlt : number c.order u < i := hnumber ▸ number_lt_number h.distinct hsub
      refine ⟨number c.order u, ?_, hlt⟩
      have hmem : c.order.contains u = true :=
        List.contains_iff_exists_mem_beq.2 ⟨u, hsub.subset List.mem_cons_self, BEq.rfl⟩
      have hne : (u == c.order[i]) = false := eq_false_of_ne_true fun heq => by
        rw [number_congr heq, hnumber] at hlt
        omega
      have := h.precedes_number hmem hu hne
      rwa [hnumber] at this

end Covers

/-! ### The map of a table -/

section OfTable

variable {order : List ν} {t : Table} (hdistinct : Distinct order) (ht : t.Ranked)
  (hsize : t.size = order.length) (hknown : ∀ i < order.length, t.known i = true)

include hdistinct hsize in
theorem entries_idomsOf :
    (idomsOf order t).entries = ((order.zip t.toList).drop 1).filterMap fun e =>
      (e.2.bind fun d => order[d.toNat]?).map (e.1, ·) := by
  refine OrderedMap.entries_ofList ?_
  -- no two entries have one key, so none replaces another
  have hzip : (order.zip t.toList).Pairwise fun a b => (a.1 == b.1) = false := by
    have hkeys : Distinct ((order.zip t.toList).map Prod.fst) := by
      rwa [List.map_fst_zip (by simp [hsize])]
    exact List.pairwise_map.1 hkeys
  refine (hzip.sublist (List.drop_sublist 1 _)).filterMap _ fun a b hab x hx y hy => ?_
  obtain ⟨-, -, rfl⟩ := Option.map_eq_some_iff.1 hx
  obtain ⟨-, -, rfl⟩ := Option.map_eq_some_iff.1 hy
  exact hab

include hdistinct ht hsize hknown

/-- The entries of `idomsOf`: every node but the first, with the node that its entry names. -/
theorem mem_entries_idomsOf {e : ν × ν} :
    e ∈ (idomsOf order t).entries ↔
      ∃ i, 0 < i ∧ order[i]? = some e.1 ∧ order[t.up i]? = some e.2 := by
  rw [entries_idomsOf hdistinct hsize, List.mem_filterMap]
  -- every number has an entry, so the table is read through `up`
  have hentry : ∀ i x, order[i]? = some x → t.toList[i]? = some (some (t.up i : ℤ)) := by
    intro i x hi
    rw [Array.getElem?_toList]
    exact ht.getElem?_of_known (hknown i (List.getElem?_eq_some_iff.1 hi).1)
  constructor
  · rintro ⟨⟨x, d⟩, hmem, hd⟩
    obtain ⟨i, hi⟩ := List.mem_iff_getElem?.1 hmem
    rw [List.getElem?_drop] at hi
    obtain ⟨hx, hrow⟩ := List.getElem?_zip_eq_some.1 hi
    obtain rfl : some (t.up (1 + i) : ℤ) = d := Option.some.inj ((hentry _ x hx).symm.trans hrow)
    obtain ⟨v, hv, rfl⟩ := Option.map_eq_some_iff.1 hd
    exact ⟨1 + i, by omega, hx, hv⟩
  · rintro ⟨i, hpos, hx, hv⟩
    refine ⟨(e.1, some (t.up i : ℤ)), List.mem_iff_getElem?.2 ⟨i - 1, ?_⟩, ?_⟩
    · rw [List.getElem?_drop, show 1 + (i - 1) = i by omega]
      exact List.getElem?_zip_eq_some.2 ⟨hx, hentry i _ hx⟩
    · simp [hv]

/-- `idomsOf` has an entry for every node but the first. -/
theorem size_idomsOf : (idomsOf order t).size = order.length - 1 := by
  rw [OrderedMap.size, entries_idomsOf hdistinct hsize, List.filterMap_length_eq_length.2]
  · simp [hsize]
  · rintro ⟨x, d⟩ hmem
    obtain ⟨i, hi⟩ := List.mem_iff_getElem?.1 hmem
    rw [List.getElem?_drop] at hi
    obtain ⟨hx, hrow⟩ := List.getElem?_zip_eq_some.1 hi
    have hlt : 1 + i < order.length := (List.getElem?_eq_some_iff.1 hx).1
    rw [Array.getElem?_toList, ht.getElem?_of_known (hknown _ hlt)] at hrow
    obtain rfl : some (t.up (1 + i) : ℤ) = d := Option.some.inj hrow
    have hup : t.up (1 + i) < order.length := (ht.falling.le _).trans_lt hlt
    simp [hup]

/-- **Looking up an immediate dominator**: the node that the entry of the number names. -/
theorem find?_idomsOf [EquivBEq ν] {n v : ν} (hn : order.contains n = true) :
    (idomsOf order t).find? n = some v ↔
      0 < number order n ∧ order[t.up (number order n)]? = some v := by
  rw [OrderedMap.find?_eq_some_iff]
  constructor
  · rintro ⟨e, he, hen, rfl⟩
    obtain ⟨i, hpos, hx, hv⟩ := (mem_entries_idomsOf hdistinct ht hsize hknown).1 he
    have hi : number order n = i := by
      rw [← number_congr hen, number_of_getElem? hdistinct hx]
    exact hi ▸ ⟨hpos, hv⟩
  · rintro ⟨hpos, hv⟩
    obtain ⟨x, hx, hxn⟩ := getElem?_number hn
    exact ⟨(x, v), (mem_entries_idomsOf hdistinct ht hsize hknown).2 ⟨_, hpos, hx, hv⟩, hxn, rfl⟩

end OfTable

end Digraph

/-! ### Climbing -/

/-- **Climbing comes to an end**: from a node inside, it stays inside and lowers a rank. -/
structure Descends (idoms : OrderedMap ν ν) (inside : ν → Prop) (rank : ν → ℕ) : Prop where
  bounded : ∀ n, inside n → rank n ≤ idoms.size
  up : ∀ n d, inside n → idoms.find? n = some d → inside d ∧ rank d < rank n

namespace Descends

open Dominators

variable {idoms : OrderedMap ν ν} {inside : ν → Prop} {rank : ν → ℕ}

theorem ancestors_top {n : ν} (hfind : idoms.find? n = none) : ancestors idoms n = [n] := by
  unfold ancestors
  cases idoms.size <;> simp [ascend, hfind]

variable (h : Descends idoms inside rank)

include h

/-- The number of steps that `ascend` is allowed does not matter, once it is the rank. -/
theorem ascend_congr (steps steps' : ℕ) {n : ν} (hn : inside n) (hsteps : rank n ≤ steps)
    (hsteps' : rank n ≤ steps') : ascend idoms steps n = ascend idoms steps' n := by
  -- each step lowers the rank, so both climbs arrive at the top before their steps run out
  induction steps generalizing steps' n with
  | zero =>
    cases hfind : idoms.find? n with
    | none => cases steps' <;> simp [ascend, hfind]
    | some d =>
      have hlt := (h.up n d hn hfind).2
      omega
  | succ steps ih =>
    cases hfind : idoms.find? n with
    | none => cases steps' <;> simp [ascend, hfind]
    | some d =>
      obtain ⟨hd, hlt⟩ := h.up n d hn hfind
      obtain ⟨k, rfl⟩ : ∃ k, steps' = k + 1 := ⟨steps' - 1, by omega⟩
      simp only [ascend, hfind]
      rw [ih k hd (by omega) (by omega)]

theorem ancestors_up {n d : ν} (hn : inside n) (hfind : idoms.find? n = some d) :
    ancestors idoms n = n :: ancestors idoms d := by
  obtain ⟨hd, hlt⟩ := h.up n d hn hfind
  have hrank := h.bounded n hn
  rw [ancestors, h.ascend_congr _ (idoms.size + 1) hn hrank (by omega)]
  simp [ascend, hfind, ancestors]

/-- Climbing ends, so what holds at the top and is handed down holds everywhere. -/
theorem induction {motive : ν → Prop}
    (top : ∀ n, inside n → idoms.find? n = none → motive n)
    (up : ∀ n d, inside n → idoms.find? n = some d → motive d → motive n) (n : ν)
    (hn : inside n) : motive n := by
  -- on the rank, which falls with every step up
  induction hr : rank n using Nat.strong_induction_on generalizing n with
  | _ r ih =>
    cases hfind : idoms.find? n with
    | none => exact top n hn hfind
    | some d =>
      obtain ⟨hd, hlt⟩ := h.up n d hn hfind
      exact up n d hn hfind (ih (rank d) (hr ▸ hlt) d hd rfl)

end Descends

/-- **A map of immediate dominators**, for a dominance relation among the nodes inside: a node has
the dominators of its immediate dominator and itself, and climbing lowers a rank. -/
structure Climbs (idoms : OrderedMap ν ν) (dom : ν → ν → Prop) (inside : ν → Prop)
    (rank : ν → ℕ) : Prop where
  trans : ∀ a b n, dom a b → dom b n → dom a n
  bounded : ∀ n, inside n → rank n ≤ idoms.size
  top : ∀ n, inside n → idoms.find? n = none → ∀ a, dom a n ↔ a = n
  up : ∀ n d, inside n → idoms.find? n = some d →
    inside d ∧ rank d < rank n ∧ ¬ dom n d ∧ ∀ a, dom a n ↔ a = n ∨ dom a d

namespace Climbs

open Dominators

variable {idoms : OrderedMap ν ν} {dom : ν → ν → Prop} {inside : ν → Prop} {rank : ν → ℕ}
  (h : Climbs idoms dom inside rank)

include h

theorem descends : Descends idoms inside rank where
  bounded := h.bounded
  up n d hn hfind := by
    obtain ⟨hd, hlt, -⟩ := h.up n d hn hfind
    exact ⟨hd, hlt⟩

/-- **`ancestors`** has the dominators of a node. -/
theorem mem_ancestors {a n : ν} (hn : inside n) : a ∈ ancestors idoms n ↔ dom a n := by
  refine h.descends.induction (motive := fun n => a ∈ ancestors idoms n ↔ dom a n) ?_ ?_ n hn
  · intro n hn hfind
    rw [Descends.ancestors_top hfind, List.mem_singleton, h.top n hn hfind]
  · intro n d hn hfind ih
    rw [h.descends.ancestors_up hn hfind, List.mem_cons, ih, (h.up n d hn hfind).2.2.2]

/-- `dominates` is the test of dominance. -/
theorem dominates_iff [LawfulBEq ν] {a n : ν} (hn : inside n) :
    dominates idoms a n = true ↔ dom a n := by
  rw [← h.mem_ancestors hn, dominates, List.any_eq_true]
  simp

/-- Of two nodes that dominate each other there is only one. -/
theorem antisymm {a n : ν} (hn : inside n) (han : dom a n) (hna : dom n a) : a = n := by
  cases hfind : idoms.find? n with
  | none => exact (h.top n hn hfind a).1 han
  | some d =>
    obtain ⟨-, -, hnot, hdom⟩ := h.up n d hn hfind
    exact ((hdom a).1 han).resolve_right fun had => hnot (h.trans n a d hna had)

/-- A node dominates itself. -/
theorem refl {n : ν} (hn : inside n) : dom n n := by
  cases hfind : idoms.find? n with
  | none => exact (h.top n hn hfind n).2 rfl
  | some d => exact ((h.up n d hn hfind).2.2.2 n).2 (.inl rfl)

/-- **The way up to a dominator** meets the dominators that do not dominate that one. -/
theorem mem_takeWhile_ancestors [LawfulBEq ν] {a n stop : ν} (hn : inside n)
    (hstop : dom stop n) :
    a ∈ (ancestors idoms n).takeWhile (· != stop) ↔ dom a n ∧ ¬ dom a stop := by
  refine h.descends.induction (motive := fun n => dom stop n →
    (a ∈ (ancestors idoms n).takeWhile (· != stop) ↔ dom a n ∧ ¬ dom a stop)) ?_ ?_ n hn hstop
  · -- at the top, the only dominator is the node itself
    intro n hn hfind hstop
    obtain rfl := (h.top n hn hfind stop).1 hstop
    simp [Descends.ancestors_top hfind]
  · intro n d hn hfind ih hstop
    obtain ⟨hd, -, hnot, hdom⟩ := h.up n d hn hfind
    rw [h.descends.ancestors_up hn hfind, List.takeWhile_cons]
    by_cases hne : n = stop
    · simp [hne]
    · -- the climb goes on, and the node itself does not dominate `stop`, which is further up
      have hstop' : dom stop d := ((hdom stop).1 hstop).resolve_left (Ne.symm hne)
      have hself : ¬ dom n stop := fun hns => hnot (h.trans n stop d hns hstop')
      rw [if_pos (by simpa using hne), List.mem_cons, ih hstop', hdom]
      constructor
      · rintro (rfl | ⟨had, hnas⟩)
        · exact ⟨.inl rfl, hself⟩
        · exact ⟨.inr had, hnas⟩
      · rintro ⟨rfl | had, hnas⟩
        · exact .inl rfl
        · exact .inr ⟨had, hnas⟩

end Climbs

/-! ### Dominators of a graph -/

namespace Digraph

section Lawful

variable [LawfulBEq ν] {g : Digraph ν} {head : ν}

/-- Nodes of `order` are told apart by their numbers. -/
theorem eq_of_number_eq {order : List ν} {a b : ν} (ha : a ∈ order) (hb : b ∈ order)
    (heq : number order a = number order b) : a = b :=
  eq_of_beq (beq_of_number_eq (List.contains_iff_mem.2 ha) (List.contains_iff_mem.2 hb) heq)

theorem number_lt_of_mem {order : List ν} {n : ν} (hn : n ∈ order) :
    number order n < order.length :=
  number_lt (List.contains_iff_mem.2 hn)

namespace Covers

variable {c : Crawl ν} (h : Covers g head c)

include h

theorem mem_of_attached {a b : ν} (ha : a ∈ c.order) (hab : g.Attached head c a b) :
    b ∈ c.order :=
  List.contains_iff_mem.1 (h.closed a b (List.contains_iff_mem.2 ha) hab)

theorem head_mem : head ∈ c.order := List.contains_iff_mem.1 h.contains_head

/-- Dominators of a node are nodes. -/
theorem mem_of_dominates {a n : ν} (hn : n ∈ c.order)
    (hdom : Dominates (g.Attached head c) head a n) : a ∈ c.order := by
  by_contra ha
  -- no way from the head leaves the order, so none arrives at `a`
  have haround : ∀ m, ReflTransGen (g.Attached head c) head m →
      m ∈ c.order ∧ ReflTransGen (Around (g.Attached head c) a) head m := by
    intro m hm
    induction hm with
    | refl => exact ⟨h.head_mem, .refl⟩
    | tail _ hstep ih =>
      have hmem := h.mem_of_attached ih.1 hstep
      exact ⟨hmem, ih.2.tail ⟨hstep, fun heq => ha (heq ▸ hmem)⟩⟩
  have hne : head ≠ a := fun heq => ha (heq ▸ h.head_mem)
  exact not_dominates_iff.2 ⟨hne, (haround n (h.reach hn)).2⟩ hdom

/-- **Dominance among numbers** is dominance among nodes. -/
theorem dominates_number_iff {a b : ν} (ha : a ∈ c.order) (hb : b ∈ c.order) :
    Dominates (Precedes (g.numberedPredecessors c)) 0 (number c.order a) (number c.order b) ↔
      Dominates (g.Attached head c) head a b := by
  rw [← dominates_ne_iff (r := g.Attached head c), ← h.number_head_eq]
  refine dominates_map_iff (· ∈ c.order) ?_ ?_ ?_ ?_ h.head_mem ha hb
  · exact fun x y hx hxy => h.mem_of_attached hx hxy.1
  · exact fun x y hx hy heq => eq_of_number_eq hx hy heq
  · intro x y hx hxy
    exact h.precedes_number (List.contains_iff_mem.2 hx) hxy.1 (beq_eq_false_iff_ne.2 hxy.2)
  · -- the node that an edge of numbers leaves is determined by its number
    intro x j hx hp
    obtain ⟨x', y, hx', hnum, hj, hxy, hne⟩ := h.exists_of_precedes hp
    obtain rfl := eq_of_number_eq (List.contains_iff_mem.1 hx') hx hnum
    exact ⟨y, ⟨hxy, fun heq => hne (by rw [← hj, heq])⟩, hj⟩

section Settled

variable {t : Table} (ht : Table.Settled (g.numberedPredecessors c) t)

include ht

theorem find?_settled {n v : ν} (hn : n ∈ c.order) :
    (idomsOf c.order t).find? n = some v ↔
      0 < number c.order n ∧ c.order[t.up (number c.order n)]? = some v :=
  find?_idomsOf h.distinct ht.ranked (size_of_settled ht) (known_of_settled ht)
    (List.contains_iff_mem.2 hn)

/-- The chain of the number of `n` has the numbers of the dominators of `n`. -/
theorem onChain_number_iff {a n : ν} (ha : a ∈ c.order) (hn : n ∈ c.order) :
    OnChain t.up (number c.order a) (number c.order n) ↔
      Dominates (g.Attached head c) head a n := by
  have hlt : number c.order n < (g.numberedPredecessors c).length := by
    rw [length_numberedPredecessors]
    exact number_lt_of_mem hn
  exact (ht.onChain_iff_dominates h.numbering hlt).trans (h.dominates_number_iff ha hn)

/-- Only the head has no immediate dominator. -/
theorem eq_head_of_find?_none {n : ν} (hn : n ∈ c.order)
    (hnone : (idomsOf c.order t).find? n = none) : n = head := by
  -- a number above that of the head has an entry, and the entry is the number of a node
  have hzero : number c.order n = 0 := by
    by_contra hpos
    have hup : t.up (number c.order n) < c.order.length :=
      (ht.ranked.falling.le _).trans_lt (number_lt_of_mem hn)
    have hsome := (h.find?_settled ht hn).2
      ⟨Nat.pos_of_ne_zero hpos, List.getElem?_eq_getElem hup⟩
    rw [hnone] at hsome
    cases hsome
  exact eq_of_number_eq hn h.head_mem (hzero.trans h.number_head_eq.symm)

/-- The immediate dominator `d` of `n` has the entry of `n` for its number. -/
theorem number_of_find? {n d : ν} (hn : n ∈ c.order)
    (hsome : (idomsOf c.order t).find? n = some d) :
    d ∈ c.order ∧ number c.order d = t.up (number c.order n) ∧
      number c.order d < number c.order n := by
  obtain ⟨hpos, hd⟩ := (h.find?_settled ht hn).1 hsome
  have hup : number c.order d = t.up (number c.order n) := number_of_getElem? h.distinct hd
  exact ⟨List.mem_of_getElem? hd, hup, hup ▸ ht.ranked.falling.lt _ hpos⟩

/-- **A node `n` has the dominators of its immediate dominator `d`**, and itself. -/
theorem dominates_iff_of_find? {a n d : ν} (hn : n ∈ c.order)
    (hsome : (idomsOf c.order t).find? n = some d) :
    Dominates (g.Attached head c) head a n ↔
      a = n ∨ Dominates (g.Attached head c) head a d := by
  obtain ⟨hd, hup, -⟩ := h.number_of_find? ht hn hsome
  by_cases ha : a ∈ c.order
  · rw [← h.onChain_number_iff ht ha hn, ← h.onChain_number_iff ht ha hd, onChain_iff, hup]
    exact or_congr_left ⟨eq_of_number_eq ha hn, fun heq => heq ▸ rfl⟩
  · -- what is outside the order dominates nothing inside it
    constructor
    · exact fun hdom => absurd (h.mem_of_dominates hn hdom) ha
    · rintro (rfl | hdom)
      · exact absurd hn ha
      · exact absurd (h.mem_of_dominates hd hdom) ha

/-- `idomsOf` of a settled table is a map of immediate dominators. -/
theorem climbs_idomsOf :
    Climbs (idomsOf c.order t) (Dominates (g.Attached head c) head) (· ∈ c.order)
      (number c.order) where
  trans a b n hab hbn := hab.trans hbn
  bounded n hn := by
    have hlt := number_lt_of_mem hn
    rw [size_idomsOf h.distinct ht.ranked (size_of_settled ht) (known_of_settled ht)]
    omega
  top n hn hnone a := by
    obtain rfl := h.eq_head_of_find?_none ht hn hnone
    constructor
    · exact fun hdom => List.mem_singleton.1 (hdom _ (.here n))
    · rintro rfl
      exact Dominates.refl _ _ _
  up n d hn hsome := by
    obtain ⟨hd, -, hfall⟩ := h.number_of_find? ht hn hsome
    refine ⟨hd, hfall, fun hnd => ?_, fun a => h.dominates_iff_of_find? ht hn hsome⟩
    -- the chain of `d` does not go up to the number of `n`
    have hle := ((h.onChain_number_iff ht hn hd).2 hnd).le ht.ranked.falling
    omega

end Settled

end Covers

/-- **`dominators`** computes the immediate dominators without a fault; they are those of the paths
from `head`, with the extra roots attached to it. -/
theorem dominators_spec (g : Digraph ν) (head : ν) :
    ∃ d, g.dominators head = .ok d ∧
      Climbs d.idoms (Dominates (g.Attached head (g.crawl head)) head)
        (· ∈ (g.crawl head).order) (number (g.crawl head).order) := by
  have hcovers := crawl_spec g head
  have hpos : 0 < (g.numberedPredecessors (g.crawl head)).length := by
    rw [length_numberedPredecessors]
    exact List.length_pos_of_mem hcovers.head_mem
  obtain ⟨t, ht, hsettled⟩ := Table.ofPredecessors_spec hcovers.numbering hpos
  let idoms := idomsOf (g.crawl head).order t
  refine ⟨{ tree := Dominators.treeOf idoms, idoms }, ?_, hcovers.climbs_idomsOf hsettled⟩
  rw [dominators, ht]
  rfl

end Lawful

end Digraph

end Dependence
