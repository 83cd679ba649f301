import Dependence.Proofs.Dominance.Tree
import Dependence.Value.Basic

/-!
# Immediate dominators of nodes in several spellings

The nodes of a graph compare by `==`, and one node may stand in it in several spellings: a key under
one, a successor under another, the head under a third. Dominance does not see spellings:
`Guards r head a b` says that every path from the head to a spelling of `b` meets a spelling of `a`.

Spellings of one node have one number in the order of a crawl, so a path is seen through the
numbers, where a step between spellings of one node stands still (`Covers.dominates_iff_guards`).
The chains of the settled table are therefore the nodes that guard a node
(`Covers.onChain_iff_guards`), and the map that is read off the table climbs along them
(`Covers.contains_ascend_iff`).

* `Dominators.treeOf_children`, `Dominators.treeOf_perm` — the tree has each key of its map once,
  under the value of the key;
* `Digraph.dominators_immediate` — what is computed are the immediate dominators, their tree, and
  the dominance that is read off by climbing.
-/

namespace Dependence

open Relation

variable {ν : Type} [BEq ν]

/-- Every path from the head to the node `b` meets the node `a`, whatever their spellings. -/
def Guards (r : ν → ν → Prop) (head a b : ν) : Prop :=
  ∀ n p, (n == b) = true → Path r head n p → p.contains a = true

/-- `Guards`, by another node than `b` itself. -/
def StrictlyGuards (r : ν → ν → Prop) (head a b : ν) : Prop :=
  Guards r head a b ∧ (a == b) = false

/-! ### The tree of a map -/

namespace Dominators

/-- `noteChild` adds `child` to the children that are listed. -/
theorem children_upsertEntries (child parent : ν) (rows : List (ν × List ν)) :
    ((OrderedMap.upsertEntries parent (noteChild child) rows).flatMap (·.2)).Perm
      (rows.flatMap (·.2) ++ [child]) := by
  induction rows with
  | nil => exact .refl _
  | cons row rows ih =>
    rw [OrderedMap.upsertEntries]
    split
    · -- the child is put behind those of the row, in front of those of the later rows
      show ((row.2 ++ [child]) ++ rows.flatMap (·.2)).Perm
        ((row.2 ++ rows.flatMap (·.2)) ++ [child])
      rw [List.append_assoc, List.append_assoc]
      exact List.perm_append_comm.append_left row.2
    · rw [List.flatMap_cons, List.flatMap_cons, List.append_assoc]
      exact ih.append_left row.2

/-- **`treeOf` lists each key of the map once.** -/
theorem treeOf_perm (idoms : OrderedMap ν ν) :
    ((treeOf idoms).entries.flatMap (·.2)).Perm idoms.keys := by
  -- entry after entry, from any tree on
  have hfold : ∀ (es : List (ν × ν)) (tree : OrderedMap ν (List ν)),
      ((es.foldl (fun tree e => tree.upsert e.2 (noteChild e.1)) tree).entries.flatMap (·.2)).Perm
        (tree.entries.flatMap (·.2) ++ es.map (·.1)) := by
    intro es
    induction es with
    | nil => intro tree; simp
    | cons e es ih =>
      intro tree
      have hstep := (children_upsertEntries e.1 e.2 tree.entries).append_right (es.map (·.1))
      rw [List.append_assoc] at hstep
      exact (ih _).trans hstep
  exact hfold idoms.entries .empty

/-- A child in a row after `noteChild` was there before, or is the new one. -/
theorem mem_upsertEntries_children {child parent : ν} {rows : List (ν × List ν)}
    {row : ν × List ν} (hrow : row ∈ OrderedMap.upsertEntries parent (noteChild child) rows)
    [ReflBEq ν] {n : ν} (hn : n ∈ row.2) :
    (∃ old ∈ rows, old.1 = row.1 ∧ n ∈ old.2) ∨ n = child ∧ (row.1 == parent) = true := by
  induction rows with
  | nil =>
    obtain rfl := List.mem_singleton.1 hrow
    exact .inr ⟨List.mem_singleton.1 hn, BEq.rfl⟩
  | cons first rows ih =>
    rw [OrderedMap.upsertEntries] at hrow
    split at hrow
    · rename_i hkey
      obtain rfl | hrow := List.mem_cons.1 hrow
      · -- the row that was reworked
        refine (List.mem_append.1 hn).imp (fun hn => ?_) fun hn => ?_
        · exact ⟨first, List.mem_cons_self, rfl, hn⟩
        · exact ⟨List.mem_singleton.1 hn, hkey⟩
      · exact .inl ⟨row, List.mem_cons_of_mem _ hrow, rfl, hn⟩
    · obtain rfl | hrow := List.mem_cons.1 hrow
      · exact .inl ⟨row, List.mem_cons_self, rfl, hn⟩
      · refine (ih hrow).imp_left ?_
        intro hlisted
        obtain ⟨old, hold, hsame⟩ := hlisted
        exact ⟨old, List.mem_cons_of_mem _ hold, hsame⟩

/-- **`treeOf` lists a child under its value** in the map. -/
theorem treeOf_children [EquivBEq ν] {idoms : OrderedMap ν ν} {row : ν × List ν}
    (hrow : row ∈ (treeOf idoms).entries) {n : ν} (hn : n ∈ row.2) :
    ∃ i, idoms.find? n = some i ∧ (row.1 == i) = true := by
  have hfold : ∀ (es : List (ν × ν)) (tree : OrderedMap ν (List ν)),
      row ∈ (es.foldl (fun tree e => tree.upsert e.2 (noteChild e.1)) tree).entries →
        (∃ old ∈ tree.entries, old.1 = row.1 ∧ n ∈ old.2) ∨
          ∃ e ∈ es, e.1 = n ∧ (row.1 == e.2) = true := by
    intro es
    induction es with
    | nil => intro tree h; exact .inl ⟨row, h, rfl, hn⟩
    | cons e es ih =>
      intro tree h
      obtain ⟨mid, hmid, hkey, hmem⟩ | ⟨e', he', hsame⟩ := ih _ h
      · -- the row was there after the first entry had been noted
        refine (mem_upsertEntries_children hmid hmem).imp (fun hold => ?_) fun hnew => ?_
        · obtain ⟨old, hold, hkey', hmem'⟩ := hold
          exact ⟨old, hold, hkey'.trans hkey, hmem'⟩
        · exact ⟨e, List.mem_cons_self, hnew.1.symm, hkey ▸ hnew.2⟩
      · exact .inr ⟨e', List.mem_cons_of_mem _ he', hsame⟩
  obtain ⟨old, hold, -⟩ | ⟨e, he, hen, hei⟩ := hfold idoms.entries .empty hrow
  · cases hold
  · exact ⟨e.2, OrderedMap.find?_eq_some_iff.2 ⟨e, he, hen ▸ BEq.rfl, rfl⟩, hei⟩

end Dominators

namespace Digraph

/-- Nodes of `order` are told apart by their numbers. -/
theorem beq_iff_number_eq [EquivBEq ν] {order : List ν} {a b : ν} (ha : order.contains a = true)
    (hb : order.contains b = true) : (a == b) = true ↔ number order a = number order b :=
  ⟨number_congr, beq_of_number_eq ha hb⟩

/-- The nodes that `g` and `head` are about: the head, the keys and the successors. -/
def Mentions (g : Digraph ν) (head n : ν) : Prop :=
  (n == head) = true ∨ g.contains n = true ∨ ∃ a, g.Leads a n

namespace Covers

variable [EquivBEq ν] {g : Digraph ν} {head : ν} {c : Crawl ν} (h : Covers g head c)

/-- Spellings of a node have the same edges, also to the extra roots. -/
theorem attached_congr {a a' b b' : ν} (ha : (a == a') = true) (hb : (b == b') = true) :
    g.Attached head c a b ↔ g.Attached head c a' b' := by
  rw [Attached, Attached, leads_congr ha hb, BEq.congr_left ha, Digraph.contains_congr hb]

include h

/-- **The order lists the nodes** that the graph `Mentions`. -/
theorem contains_order_iff {n : ν} : c.order.contains n = true ↔ g.Mentions head n := by
  refine ⟨fun hn => ?_, fun hn => ?_⟩
  · obtain ⟨m, hm, hnm⟩ := List.contains_iff_exists_mem_beq.1 hn
    -- a node of the order is the head, or was met from another one
    obtain rfl | ⟨u, hu, -⟩ := h.parent m hm
    · exact .inl hnm
    · obtain hlead | ⟨-, hroot⟩ := (attached_congr BEq.rfl hnm).2 hu
      · exact .inr (.inr ⟨u, hlead⟩)
      · obtain ⟨r, hr, hnr⟩ := List.contains_iff_exists_mem_beq.1 hroot
        obtain ⟨e, he, rfl⟩ := List.mem_map.1 (h.roots r hr).1
        exact .inr (.inl (OrderedMap.contains_iff.2 ⟨e, he, BEq.symm hnr⟩))
  · have hkey : ∀ e ∈ g.entries, c.order.contains e.1 = true := fun e he =>
      h.keys e.1 (List.mem_map_of_mem he)
    obtain hhead | hkeys | ⟨a, ha⟩ := hn
    · rw [Digraph.contains_congr hhead]
      exact h.contains_head
    · obtain ⟨e, he, hen⟩ := OrderedMap.contains_iff.1 hkeys
      rw [← Digraph.contains_congr hen]
      exact hkey e he
    · -- what leads to the node is a key
      obtain ⟨row, hrow, hra, -⟩ := leads_iff.1 ha
      refine h.closed a n ?_ (.inl ha)
      rw [← Digraph.contains_congr hra]
      exact hkey row hrow

/-- Every node can be reached from the head, in some spelling. -/
theorem reach_of_contains {n : ν} (hn : c.order.contains n = true) :
    ∃ m, (m == n) = true ∧ ReflTransGen (g.Attached head c) head m := by
  obtain ⟨m, hm, hnm⟩ := List.contains_iff_exists_mem_beq.1 hn
  exact ⟨m, BEq.symm hnm, h.reach hm⟩

/-- **Dominance among numbers** is `Guards` among nodes, whatever their spellings. -/
theorem dominates_iff_guards {a b : ν} (ha : c.order.contains a = true)
    (hb : c.order.contains b = true) :
    Dominates (Precedes (g.numberedPredecessors c)) 0 (number c.order a) (number c.order b) ↔
      Guards (g.Attached head c) head a b := by
  -- an edge between two spellings of one node is a step that stands still among the numbers
  have hforth : ∀ x y, c.order.contains x = true → g.Attached head c x y →
      number c.order x = number c.order y ∨
        Precedes (g.numberedPredecessors c) (number c.order x) (number c.order y) := by
    intro x y hx hxy
    by_cases heq : (x == y) = true
    · exact .inl (number_congr heq)
    · exact .inr (h.precedes_number hx hxy (eq_false_of_ne_true heq))
  have hback : ∀ x j, c.order.contains x = true →
      Precedes (g.numberedPredecessors c) (number c.order x) j →
        ∃ y, g.Attached head c x y ∧ number c.order y = j := by
    intro x j hx hp
    -- the edge of numbers comes from one that leaves a spelling of `x`
    obtain ⟨x', y, hx', hnum, hj, hxy, -⟩ := h.exists_of_precedes hp
    exact ⟨y, (attached_congr (beq_of_number_eq hx' hx hnum) BEq.rfl).1 hxy, hj⟩
  rw [← h.number_head_eq, dominates_image_iff h.closed hforth hback h.contains_head]
  refine forall₂_congr fun n p => ⟨fun hall hn hp => ?_, fun hall hn hp => ?_⟩
  · obtain ⟨x, hx, hxa⟩ := hall (number_congr hn) hp
    have hinside := hp.stays h.closed h.contains_head x hx
    exact List.contains_iff_exists_mem_beq.2 ⟨x, hx, BEq.symm (beq_of_number_eq hinside ha hxa)⟩
  · have hinside := hp.stays h.closed h.contains_head n hp.last_mem
    have hmeets := hall (beq_of_number_eq hinside hb hn) hp
    obtain ⟨x, hx, hax⟩ := List.contains_iff_exists_mem_beq.1 hmeets
    exact ⟨x, hx, (number_congr hax).symm⟩

/-- What guards a node of the order is one itself. -/
theorem contains_of_guards {a n : ν} (hn : c.order.contains n = true)
    (hguards : Guards (g.Attached head c) head a n) : c.order.contains a = true := by
  obtain ⟨m, hmn, hreach⟩ := h.reach_of_contains hn
  obtain ⟨p, hp⟩ := exists_path_iff.2 hreach
  obtain ⟨x, hx, hax⟩ := List.contains_iff_exists_mem_beq.1 (hguards m p hmn hp)
  rw [Digraph.contains_congr hax]
  exact hp.stays h.closed h.contains_head x hx

/-! ### Reading the settled table -/

section Settled

variable {t : Table} (ht : Table.Settled (g.numberedPredecessors c) t)

include ht

/-- **The chain of the number of `n`** has the numbers of the nodes that guard `n`. -/
theorem onChain_iff_guards {a n : ν} (ha : c.order.contains a = true)
    (hn : c.order.contains n = true) :
    OnChain t.up (number c.order a) (number c.order n) ↔ Guards (g.Attached head c) head a n := by
  have hlt : number c.order n < (g.numberedPredecessors c).length := by
    rw [length_numberedPredecessors]
    exact number_lt hn
  rw [ht.onChain_iff_dominates h.numbering hlt, h.dominates_iff_guards ha hn]

/-- `idomsOf` has an entry for every node whose number is not that of the head. -/
theorem exists_find?_of_pos {n : ν} (hn : c.order.contains n = true)
    (hpos : 0 < number c.order n) :
    ∃ d, (idomsOf c.order t).find? n = some d ∧ c.order.contains d = true ∧
      number c.order d = t.up (number c.order n) := by
  have hup : t.up (number c.order n) < c.order.length :=
    (ht.ranked.falling.le _).trans_lt (number_lt hn)
  have hget : c.order[t.up (number c.order n)]? = some c.order[t.up (number c.order n)] :=
    List.getElem?_eq_getElem hup
  refine ⟨_, ?_, ?_, number_of_getElem? h.distinct hget⟩
  · exact (find?_idomsOf h.distinct ht.ranked (size_of_settled ht) (known_of_settled ht) hn).2
      ⟨hpos, hget⟩
  · exact List.contains_iff_exists_mem_beq.2 ⟨_, List.getElem_mem hup, BEq.rfl⟩

/-- `idomsOf` has no entry for the head. -/
theorem find?_eq_none_of_zero {n : ν} (hn : c.order.contains n = true)
    (hzero : number c.order n = 0) : (idomsOf c.order t).find? n = none := by
  refine Option.eq_none_iff_forall_ne_some.2 fun d hd => ?_
  have hpos : 0 < number c.order n :=
    ((find?_idomsOf h.distinct ht.ranked (size_of_settled ht) (known_of_settled ht) hn).1 hd).1
  omega

omit ht in
theorem number_eq_zero_iff {n : ν} (hn : c.order.contains n = true) :
    number c.order n = 0 ↔ (n == head) = true := by
  refine ⟨fun hzero => beq_of_number_eq hn h.contains_head ?_, fun hhead => ?_⟩
  · rw [hzero, h.number_head_eq]
  · rw [number_congr hhead, h.number_head_eq]

omit h in
/-- At the head, the way up and the chain end. -/
theorem contains_singleton_iff {a n : ν} (ha : c.order.contains a = true)
    (hn : c.order.contains n = true) (hzero : number c.order n = 0) :
    [n].contains a = true ↔ OnChain t.up (number c.order a) (number c.order n) := by
  rw [List.contains_cons, List.contains_nil, Bool.or_false, beq_iff_number_eq ha hn, hzero,
    onChain_head_iff ht.ranked.falling]

/-- **`ascend`** from a node meets the nodes on the chain of its number. -/
theorem contains_ascend_iff (steps : ℕ) {a n : ν} (ha : c.order.contains a = true)
    (hn : c.order.contains n = true) (hsteps : number c.order n ≤ steps) :
    (Dominators.ascend (idomsOf c.order t) steps n).contains a = true ↔
      OnChain t.up (number c.order a) (number c.order n) := by
  -- each step lowers the number, so the way up arrives at the head before the steps run out
  induction steps generalizing n with
  | zero => exact contains_singleton_iff ht ha hn (Nat.le_zero.1 hsteps)
  | succ steps ih =>
    rcases Nat.eq_zero_or_pos (number c.order n) with hzero | hpos
    · rw [Dominators.ascend, h.find?_eq_none_of_zero ht hn hzero]
      exact contains_singleton_iff ht ha hn hzero
    · obtain ⟨d, hfind, hd, hup⟩ := h.exists_find?_of_pos ht hn hpos
      have hlt : number c.order d < number c.order n := hup ▸ ht.ranked.falling.lt _ hpos
      rw [Dominators.ascend, hfind]
      show (n :: Dominators.ascend (idomsOf c.order t) steps d).contains a = true ↔ _
      rw [List.contains_cons, Bool.or_eq_true, ih hd (by omega), beq_iff_number_eq ha hn,
        onChain_iff (i := number c.order n), hup]

/-- **`Dominators.dominates` tells dominance.** -/
theorem dominates_idomsOf_iff {a b : ν} (ha : c.order.contains a = true)
    (hb : c.order.contains b = true) :
    Dominators.dominates (idomsOf c.order t) a b = true ↔
      Guards (g.Attached head c) head a b := by
  -- there are as many steps as nodes but the head, which is enough for every number
  have hsize : number c.order b ≤ (idomsOf c.order t).size := by
    rw [size_idomsOf h.distinct ht.ranked (size_of_settled ht) (known_of_settled ht)]
    have := number_lt hb
    omega
  have hany : Dominators.dominates (idomsOf c.order t) a b =
      (Dominators.ancestors (idomsOf c.order t) b).contains a := by
    rw [Dominators.dominates, List.contains_eq_any_beq]
    exact congrArg _ (funext fun x => BEq.comm)
  rw [hany, Dominators.ancestors, h.contains_ascend_iff ht _ ha hb hsize,
    h.onChain_iff_guards ht ha hb]

/-- **The keys of `idomsOf`** are all nodes but the head. -/
theorem contains_idomsOf_iff {n : ν} :
    (idomsOf c.order t).contains n = true ↔
      c.order.contains n = true ∧ (n == head) = false := by
  have hkey : (idomsOf c.order t).contains n = true → c.order.contains n = true := by
    intro hn
    obtain ⟨e, he, hen⟩ := OrderedMap.contains_iff.1 hn
    obtain ⟨i, -, hi, -⟩ :=
      (mem_entries_idomsOf h.distinct ht.ranked (size_of_settled ht) (known_of_settled ht)).1 he
    exact List.contains_iff_exists_mem_beq.2 ⟨e.1, List.mem_of_getElem? hi, BEq.symm hen⟩
  rw [← and_iff_right_of_imp hkey]
  refine and_congr_right fun hn => ?_
  rw [OrderedMap.contains_eq_isSome_find?, ← Bool.not_eq_true, ← h.number_eq_zero_iff hn]
  rcases Nat.eq_zero_or_pos (number c.order n) with hzero | hpos
  · rw [h.find?_eq_none_of_zero ht hn hzero]
    exact iff_of_false (by simp) fun hne => hne hzero
  · obtain ⟨d, hfind, -⟩ := h.exists_find?_of_pos ht hn hpos
    rw [hfind]
    exact iff_of_true rfl (by omega)

/-- Where `idomsOf` has `d` for `n`, the node `n` is not the head, and its entry names `d`. -/
theorem number_of_find?_eq_some {n d : ν} (hfind : (idomsOf c.order t).find? n = some d) :
    c.order.contains n = true ∧ 0 < number c.order n ∧ c.order.contains d = true ∧
      number c.order d = t.up (number c.order n) := by
  have hkey : (idomsOf c.order t).contains n = true := by
    rw [OrderedMap.contains_eq_isSome_find?, hfind]
    rfl
  obtain ⟨hn, hhead⟩ := (h.contains_idomsOf_iff ht).1 hkey
  have hpos : 0 < number c.order n := by
    rw [Nat.pos_iff_ne_zero, Ne, h.number_eq_zero_iff hn, hhead]
    exact Bool.false_ne_true
  obtain ⟨d', hfind', hd, hup⟩ := h.exists_find?_of_pos ht hn hpos
  obtain rfl : d = d' := Option.some.inj (hfind.symm.trans hfind')
  exact ⟨hn, hpos, hd, hup⟩

/-- **An immediate dominator `d`** of `n` guards `n` strictly, and is guarded by all that do. -/
theorem immediate_of_find? {n d : ν} (hfind : (idomsOf c.order t).find? n = some d) :
    StrictlyGuards (g.Attached head c) head d n ∧
      ∀ a, StrictlyGuards (g.Attached head c) head a n → Guards (g.Attached head c) head a d := by
  obtain ⟨hn, hpos, hd, hup⟩ := h.number_of_find?_eq_some ht hfind
  refine ⟨⟨?_, eq_false_of_ne_true fun heq => ?_⟩, fun a ha => ?_⟩
  · rw [← h.onChain_iff_guards ht hd hn, hup]
    exact .above .here
  · -- entries fall, so `d` does not have the number of `n`
    have hlt := ht.ranked.falling.lt _ hpos
    rw [← hup, number_congr heq] at hlt
    exact lt_irrefl _ hlt
  · -- on the chain of the node, all but the node itself are on the chain of the next one
    have hamem := h.contains_of_guards hn ha.1
    have hchain := (h.onChain_iff_guards ht hamem hn).2 ha.1
    rw [← h.onChain_iff_guards ht hamem hd, hup]
    refine (onChain_iff.1 hchain).resolve_left fun heq => ?_
    have hne : (a == n) = false := ha.2
    rw [(beq_iff_number_eq hamem hn).2 heq] at hne
    cases hne

end Settled

/-- Where the head reaches every key, there are no extra roots. -/
theorem extraRoots_eq_nil
    (hkeys : ∀ k ∈ g.keys, ∃ m, (m == k) = true ∧ ReflTransGen g.Leads head m) :
    c.extraRoots = [] := by
  refine List.eq_nil_iff_forall_not_mem.2 fun r hr => ?_
  obtain ⟨hkey, hunreached⟩ := h.roots r hr
  obtain ⟨m, hmr, hreach⟩ := hkeys r hkey
  have hne := hunreached m hreach
  rw [BEq.comm, hmr] at hne
  cases hne

end Covers

/-- **`dominators` computes immediate dominators**, for every `g` and every `head`, without a fault.
The edges are those of the graph and one from the head to each extra root of the crawl; with them
the head reaches every node. Every node but the head has an entry: the strict dominator that all its
strict dominators dominate. Climbing the map tells dominance, and the tree has every node but the
head once, under its immediate dominator. Where the head reaches every key, no edge was added. -/
theorem dominators_immediate [EquivBEq ν] (g : Digraph ν) (head : ν) :
    ∃ d, g.dominators head = .ok d ∧
      (∀ n, g.Mentions head n →
        ∃ m, (m == n) = true ∧ ReflTransGen (g.Attached head (g.crawl head)) head m) ∧
      (∀ n, d.idoms.contains n = true ↔ g.Mentions head n ∧ (n == head) = false) ∧
      (∀ n i, d.idoms.find? n = some i →
        StrictlyGuards (g.Attached head (g.crawl head)) head i n ∧
          ∀ a, StrictlyGuards (g.Attached head (g.crawl head)) head a n →
            Guards (g.Attached head (g.crawl head)) head a i) ∧
      (∀ a b, g.Mentions head a → g.Mentions head b →
        (Dominators.dominates d.idoms a b = true ↔
          Guards (g.Attached head (g.crawl head)) head a b)) ∧
      (d.tree.entries.flatMap (·.2)).Perm d.idoms.keys ∧
      (∀ row ∈ d.tree.entries, ∀ n ∈ row.2, ∃ i, d.idoms.find? n = some i ∧ (row.1 == i) = true) ∧
      ((∀ k ∈ g.keys, ∃ m, (m == k) = true ∧ ReflTransGen g.Leads head m) →
        (g.crawl head).extraRoots = [] ∧
          ∀ a b, g.Attached head (g.crawl head) a b ↔ g.Leads a b) := by
  have h := crawl_spec g head
  have hpos : 0 < (g.numberedPredecessors (g.crawl head)).length := by
    obtain ⟨rest, hrest⟩ := h.head_first
    rw [length_numberedPredecessors, hrest]
    exact Nat.succ_pos _
  obtain ⟨t, htable, ht⟩ := Table.ofPredecessors_spec h.numbering hpos
  let idoms := idomsOf (g.crawl head).order t
  have hdominators : g.dominators head = .ok { tree := Dominators.treeOf idoms, idoms } := by
    rw [dominators, htable]
    rfl
  refine ⟨_, hdominators, fun n hn => ?_, fun n => ?_, fun n i hi => ?_, fun a b ha hb => ?_,
    Dominators.treeOf_perm idoms, fun row hrow n hn => Dominators.treeOf_children hrow hn,
    fun hkeys => ?_⟩
  · exact h.reach_of_contains (h.contains_order_iff.2 hn)
  · rw [← h.contains_order_iff]
    exact h.contains_idomsOf_iff ht
  · exact h.immediate_of_find? ht hi
  · exact h.dominates_idomsOf_iff ht (h.contains_order_iff.2 ha) (h.contains_order_iff.2 hb)
  · have hnil := h.extraRoots_eq_nil hkeys
    refine ⟨hnil, fun a b => ?_⟩
    rw [Attached, hnil]
    simp

/-- A loop that is entered at two places, with a node that is spelled in two ways, and a loop that
the head does not reach. -/
def irreducible : Digraph Value :=
  .ofList [(.int 0, [.int 1, .int 2]), (.bool true, [.int 2, .int 5]), (.int 2, [.bool true]),
    (.int 3, [.int 4, .int 4]), (.int 4, [.int 3])]

/-- The node behind the loop has an immediate dominator: the loop leads to it, under the other
spelling of its first node. The head has none. -/
theorem dominators_immediate_irreducible :
    ∃ d, irreducible.dominators (.int 0) = .ok d ∧
      d.idoms.contains (.int 5) = true ∧ d.idoms.contains (.int 0) = false ∧
      (∀ a b, irreducible.Mentions (.int 0) a → irreducible.Mentions (.int 0) b →
        (Dominators.dominates d.idoms a b = true ↔
          Guards (irreducible.Attached (.int 0) (irreducible.crawl (.int 0))) (.int 0) a b)) ∧
      (d.tree.entries.flatMap (·.2)).Perm d.idoms.keys := by
  obtain ⟨d, hd, -, hkeys, -, hdom, hperm, -⟩ := dominators_immediate irreducible (.int 0)
  have hlast : irreducible.Leads (.int 1) (.int 5) := by
    show (irreducible.successors (.int 1)).contains (.int 5) = true
    decide
  refine ⟨d, hd, (hkeys _).2 ⟨.inr (.inr ⟨_, hlast⟩), by decide⟩, ?_, hdom, hperm⟩
  refine eq_false_of_ne_true fun hcontains => ?_
  have hhead := ((hkeys _).1 hcontains).2
  rw [BEq.rfl] at hhead
  cases hhead

end Digraph

end Dependence
