import Dependence.Proofs.Analysis
import Dependence.Proofs.Combined
import Dependence.Proofs.Graph.Listing

/-!
# Variables are opaque

An analysis compares variables and does nothing else with them. When the variables of a listing are
renamed, and different ones stay different, the graphs keep their nodes and edges; a label becomes
its image.

The search takes the variables of a node in the order of their texts, which a renaming may turn
round, so that definitions are found and edges added in another order. This does not show. Data
dependence adds the edges target by target, each at most once, and lists them source by source; so
the listing has them in the order of the nodes, whatever the order was for each target
(`FlowGraph.dataListing_eq`). The combined graph is made of listings.

* `Listing.rename` — the listing with other variables;
* `FlowGraph.supplies_of_renamedBy` — a definition supplies the renamed variables that it supplied;
* `Analysis.rename_variables` — what an analysis answers before and after.
-/

namespace Dependence

/-! ### Renamed sets -/

namespace ValueSet

/-- The set of what `f` makes of the elements of `s`. -/
def rename (f : Element → Element) (s : ValueSet) : ValueSet :=
  s.elements.foldl (fun t x => t.insert (f x)) .empty

theorem mem_elements {s : ValueSet} {x : Element} : x ∈ s.elements ↔ x.val ∈ s.items := by
  rw [elements, List.mem_attachWith]

theorem contains_of_mem_elements {s : ValueSet} {x : Element} (h : x ∈ s.elements) :
    s.contains x.val = true :=
  List.any_eq_true.2 ⟨x.val, mem_elements.1 h, BEq.rfl⟩

theorem exists_elements_of_contains {s : ValueSet} {v : Value} (h : s.contains v = true) :
    ∃ x ∈ s.elements, (x.val == v) = true := by
  obtain ⟨y, hy, hyv⟩ := List.any_eq_true.1 h
  exact ⟨⟨y, s.hashable y hy⟩, mem_elements.2 hy, hyv⟩

/-- A renamed set has the images of its elements, in whatever spelling. -/
theorem contains_rename {f : Element → Element} {s : ValueSet} {w : Value} :
    (s.rename f).contains w = true ↔ ∃ x ∈ s.elements, ((f x).val == w) = true := by
  have hfold : ∀ (xs : List Element) (t : ValueSet),
      (xs.foldl (fun t x => t.insert (f x)) t).contains w = true ↔
        t.contains w = true ∨ ∃ x ∈ xs, ((f x).val == w) = true := by
    intro xs
    induction xs with
    | nil => simp
    | cons x xs ih =>
      intro t
      rw [List.foldl_cons, ih, contains_insert, Bool.or_eq_true, or_assoc]
      simp only [List.mem_cons, exists_eq_or_imp]
  rw [rename, hfold, contains_empty]
  simp

end ValueSet

/-! ### Renamed listings -/

namespace Listing

variable {l : Listing} {f : Element → Element}

/-- The listing `l` with its variables renamed by `f`. -/
def rename (f : Element → Element) (l : Listing) : Listing :=
  { l with
    definitions := l.definitions.mapValues (ValueSet.rename f)
    uses := l.uses.mapValues (ValueSet.rename f) }

/-- The variable `x` is in a table of `l`, in some spelling. -/
def Mentions (l : Listing) (x : Element) : Prop :=
  ∃ table ∈ [l.definitions, l.uses], ∃ e ∈ table.entries, e.2.contains x.val = true

/-- `f` renames variables of `l` to different ones just if they are different. -/
def Separates (l : Listing) (f : Element → Element) : Prop :=
  ∀ x y, l.Mentions x → l.Mentions y → ((f x).val == (f y).val) = (x.val == y.val)

theorem lookup_rename (table : OrderedMap Value ValueSet) (i : Option Instruction) :
    (l.rename f).lookup (table.mapValues (ValueSet.rename f)) i =
      (l.lookup table i).map (ValueSet.rename f) := by
  -- positions are looked up by instruction, which a renaming leaves alone
  rw [lookup, lookup]
  show (l.positionOf i >>= _) = (l.positionOf i >>= _).map _
  cases l.positionOf i with
  | error e => rfl
  | ok q =>
    show Except.ok _ = Except.ok _
    rw [OrderedMap.find?_mapValues]
    cases table.find? (.int q) <;> rfl

theorem mentions_of_lookup {table : OrderedMap Value ValueSet}
    (htable : table ∈ [l.definitions, l.uses]) {i : Option Instruction} {s : ValueSet}
    (hs : l.lookup table i = .ok s) {x : Element} (hx : s.contains x.val = true) :
    l.Mentions x := by
  obtain ⟨q, -, hq⟩ := bind_eq_ok.1 hs
  cases hq
  cases hfind : table.find? (.int q) with
  | none =>
    rw [hfind] at hx
    cases hx
  | some vars =>
    rw [hfind] at hx
    obtain ⟨e, he, -, rfl⟩ := OrderedMap.find?_eq_some_iff.1 hfind
    exact ⟨table, htable, e, he, hx⟩

/-- **What a renamed listing names** is the image of what the listing names. -/
theorem names_rename (hf : l.Separates f) {table : OrderedMap Value ValueSet}
    (htable : table ∈ [l.definitions, l.uses]) {n : Node} {w : Value} :
    n.Names (fun i => liftM ((l.rename f).lookup (table.mapValues (ValueSet.rename f)) i)) w ↔
      ∃ x : Element, n.Names (fun i => liftM (l.lookup table i)) x.val ∧
        ((f x).val == w) = true := by
  simp only [Node.Names, lookup_rename, liftM_eq_ok, map_eq_ok]
  constructor
  · rintro ⟨i, -, hi, ⟨s, hs, rfl⟩, hw⟩
    obtain ⟨x, hx, hxw⟩ := ValueSet.contains_rename.1 hw
    exact ⟨x, ⟨i, s, hi, hs, ValueSet.contains_of_mem_elements hx⟩, hxw⟩
  · rintro ⟨x, ⟨i, s, hi, hs, hx⟩, hxw⟩
    -- the set may have the variable in another spelling
    obtain ⟨y, hy, hyx⟩ := ValueSet.exists_elements_of_contains hx
    have hfy : ((f y).val == (f x).val) = true := by
      rw [hf y x (mentions_of_lookup htable hs (ValueSet.contains_of_mem_elements hy))
        (mentions_of_lookup htable hs hx)]
      exact hyx
    exact ⟨i, s.rename f, hi, ⟨s, hs, rfl⟩,
      ValueSet.contains_rename.2 ⟨y, hy, BEq.trans hfy hxw⟩⟩

theorem mentions_of_names {table : OrderedMap Value ValueSet}
    (htable : table ∈ [l.definitions, l.uses]) {n : Node} {x : Element}
    (h : n.Names (fun i => liftM (l.lookup table i)) x.val) : l.Mentions x := by
  obtain ⟨i, s, -, hs, hx⟩ := h
  exact mentions_of_lookup htable (liftM_eq_ok.1 hs) hx

end Listing

/-- The source `p'` names variables as `p` does, up to the renaming `f`. Nothing is said of
variables that are not used. -/
structure DefUse.RenamedBy (f : Element → Element) (p p' : DefUse) : Prop where
  uses : ∀ n w, p'.Uses n w ↔ ∃ x : Element, p.Uses n x.val ∧ ((f x).val == w) = true
  defines : ∀ n m x, p.Uses n x.val → (p'.Defines m (f x).val ↔ p.Defines m x.val)
  congr : ∀ n x y, p.Uses n x.val → (x.val == y.val) = true → ((f x).val == (f y).val) = true

theorem Listing.renamedBy {l : Listing} {f : Element → Element} (hf : l.Separates f) :
    l.method.toDefUse.RenamedBy f (l.rename f).method.toDefUse where
  uses n w := names_rename hf (by simp)
  defines n m x hx := by
    have hdefines := names_rename hf (n := m) (w := (f x).val)
      (List.mem_cons_self (a := l.definitions))
    -- a defined variable with the same image is the same variable
    have hmx : l.Mentions x := mentions_of_names (by simp) hx
    refine hdefines.trans ⟨fun ⟨y, hy, hyx⟩ => ?_, fun hdef => ⟨x, hdef, BEq.rfl⟩⟩
    rw [hf y x (mentions_of_names (by simp) hy) hmx] at hyx
    exact (FlowGraph.defines_congr hyx).1 hy
  congr n x y hx hxy := by
    have hmx : l.Mentions x := mentions_of_names (by simp) hx
    have hmy : l.Mentions y := by
      obtain ⟨table, htable, e, he, hcontains⟩ := hmx
      exact ⟨table, htable, e, he, ValueSet.contains_congr hxy ▸ hcontains⟩
    rw [hf x y hmx hmy]
    exact hxy

/-! ### Renamed edges -/

/-- The attribute with its variables renamed by `f`; as a set, in whatever order and spelling. -/
def Attribute.Renamed (f : Element → Element) : Attribute → Attribute → Prop
  | .value v, .value w => w = v
  | .names s, .names t => ∀ v, t.contains v = (s.rename f).contains v
  | _, _ => False

/-- The edge `b` is `a` with its variables renamed by `f`. -/
def Arc.Renamed (f : Element → Element) (a b : Arc Node) : Prop :=
  b.1 = a.1 ∧ b.2.1 = a.2.1 ∧
    List.Forall₂ (fun x y => y.1 = x.1 ∧ Attribute.Renamed f x.2 y.2) a.2.2.entries b.2.2.entries

/-- A key has one entry at most, the one that `find?` gives. -/
theorem OrderedMap.filter_entries {κ β : Type} [BEq κ] [LawfulBEq κ] (m : OrderedMap κ β) (k : κ) :
    (m.entries.filter fun e => e.1 == k) = (m.find? k).toList.map (Prod.mk k) := by
  have hlist : ∀ es : List (κ × β), es.Pairwise (fun a b => (a.1 == b.1) = false) →
      (es.filter fun e => e.1 == k) =
        ((es.find? fun e => e.1 == k).map (·.2)).toList.map (Prod.mk k) := by
    intro es hes
    induction es with
    | nil => rfl
    | cons e es ih =>
      obtain ⟨he, hes⟩ := List.pairwise_cons.1 hes
      by_cases hk : e.1 = k
      · -- no other entry has the key
        have hnone : (es.filter fun x => x.1 == k) = [] := by
          refine List.filter_eq_nil_iff.2 fun x hx hxk => ?_
          exact beq_eq_false_iff_ne.1 (he x hx) (hk.trans (eq_of_beq hxk).symm)
        subst hk
        simp [hnone]
      · simp [hk, ih hes]
  exact hlist m.entries m.distinct

namespace FlowGraph

variable {F : FlowGraph} {f : Element → Element} {p p' : DefUse}

/-- **A definition supplies the renamed variables** that it supplied. -/
theorem supplies_of_renamedBy (h : p.RenamedBy f p') {d n : Node} {w : Value} :
    F.Supplies p' d n w ↔ ∃ x : Element, F.Supplies p d n x.val ∧ ((f x).val == w) = true := by
  -- definitions on the way are of the renamed variable just if they were of the variable
  have hsame : ∀ x : Element, p.Uses n x.val → ((f x).val == w) = true →
      (p'.Defines d w ∧ F.Carries p' w d n ↔ p.Defines d x.val ∧ F.Carries p x.val d n) := by
    intro x hx hxw
    rw [← defines_congr hxw, ← carries_congr hxw]
    simp only [Carries, Passes, h.defines n _ x hx]
  constructor
  · rintro ⟨hdef, huse, hway⟩
    obtain ⟨x, hx, hxw⟩ := (h.uses n w).1 huse
    obtain ⟨hdef, hway⟩ := (hsame x hx hxw).1 ⟨hdef, hway⟩
    exact ⟨x, ⟨hdef, hx, hway⟩, hxw⟩
  · rintro ⟨x, ⟨hdef, hx, hway⟩, hxw⟩
    obtain ⟨hdef, hway⟩ := (hsame x hx hxw).2 ⟨hdef, hway⟩
    exact ⟨hdef, (h.uses n w).2 ⟨x, hx, hxw⟩, hway⟩

/-- The edges from `d` to `n`, in terms of what supplies `n`. -/
theorem filter_dataArcs (d n : Node) :
    ((F.dataArcs p n).filter fun a => a.1 == d) =
      ((F.suppliesOf p n).find? d).toList.map fun vars => (d, n, aboutVariables vars) := by
  rw [dataArcs, List.filter_map]
  show ((F.suppliesOf p n).entries.filter fun e => e.1 == d).map _ = _
  rw [OrderedMap.filter_entries, List.map_map]
  rfl

theorem find?_suppliesOf (hp : p.Answers F) {n : Node} (hn : n ∈ F.nodes) (d : Node) :
    (((F.suppliesOf p n).find? d).isSome ↔ d ≠ n ∧ ∃ v, F.Supplies p d n v) ∧
      ∀ vars, (F.suppliesOf p n).find? d = some vars →
        ∀ v, vars.contains v = true ↔ F.Supplies p d n v := by
  obtain ⟨-, hkeys, hvars⟩ := mem_suppliesOf hp hn
  constructor
  · rw [← hkeys, ← OrderedMap.contains_eq_isSome_find?, OrderedMap.contains_iff]
    simp only [beq_iff_eq]
  · intro vars hfind
    obtain ⟨e, he, hed, rfl⟩ := OrderedMap.find?_eq_some_iff.1 hfind
    rw [← eq_of_beq hed]
    exact hvars e he

/-- The edge `a` is about variables, and `b` has the same ends and is about the renamed ones. -/
def Relabelled (f : Element → Element) (a b : Arc Node) : Prop :=
  ∃ d n s t, a = (d, n, aboutVariables s) ∧ b = (d, n, aboutVariables t) ∧
    ∀ v, t.contains v = (s.rename f).contains v

/-- The label `t` after the renaming is the image of the label `s` before. -/
theorem label_of_renamedBy (h : p.RenamedBy f p') {d n : Node} {s t : ValueSet}
    (hs : ∀ v, s.contains v = true ↔ F.Supplies p d n v)
    (ht : ∀ v, t.contains v = true ↔ F.Supplies p' d n v) (w : Value) :
    t.contains w = (s.rename f).contains w := by
  rw [Bool.eq_iff_iff, ht, supplies_of_renamedBy h, ValueSet.contains_rename]
  constructor
  · rintro ⟨x, hx, hxw⟩
    -- the label may have the variable in another spelling
    obtain ⟨y, hy, hyx⟩ := ValueSet.exists_elements_of_contains ((hs x.val).2 hx)
    exact ⟨y, hy, BEq.trans (BEq.symm (h.congr n x y hx.2.1 (BEq.symm hyx))) hxw⟩
  · rintro ⟨x, hx, hxw⟩
    exact ⟨x, (hs x.val).1 (ValueSet.contains_of_mem_elements hx), hxw⟩

/-- **From `d` to `n`** there is an edge before the renaming just if there is one afterwards. -/
theorem forall₂_dataArcs (h : p.RenamedBy f p') (hp : p.Answers F) (hp' : p'.Answers F) {n : Node}
    (hn : n ∈ F.nodes) (d : Node) :
    List.Forall₂ (Relabelled f) ((F.dataArcs p n).filter fun a => a.1 == d)
      ((F.dataArcs p' n).filter fun a => a.1 == d) := by
  obtain ⟨hsome, hvars⟩ := find?_suppliesOf hp hn d
  obtain ⟨hsome', hvars'⟩ := find?_suppliesOf hp' hn d
  rw [filter_dataArcs, filter_dataArcs]
  cases hs : (F.suppliesOf p n).find? d with
  | none =>
    -- a variable that is supplied afterwards is the image of one that was supplied
    cases ht : (F.suppliesOf p' n).find? d with
    | none => exact .nil
    | some t =>
      rw [hs] at hsome
      rw [ht] at hsome'
      obtain ⟨hne, w, hw⟩ := hsome'.1 rfl
      obtain ⟨x, hx, -⟩ := (supplies_of_renamedBy h).1 hw
      cases hsome.2 ⟨hne, x.val, hx⟩
  | some s =>
    -- a label is not empty, so there is a variable to rename
    obtain ⟨hne, v, hv⟩ := hsome.1 (by rw [hs]; rfl)
    obtain ⟨x, hx, -⟩ := ValueSet.exists_elements_of_contains ((hvars s hs v).2 hv)
    have hx : F.Supplies p d n x.val := (hvars s hs _).1 (ValueSet.contains_of_mem_elements hx)
    have hfx : F.Supplies p' d n (f x).val := (supplies_of_renamedBy h).2 ⟨x, hx, BEq.rfl⟩
    obtain ⟨t, ht⟩ := Option.isSome_iff_exists.1 (hsome'.2 ⟨hne, _, hfx⟩)
    rw [ht]
    exact .cons ⟨d, n, s, t, rfl, rfl, label_of_renamedBy h (hvars s hs) (hvars' t ht)⟩ .nil

/-- **The listing of `dataDependence`** does not show in which order the edges to a node were added.
-/
theorem dataListing_eq (hp : p.Answers F) {g : Graph Node}
    (hg : (F.dataDependence p).result = .ok g) :
    g.listing.map Edge.arc =
      F.nodes.flatMap fun d =>
        F.places.flatMap fun n => (F.dataArcs p n).filter fun a => a.1 == d := by
  obtain ⟨g', hg', hnodes, harcs⟩ := dataDependence_arcs hp
  cases hg.symm.trans hg'
  obtain ⟨g'', hg'', -, hsimple, -⟩ := dataDependence_spec hp
  cases hg.symm.trans hg''
  -- no edges are parallel, so the listing goes by source, and for each by target
  rw [hsimple.listing_eq, List.map_flatMap, hnodes]
  refine List.flatMap_congr fun d _ => ?_
  rw [← List.filter_flatMap, ← harcs, List.filter_map]
  rfl

theorem forall₂_dataListing (h : p.RenamedBy f p') (hp : p.Answers F) (hp' : p'.Answers F)
    {g g' : Graph Node} (hg : (F.dataDependence p).result = .ok g)
    (hg' : (F.dataDependence p').result = .ok g') :
    List.Forall₂ (Relabelled f) (g.listing.map Edge.arc) (g'.listing.map Edge.arc) := by
  rw [dataListing_eq hp hg, dataListing_eq hp' hg']
  refine forall₂_flatMap fun d _ => forall₂_flatMap fun n hn => ?_
  exact forall₂_dataArcs h hp hp' (mem_places.1 hn).1 d

/-- **`combine`** after the renaming gives a graph like the one before, and its listing shows the
renamed labels at the same places. -/
theorem combine_renamed {c d d' : Graph Node} (hc : c.nodes = F.nodes) (hd : d.nodes = F.nodes)
    (hd' : d'.nodes = F.nodes)
    (hlabels : ∀ e ∈ d.edges, ∃ vars, e.attributes = aboutVariables vars)
    (hlabels' : ∀ e ∈ d'.edges, ∃ vars, e.attributes = aboutVariables vars)
    (h : List.Forall₂ (Relabelled f) (d.listing.map Edge.arc) (d'.listing.map Edge.arc)) :
    ∃ g g', (F.combine c d).result = .ok g ∧ (F.combine c d').result = .ok g' ∧
      g.nodes = F.nodes ∧ g.Alike g' ∧
      List.Forall₂ (Arc.Renamed f) (g.listing.map Edge.arc) (g'.listing.map Edge.arc) := by
  obtain ⟨g, hg, hnodes, harcs⟩ := combine_arcs hc hd hlabels
  obtain ⟨g', hg', hnodes', harcs'⟩ := combine_arcs hc hd' hlabels'
  -- edges of control dependence have no variables, those of data dependence are related already
  have hcontrol : List.Forall₂ (Arc.Renamed f)
      (c.listing.map fun e => (e.source, e.target, Graph.ofKind "control"))
      (c.listing.map fun e => (e.source, e.target, Graph.ofKind "control")) := by
    refine List.forall₂_same.2 fun a ha => ?_
    obtain ⟨e, -, rfl⟩ := List.mem_map.1 ha
    exact ⟨rfl, rfl, .cons ⟨rfl, rfl⟩ .nil⟩
  have hdata : List.Forall₂ (Arc.Renamed f)
      (d.listing.map fun e => (e.source, e.target, (Graph.ofKind "data").merge e.attributes))
      (d'.listing.map fun e => (e.source, e.target, (Graph.ofKind "data").merge e.attributes)) := by
    rw [List.forall₂_map_left_iff, List.forall₂_map_right_iff] at h ⊢
    refine h.imp fun e e' he => ?_
    obtain ⟨s, t, vars, vars', harc, harc', hvars⟩ := he
    cases e
    cases e'
    cases harc
    cases harc'
    exact ⟨rfl, rfl, .cons ⟨rfl, rfl⟩ (.cons ⟨rfl, hvars⟩ .nil)⟩
  have hedges : List.Forall₂ (fun e e' => Arc.Renamed f e.arc e'.arc) g.edges g'.edges := by
    rw [← List.forall₂_map_right_iff, ← List.forall₂_map_left_iff, harcs, harcs']
    exact List.rel_append hcontrol hdata
  have hends : ∀ e e' : Edge Node, Arc.Renamed f e.arc e'.arc →
      e'.source = e.source ∧ e'.target = e.target := fun _ _ he => ⟨he.1, he.2.1⟩
  refine ⟨g, g', hg, hg', hnodes, ?_, ?_⟩
  · exact Graph.alike_of_forall₂ hends (hnodes'.trans hnodes.symm) hedges
  · rw [List.forall₂_map_left_iff, List.forall₂_map_right_iff]
    exact Graph.forall₂_listing hends (hnodes'.trans hnodes.symm) hedges

/-- Graphs on the nodes of `F` before and after a renaming: data dependence `d` and `d'`, and all
dependences `g` and `g'`. -/
structure Renamed (F : FlowGraph) (f : Element → Element) (d d' g g' : Graph Node) : Prop where
  nodes : d.nodes = F.nodes
  nodes' : d'.nodes = F.nodes
  listing : List.Forall₂ (Relabelled f) (d.listing.map Edge.arc) (d'.listing.map Edge.arc)
  combined_nodes : g.nodes = F.nodes
  alike : g.Alike g'
  combined : List.Forall₂ (Arc.Renamed f) (g.listing.map Edge.arc) (g'.listing.map Edge.arc)

/-- **All graphs** are built before and after a renaming. -/
theorem exists_renamed (hF : Bounded F) (h : p.RenamedBy f p') (hp : p.Answers F)
    (hp' : p'.Answers F) :
    ∃ c d d' g g', F.controlDependence.result = .ok c ∧ (F.dataDependence p).result = .ok d ∧
      (F.dataDependence p').result = .ok d' ∧ (F.combine c d).result = .ok g ∧
      (F.combine c d').result = .ok g' ∧ F.Renamed f d d' g g' := by
  obtain ⟨c, hc, hcnodes, -⟩ := controlDependence_spec hF
  obtain ⟨d, hd, hdnodes, -, -, hlabels⟩ := dataDependence_spec hp
  obtain ⟨d', hd', hdnodes', -, -, hlabels'⟩ := dataDependence_spec hp'
  have hlisting := forall₂_dataListing h hp hp' hd hd'
  obtain ⟨g, g', hg, hg', hgnodes, halike, hcombined⟩ := combine_renamed hcnodes hdnodes hdnodes'
    (fun e he => (hlabels e he).imp fun _ h => h.1)
    (fun e he => (hlabels' e he).imp fun _ h => h.1) hlisting
  exact ⟨c, d, d', g, g', hc, hd, hd', hg, hg', hdnodes, hdnodes', hlisting, hgnodes, halike,
    hcombined⟩

end FlowGraph

/-! ### Slices and metrics -/

/-- The slices `s` and `s'` have the same members, the direct ones in whatever order. -/
structure Slice.Agrees (s s' : Slice Node) : Prop where
  criterion : s'.criterion = s.criterion
  nodes : s'.nodes.Perm s.nodes
  transitive : s'.transitive = s.transitive

theorem Slice.backward_eq {g d : Graph Node} {n : Node} (hg : n ∈ g.nodes) (hd : n ∈ d.nodes)
    (unit : Value) :
    (backward g d (some n) unit).result =
      .ok ⟨n, d.predecessors n, g.collect [] (g.predecessors n)⟩ := by
  simp [backward, Graph.contains, Graph.predecessorsOf, Graph.transitivePredecessors, Graph.member,
    hg, hd, ok_bind]

namespace FlowGraph.Renamed

variable {F : FlowGraph} {f : Element → Element} {d d' g g' : Graph Node}
  (h : F.Renamed f d d' g g')

include h

/-- Labels apart, the data dependence graphs list the same edges. -/
theorem mem_successors_iff (s t : Node) : t ∈ d'.successors s ↔ t ∈ d.successors s := by
  have hlisting := h.listing
  rw [List.forall₂_map_left_iff, List.forall₂_map_right_iff] at hlisting
  have hends : (d'.listing.map fun e => (e.source, e.target)) =
      d.listing.map fun e => (e.source, e.target) := by
    refine map_eq_of_forall₂ (fun e e' he => ?_) hlisting
    obtain ⟨a, b, vars, vars', harc, harc', -⟩ := he
    cases e
    cases e'
    cases harc
    cases harc'
    rfl
  rw [Graph.mem_successors_iff_listing, hends, ← Graph.mem_successors_iff_listing]

/-- The labels of data dependence are renamed. -/
theorem data : List.Forall₂ (Arc.Renamed f) (d.listing.map Edge.arc) (d'.listing.map Edge.arc) := by
  refine h.listing.imp fun a b hab => ?_
  obtain ⟨s, t, vars, vars', rfl, rfl, hvars⟩ := hab
  exact ⟨rfl, rfl, .cons ⟨rfl, hvars⟩ .nil⟩

theorem outputs_eq : d'.outputs = d.outputs := by
  rw [Graph.outputs, Graph.sinks_congr (h.nodes'.trans h.nodes.symm) h.mem_successors_iff,
    Graph.outputs]

theorem mem_nodes_of_mem_outputs {o : Node} (ho : o ∈ d.outputs) : o ∈ g.nodes := by
  rw [h.combined_nodes, ← h.nodes]
  exact (List.mem_filter.1 ((List.mergeSort_perm d.sinks _).mem_iff.1 ho)).1

/-- **`Slice.backward`** gives the same members for a node `n`. -/
theorem exists_slice {n : Node} (hn : n ∈ F.nodes) (unit : Value) :
    ∃ s s', (Slice.backward g d (some n) unit).result = .ok s ∧
      (Slice.backward g' d' (some n) unit).result = .ok s' ∧ s.Agrees s' := by
  have hg' : g'.nodes = F.nodes := h.alike.nodes.trans h.combined_nodes
  -- data dependence has its edges in another order, the combined graph has them in the same
  refine ⟨_, _, Slice.backward_eq (h.combined_nodes ▸ hn) (h.nodes ▸ hn) unit,
    Slice.backward_eq (hg' ▸ hn) (h.nodes' ▸ hn) unit, rfl, ?_, ?_⟩
  · refine (List.perm_ext_iff_of_nodup (nodup_eraseDups _) (nodup_eraseDups _)).2 fun m => ?_
    show m ∈ d'.predecessors n ↔ m ∈ d.predecessors n
    rw [Graph.mem_predecessors_iff, h.mem_successors_iff, Graph.mem_predecessors_iff]
  · show g'.collect [] (g'.predecessors n) = g.collect [] (g.predecessors n)
    rw [h.alike.collect_eq, h.alike.predecessors_eq]

/-- **`Metric.compute`** depends on the outputs, on what leads to them, and on the size of the last
slice. -/
theorem compute_eq (m : Metric) {last last' : Option (Slice Node)}
    (hlast : Option.Rel Slice.Agrees last last') (mode : MetricMode) (unit : Value) :
    m.compute g' d' last' mode unit = m.compute g d last mode unit := by
  -- the last slice is read for its size only
  have hsize : (last'.map fun s => s.transitive.length) =
      last.map fun s => s.transitive.length := by
    cases hlast with
    | none => rfl
    | some hs => rw [Option.map_some, Option.map_some, hs.transitive]
  have hshared : Shared.ofOutputs g' d.outputs = Shared.ofOutputs g d.outputs := by
    rw [Shared.ofOutputs, Shared.ofOutputs, h.alike.nodes]
    refine congrArg (· >>= _) (mapM_congr fun o ho => ?_)
    rw [h.alike.transitivePredecessors_eq (h.mem_nodes_of_mem_outputs ho)]
  simp only [Metric.compute, h.outputs_eq, hsize, hshared]

end FlowGraph.Renamed

/-! ### Queries -/

section Queries

variable {a : Analysis} (ha : a.Faithful) {d g : Graph Node}
  (hd : Derived.data.built a.subject = .ok d) (hg : Derived.combined.built a.subject = .ok g)

include ha hd hg

theorem Query.result_slice (r : Option Node) :
    (Query.slice r a).2.result = (Slice.backward g d r a.flow.unit).result := by
  have hyields := (Request.slice r).ask_yields ha
  simp only [Request.plan, Plan.direct, hd, hg, ok_bind] at hyields
  exact hyields.result

theorem Query.result_metric (m : Metric) (last : Option (Slice Node)) :
    (Query.metric m last a).2.result =
      (m.compute g d last a.options.metricMode a.flow.unit).result := by
  have hyields := (Request.metric m last).ask_yields ha
  simp only [Request.plan, Plan.direct, hd, hg, ok_bind] at hyields
  exact hyields.result

end Queries

/-- `Analysis.start` builds the flow graph from the stream and the transitions, which a renaming
leaves alone. -/
theorem Analysis.start_rename {l : Listing} {options : Options} {a : Analysis}
    (ha : (start l.method options).result = .ok a) (f : Element → Element) :
    (start (l.rename f).method options).result = .ok { a with method := (l.rename f).method } := by
  obtain ⟨F, hbuild, rfl⟩ := start_eq_ok.1 ha
  exact start_eq_ok.2 ⟨F, hbuild, rfl⟩

/-- **Variables are opaque.** Take a listing whose flow graph is built, and rename its variables so
that different ones stay different. The flow graph and control dependence are the same. Data
dependence and the combined graph have the same nodes, and list edges between the same nodes in the
same order, with the renamed labels. Outputs, the slice of every node and both metrics are the
same. -/
theorem Analysis.rename_variables {l : Listing} {f : Element → Element} (hf : l.Separates f)
    {options : Options} {a : Analysis} (ha : (Analysis.start l.method options).result = .ok a) :
    ∃ a', (Analysis.start (l.rename f).method options).result = .ok a' ∧ a'.flow = a.flow ∧
      (∃ c, (Query.control a).2.result = .ok c ∧ (Query.control a').2.result = .ok c) ∧
      (∃ d d', (Query.data a).2.result = .ok d ∧ (Query.data a').2.result = .ok d' ∧
        d'.nodes = d.nodes ∧
        List.Forall₂ (Arc.Renamed f) (d.listing.map Edge.arc) (d'.listing.map Edge.arc)) ∧
      (∃ g g', (Query.combined a).2.result = .ok g ∧ (Query.combined a').2.result = .ok g' ∧
        g'.nodes = g.nodes ∧
        List.Forall₂ (Arc.Renamed f) (g.listing.map Edge.arc) (g'.listing.map Edge.arc)) ∧
      (∃ os, (Query.outputs a).2.result = .ok os ∧ (Query.outputs a').2.result = .ok os) ∧
      (∀ n ∈ a.flow.nodes, ∃ s s', (Query.slice (some n) a).2.result = .ok s ∧
        (Query.slice (some n) a').2.result = .ok s' ∧ s.Agrees s') ∧
      ∀ m last last', Option.Rel Slice.Agrees last last' →
        (Query.metric m last' a').2.result = (Query.metric m last a).2.result := by
  -- one flow graph serves both analyses
  let a' : Analysis := { a with method := (l.rename f).method }
  have ha' : (start (l.rename f).method options).result = .ok a' := start_rename ha f
  obtain ⟨hfaithful, hmethod, hbuild⟩ := faithful_of_start ha
  obtain ⟨hfaithful', -, hbuild'⟩ := faithful_of_start ha'
  obtain ⟨c, d, d', g, g', hc, hd, hd', hg, hg', h⟩ :=
    FlowGraph.exists_renamed (FlowGraph.bounded_of_build hbuild) (Listing.renamedBy hf)
      (Listing.answers hbuild) (Listing.answers hbuild')
  rw [← hmethod] at hd
  -- the graphs that are built when they are asked for
  have hgraph : Derived.combined.built a.subject = .ok g :=
    (Derived.built_combined (s := a.subject) hc hd).trans hg
  have hgraph' : Derived.combined.built a'.subject = .ok g' :=
    (Derived.built_combined (s := a'.subject) hc hd').trans hg'
  refine ⟨a', ha', rfl, ⟨c, ?_, ?_⟩, ⟨d, d', ?_, ?_, ?_, h.data⟩,
    ⟨g, g', ?_, ?_, h.alike.nodes, h.combined⟩, ⟨d.outputs, ?_, ?_⟩, fun n hn => ?_,
    fun m last last' hlast => ?_⟩
  · exact (Query.control_yields hfaithful).result.trans hc
  · exact (Query.control_yields hfaithful').result.trans hc
  · exact (Query.data_yields hfaithful).result.trans hd
  · exact (Query.data_yields hfaithful').result.trans hd'
  · exact h.nodes'.trans h.nodes.symm
  · exact (Query.combined_yields hfaithful).result.trans hgraph
  · exact (Query.combined_yields hfaithful').result.trans hgraph'
  · exact (Query.outputs_yields hfaithful hd).result
  · rw [← h.outputs_eq]
    exact (Query.outputs_yields hfaithful' hd').result
  · rw [Query.result_slice hfaithful hd hgraph, Query.result_slice hfaithful' hd' hgraph']
    exact h.exists_slice hn a.flow.unit
  · rw [Query.result_metric hfaithful hd hgraph, Query.result_metric hfaithful' hd' hgraph',
      h.compute_eq m hlast]

/-- The variable `x`, with `a` and `b` exchanged. -/
def exchange (a b x : Element) : Element :=
  if x.val == a.val then b else if x.val == b.val then a else x

theorem exchange_beq (a b x y : Element) :
    ((exchange a b x).val == (exchange a b y).val) = (x.val == y.val) := by
  -- a variable is the first one, or the second, or neither
  have hcases : ∀ z : Element, (z.val == a.val) = true ∧ exchange a b z = b ∨
      (z.val == b.val) = true ∧ exchange a b z = a ∨
      (z.val == a.val) = false ∧ (z.val == b.val) = false ∧ exchange a b z = z := by
    intro z
    unfold exchange
    cases z.val == a.val <;> cases z.val == b.val <;> simp
  obtain ⟨hx, hx'⟩ | ⟨hx, hx'⟩ | ⟨hxa, hxb, hx'⟩ := hcases x <;>
    obtain ⟨hy, hy'⟩ | ⟨hy, hy'⟩ | ⟨hya, hyb, hy'⟩ := hcases y <;> rw [hx', hy']
  · rw [BEq.congr_left hx, BEq.congr_right hy, BEq.rfl, BEq.rfl]
  · rw [BEq.congr_left hx, BEq.congr_right hy, BEq.comm]
  · rw [BEq.congr_left hx, BEq.comm, hyb, BEq.comm, hya]
  · rw [BEq.congr_left hx, BEq.congr_right hy, BEq.comm]
  · rw [BEq.congr_left hx, BEq.congr_right hy, BEq.rfl, BEq.rfl]
  · rw [BEq.congr_left hx, BEq.comm, hya, BEq.comm, hyb]
  · rw [BEq.congr_right hy, hxa, hxb]
  · rw [BEq.congr_right hy, hxa, hxb]

/-- Two definitions, and a use of both. -/
def Listing.crossing : Listing where
  name := .text "crossing"
  instructions := (List.range 3).map fun i => some { ident := i, text := "", shown := "" }
  transitions := [.tuple [.int 0, .int 1], .tuple [.int 1, .int 2]]
  definitions := .ofList [(.int 0, ValueSet.empty.insert x), (.int 1, ValueSet.empty.insert y)]
  uses := .ofList [(.int 2, (ValueSet.empty.insert x).insert y)]
where
  x : Element := ⟨.text "x", rfl⟩
  y : Element := ⟨.text "y", rfl⟩

/-- The variables exchanged: the definitions are now found in the other order. -/
theorem Analysis.rename_variables_crossing :
    ∃ a a' d d', Listing.crossing.Separates (exchange Listing.crossing.x Listing.crossing.y) ∧
      (start Listing.crossing.method default).result = .ok a ∧
      (start (Listing.crossing.rename
        (exchange Listing.crossing.x Listing.crossing.y)).method default).result = .ok a' ∧
      (Query.data a).2.result = .ok d ∧ (Query.data a').2.result = .ok d' ∧
      List.Forall₂ (Arc.Renamed (exchange Listing.crossing.x Listing.crossing.y))
        (d.listing.map Edge.arc) (d'.listing.map Edge.arc) := by
  obtain ⟨F, hbuild⟩ := FlowGraph.exists_build (m := Listing.crossing.method) 0 .none rfl rfl
  have ha : (start Listing.crossing.method default).result = .ok _ :=
    start_eq_ok.2 ⟨F, hbuild, rfl⟩
  have hf : Listing.crossing.Separates (exchange Listing.crossing.x Listing.crossing.y) :=
    fun x y _ _ => exchange_beq _ _ x y
  obtain ⟨a', ha', -, -, ⟨d, d', hd, hd', -, hlisting⟩, -⟩ := rename_variables hf ha
  exact ⟨_, a', d, d', hf, ha, ha', hd, hd', hlisting⟩

end Dependence
