import Dependence.Data.Basic
import Dependence.Proofs.Control
import Dependence.Proofs.Search

/-!
# Data dependence is exact

A definition supplies a use when some way leads from it to the use without another definition of the
variable in between (`FlowGraph.Supplies`). The search for such definitions goes backward from the
use and passes through a node only if the node has an instruction and leaves the variable alone; it
visits each node once. By the frontier lemma for searches it nevertheless finds the ends of all
ways, also of those that pass through the use itself or run in circles
(`FlowGraph.reachingFrom_spec`).

The definitions found for one variable after another are collected in a map from definitions to sets
of variables, which gets an edge for each of its keys (`FlowGraph.supply_spec`). So there is one
edge for each pair, labelled with all variables that the pair is about.

* `FlowGraph.dataDependence_exact` — the graph has exactly these edges and labels.
-/

namespace Dependence

open Relation

/-! ### Sets of variables -/

namespace ValueSet

theorem contains_empty (v : Value) : empty.contains v = false := rfl

theorem contains_insert (s : ValueSet) (x : Element) (v : Value) :
    (s.insert x).contains v = (s.contains v || x.val == v) := by
  unfold insert
  split
  · -- the element is there already, in some spelling
    rename_i hx
    by_cases hxv : (x.val == v) = true
    · have hv : s.contains v = true := by
        obtain ⟨y, hy, hyx⟩ := List.any_eq_true.1 hx
        exact List.any_eq_true.2 ⟨y, hy, BEq.trans hyx hxv⟩
      rw [hv, Bool.true_or]
    · rw [eq_false_of_ne_true hxv, Bool.or_false]
  · simp [contains]

theorem contains_congr {s : ValueSet} {v w : Value} (h : (v == w) = true) :
    s.contains v = s.contains w := by
  simp only [contains, BEq.congr_right h]

theorem mem_sorted {s : ValueSet} {x : Element} : x ∈ s.sorted ↔ x.val ∈ s.items := by
  simp only [sorted, elements, List.mem_map, List.mem_mergeSort, List.mem_attachWith]
  constructor
  · rintro ⟨pair, ⟨y, hy, rfl⟩, rfl⟩
    exact hy
  · exact fun hx => ⟨_, ⟨x, hx, rfl⟩, rfl⟩

/-- `sorted` lists all that a set contains, each in its spelling. -/
theorem contains_iff_sorted {s : ValueSet} {v : Value} :
    s.contains v = true ↔ ∃ x ∈ s.sorted, (x.val == v) = true := by
  rw [contains, List.any_eq_true]
  constructor
  · rintro ⟨y, hy, hyv⟩
    exact ⟨⟨y, s.hashable y hy⟩, mem_sorted.2 hy, hyv⟩
  · rintro ⟨x, hx, hxv⟩
    exact ⟨x.val, mem_sorted.1 hx, hxv⟩

end ValueSet

/-! ### Definitions and uses of nodes -/

/-- A text can be an element of a set. -/
theorem Value.unhashable?_text (s : String) : (Value.text s).unhashable? = Option.none := rfl

/-- `v` is among the answers of `ask` for the instruction of `n`. -/
def Node.Names (ask : Option Instruction → Except Error ValueSet) (n : Node) (v : Value) : Prop :=
  ∃ i s, n.instruction? = some i ∧ ask (some i) = .ok s ∧ s.contains v = true

namespace DefUse

/-- `n` defines `v`. -/
abbrev Defines (p : DefUse) (n : Node) (v : Value) : Prop := n.Names p.definitions v

/-- `n` uses `v`. -/
abbrev Uses (p : DefUse) (n : Node) (v : Value) : Prop := n.Names p.uses v

/-- No look-up of `p` for an instruction of `f` fails. -/
def Answers (p : DefUse) (f : FlowGraph) : Prop :=
  ∀ n ∈ f.nodes, ∀ i, n.instruction? = some i →
    (∃ s, p.definitions (some i) = .ok s) ∧ ∃ s, p.uses (some i) = .ok s

end DefUse

namespace FlowGraph

variable {f : FlowGraph} {p : DefUse}

/-- `v` can pass through `u`: the node has an instruction, and one that does not define `v`. -/
def Passes (p : DefUse) (v : Value) (u : Node) : Prop :=
  u.instruction? ≠ none ∧ ¬ p.Defines u v

/-- `v` is carried from `d` to `n`: along some way, all nodes in between let it pass. -/
def Carries (f : FlowGraph) (p : DefUse) (v : Value) (d n : Node) : Prop :=
  ∃ interior, Path f.Flows d n (d :: (interior ++ [n])) ∧ ∀ u ∈ interior, Passes p v u

/-- **A definition supplies a use**: `d` defines `v`, `n` uses it, and it is carried from the one to
the other. -/
def Supplies (f : FlowGraph) (p : DefUse) (d n : Node) (v : Value) : Prop :=
  p.Defines d v ∧ p.Uses n v ∧ f.Carries p v d n

/-- `variablesOf` gives the variables that are named, if the look-up succeeds. -/
theorem variablesOf_spec {ask : Option Instruction → Except Error ValueSet} {n : Node}
    (h : ∀ i, n.instruction? = some i → ∃ s, ask (some i) = .ok s) :
    ∃ s, f.variablesOf ask n = .ok s ∧ ∀ v, s.contains v = true ↔ n.Names ask v := by
  unfold variablesOf Node.Names
  cases hi : n.instruction? with
  | none => exact ⟨.empty, rfl, fun v => by simp [ValueSet.contains_empty]⟩
  | some i =>
    obtain ⟨s, hs⟩ := h i hi
    simp only [hs]
    refine ⟨s, rfl, fun v => ⟨fun hv => ⟨i, s, rfl, hs, hv⟩, ?_⟩⟩
    rintro ⟨i', s', hi', hs', hv⟩
    cases hi'
    cases hs.symm.trans hs'
    exact hv

theorem definedBy_spec (hp : p.Answers f) {n : Node} (hn : n ∈ f.nodes) :
    ∃ s, f.definedBy p n = .ok s ∧ ∀ v, s.contains v = true ↔ p.Defines n v :=
  variablesOf_spec fun i hi => (hp n hn i hi).1

theorem usedBy_spec (hp : p.Answers f) {n : Node} (hn : n ∈ f.nodes) :
    ∃ s, f.usedBy p n = .ok s ∧ ∀ v, s.contains v = true ↔ p.Uses n v :=
  variablesOf_spec fun i hi => (hp n hn i hi).2

theorem defines_spec (hp : p.Answers f) {n : Node} (hn : n ∈ f.nodes) (x : Element) :
    ∃ b, f.defines p x.val n = .ok b ∧ (b = true ↔ p.Defines n x.val) := by
  obtain ⟨s, hs, hcontains⟩ := definedBy_spec hp hn
  refine ⟨s.contains x.val, ?_, hcontains x.val⟩
  have hhashed : x.val.hashed = .ok x.val := by rw [Value.hashed, x.property]
  rw [defines, hs, ok_bind, hhashed]
  rfl

/-! ### The search -/

open Classical in
/-- Where a search against the flow goes on from `u`: to its predecessors, if `u` lets it through.
-/
noncomputable def upstream (f : FlowGraph) (Through : Node → Prop) (u : Node) : List Node :=
  if Through u then f.predecessors u else []

theorem mem_upstream {Through : Node → Prop} {u w : Node} :
    w ∈ f.upstream Through u ↔ Through u ∧ f.Flows w u := by
  unfold upstream
  split <;> simp [*, Flows, Graph.mem_predecessors_iff]

/-- **A way against the flow**, from node to node that lets it through, is a way along the flow
walked backward. -/
theorem exists_upstream_iff {Through : Node → Prop} {d n : Node} :
    (∃ q ∈ f.predecessors n, ReflTransGen (fun a b => b ∈ f.upstream Through a) q d) ↔
      ∃ interior, Path f.Flows d n (d :: (interior ++ [n])) ∧ ∀ u ∈ interior, Through u := by
  constructor
  · rintro ⟨q, hq, hreach⟩
    induction hreach with
    | refl => exact ⟨[], .step (Graph.mem_predecessors_iff.1 hq) (.here n), by simp⟩
    | @tail a b _ hstep ih =>
      -- one node further back: `a` becomes an interior node
      obtain ⟨interior, hpath, hpass⟩ := ih
      obtain ⟨hpa, hflow⟩ := mem_upstream.1 hstep
      exact ⟨a :: interior, .step hflow hpath, List.forall_mem_cons.2 ⟨hpa, hpass⟩⟩
  · rintro ⟨interior, hpath, hpass⟩
    -- on the interior, from the far end on: its first node is the last one of the search
    induction interior generalizing d with
    | nil =>
      cases hpath with
      | step first rest =>
        obtain rfl := rest.eq_head
        exact ⟨d, Graph.mem_predecessors_iff.2 first, .refl⟩
    | cons a interior ih =>
      obtain ⟨hpa, hrest⟩ := List.forall_mem_cons.1 hpass
      cases hpath with
      | step first rest =>
        obtain rfl := rest.eq_head
        obtain ⟨q, hq, hreach⟩ := ih rest hrest
        exact ⟨q, hq, hreach.tail (mem_upstream.2 ⟨hpa, first⟩)⟩

/-- What is found after `n` was visited, and `n` if it is a definition itself, is what there was to
be found. -/
theorem mem_or_iff_escapes {v : Value} {visited pending found : List Node} {n d : Node}
    (hn : n ∉ visited) (h : d ∈ found ↔ p.Defines d v ∧
      ∃ q ∈ f.upstream (Passes p v) n ++ pending,
        Escapes (f.upstream (Passes p v)) (n :: visited) q d) :
    (d = n ∧ p.Defines n v) ∨ d ∈ found ↔
      p.Defines d v ∧ ∃ q ∈ n :: pending, Escapes (f.upstream (Passes p v)) visited q d := by
  rw [exists_escapes_cons hn, h, and_or_left]
  refine or_congr_left ?_
  constructor
  · rintro ⟨rfl, hd⟩
    exact ⟨hd, rfl⟩
  · rintro ⟨hd, rfl⟩
    exact ⟨rfl, hd⟩

/-- **`reachingFrom` finds the definitions** from which some way leads to the nodes `pending`,
around those `visited` before. -/
theorem reachingFrom_spec (hp : p.Answers f) (x : Element) (visited pending : List Node)
    (hpending : ∀ n ∈ pending, n ∈ f.nodes) :
    ∃ found, f.reachingFrom p x.val visited pending = .ok found ∧
      ∀ d, d ∈ found ↔
        p.Defines d x.val ∧
          ∃ q ∈ pending, Escapes (f.upstream (Passes p x.val)) visited q d := by
  -- along the search; in each case `upstream` says where it goes on from the node looked at
  induction visited, pending using reachingFrom.induct f with
  | case1 visited => exact ⟨[], by rw [reachingFrom], by simp⟩
  | case2 visited n pending hn ih =>
    obtain ⟨found, hfound, hiff⟩ := ih (List.forall_mem_cons.1 hpending).2
    refine ⟨found, by rw [reachingFrom, if_pos hn, hfound], fun d => ?_⟩
    rw [hiff, exists_escapes_of_mem (List.contains_iff_mem.1 hn)]
  | case3 visited n pending hn hinstr ih =>
    -- a node without an instruction stops the search, and defines nothing
    have hnew : n ∉ visited := fun hmem => hn (List.contains_iff_mem.2 hmem)
    have hup : f.upstream (Passes p x.val) n = [] := if_neg fun hpass => hpass.1 hinstr
    have hdef : ¬ p.Defines n x.val := by
      rintro ⟨i, -, hi, -⟩
      rw [hinstr] at hi
      cases hi
    obtain ⟨found, hfound, hiff⟩ := ih (List.forall_mem_cons.1 hpending).2
    refine ⟨found, by rw [reachingFrom, if_neg hn, if_pos hinstr, hfound], fun d => ?_⟩
    rw [← mem_or_iff_escapes hnew (by rw [hiff, hup, List.nil_append])]
    simp [hdef]
  | case4 visited n pending hn hsome ih₁ ih₂ =>
    have hnew : n ∉ visited := fun hmem => hn (List.contains_iff_mem.2 hmem)
    obtain ⟨hnmem, hrest⟩ := List.forall_mem_cons.1 hpending
    obtain ⟨b, hb, hdef⟩ := defines_spec hp hnmem x
    cases b with
    | true =>
      -- a definition is found, and stops the search
      have hdef' : p.Defines n x.val := hdef.1 rfl
      have hup : f.upstream (Passes p x.val) n = [] := if_neg fun hpass => hpass.2 hdef'
      obtain ⟨found, hfound, hiff⟩ := ih₁ hrest
      refine ⟨n :: found, ?_, fun d => ?_⟩
      · rw [reachingFrom, if_neg hn, if_neg hsome, hb, ok_bind, if_pos rfl, hfound]
        rfl
      · rw [← mem_or_iff_escapes hnew (by rw [hiff, hup, List.nil_append]), List.mem_cons]
        simp [hdef']
    | false =>
      -- the variable passes, and the search goes on before the node
      have hdef' : ¬ p.Defines n x.val := fun hd => Bool.false_ne_true (hdef.2 hd)
      have hup : f.upstream (Passes p x.val) n = f.predecessors n := if_pos ⟨hsome, hdef'⟩
      have hmem : ∀ m ∈ f.predecessors n ++ pending, m ∈ f.nodes := fun m hm =>
        (List.mem_append.1 hm).elim
          (fun hm => (Graph.mem_nodes_of_mem_successors (Graph.mem_predecessors_iff.1 hm)).1)
          (hrest m)
      obtain ⟨found, hfound, hiff⟩ := ih₂ hmem
      refine ⟨found, ?_, fun d => ?_⟩
      · rw [reachingFrom, if_neg hn, if_neg hsome, hb, ok_bind, if_neg Bool.false_ne_true, hfound]
      · rw [← mem_or_iff_escapes hnew (by rw [hiff, hup])]
        simp [hdef']

/-- **`nearestDefinitions`** finds the definitions that the variable is carried from. -/
theorem nearestDefinitions_spec (hp : p.Answers f) {n : Node} (hn : n ∈ f.nodes) (x : Element) :
    ∃ found, f.nearestDefinitions p (some n) x.val = .ok found ∧
      ∀ d, d ∈ found ↔ p.Defines d x.val ∧ f.Carries p x.val d n := by
  have hpred : ∀ m ∈ f.predecessors n, m ∈ f.nodes := fun m hm =>
    (Graph.mem_nodes_of_mem_successors (Graph.mem_predecessors_iff.1 hm)).1
  obtain ⟨found, hfound, hiff⟩ := reachingFrom_spec hp x [] (f.predecessors n) hpred
  refine ⟨found, ?_, fun d => ?_⟩
  · rw [nearestDefinitions, Graph.predecessorsOf, Graph.member,
      if_pos (List.contains_iff_mem.2 hn)]
    exact hfound
  · rw [hiff, Carries, ← exists_upstream_iff]
    simp only [escapes_nil]

/-! ### What supplies a node -/

namespace Supply

/-- The variables noted for the definition `d`. -/
def of (s : Supply) (d : Node) : ValueSet := (s.find? d).getD .empty

theorem contains_of_note (x : Element) (s : Supply) (d d' : Node) (v : Value) :
    ((note x s d).of d').contains v = ((s.of d').contains v || (d == d' && x.val == v)) := by
  rw [of, note, OrderedMap.find?_upsert]
  by_cases hd : d = d'
  · subst hd
    simp [of, ValueSet.contains_insert]
  · simp [hd, of]

/-- Every definition in `s` has a variable noted. -/
def Inhabited (s : Supply) : Prop := ∀ d, s.contains d = true → ∃ v, (s.of d).contains v = true

theorem inhabited_note {x : Element} {s : Supply} (h : s.Inhabited) (d : Node) :
    (note x s d).Inhabited := by
  intro d' hd'
  -- the definition noted has the variable; the others have what they had
  by_cases hd : d = d'
  · exact ⟨x.val, by rw [contains_of_note]; simp [hd]⟩
  · have hold : s.contains d' = true := by
      rw [OrderedMap.contains_eq_isSome_find?, note, OrderedMap.find?_upsert] at hd'
      rw [OrderedMap.contains_eq_isSome_find?]
      simpa [hd] using hd'
    obtain ⟨v, hv⟩ := h d' hold
    exact ⟨v, by rw [contains_of_note, hv, Bool.true_or]⟩

/-- **`note` for several definitions** `ds` adds the variable to what each of them has. -/
theorem foldl_note_spec (x : Element) (ds : List Node) (s : Supply) (h : s.Inhabited) :
    (ds.foldl (note x) s).Inhabited ∧
      ∀ d v, ((ds.foldl (note x) s).of d).contains v = true ↔
        (s.of d).contains v = true ∨ d ∈ ds ∧ (x.val == v) = true := by
  induction ds generalizing s with
  | nil => exact ⟨h, by simp⟩
  | cons d₀ ds ih =>
    obtain ⟨hinh, hiff⟩ := ih (note x s d₀) (inhabited_note h d₀)
    refine ⟨hinh, fun d v => ?_⟩
    rw [List.foldl_cons, hiff, contains_of_note]
    simp only [Bool.or_eq_true, Bool.and_eq_true, beq_iff_eq, List.mem_cons, or_assoc, or_and_right,
      eq_comm (a := d₀)]

end Supply

/-- **`supplyOne`** notes one variable for the definitions that reach `n`, other than `n` itself. -/
theorem supplyOne_spec (hp : p.Answers f) {n : Node} (hn : n ∈ f.nodes) (x : Element)
    {s : Supply} (h : s.Inhabited) :
    ∃ s', (f.supplyOne p n s x).result = .ok s' ∧ s'.Inhabited ∧
      ∀ d v, (s'.of d).contains v = true ↔ (s.of d).contains v = true ∨
        d ≠ n ∧ (x.val == v) = true ∧ p.Defines d x.val ∧ f.Carries p x.val d n := by
  obtain ⟨found, hfound, hiff⟩ := nearestDefinitions_spec hp hn x
  obtain ⟨hinh, hcontains⟩ := Supply.foldl_note_spec x (found.filter (· != n)) s h
  refine ⟨_, ?_, hinh, fun d v => ?_⟩
  · simp only [supplyOne, noteData, Outcome.result_bind, Outcome.result_liftM, hfound, ok_bind,
      Outcome.result_write, Outcome.result_pure]
  · rw [hcontains, List.mem_filter, hiff, bne_iff_ne]
    refine or_congr_right ?_
    constructor
    · rintro ⟨⟨hreach, hne⟩, hxv⟩
      exact ⟨hne, hxv, hreach⟩
    · rintro ⟨hne, hxv, hreach⟩
      exact ⟨⟨hreach, hne⟩, hxv⟩

theorem foldlM_supplyOne_spec (hp : p.Answers f) {n : Node} (hn : n ∈ f.nodes)
    (xs : List Element) {s : Supply} (h : s.Inhabited) :
    ∃ s', (xs.foldlM (f.supplyOne p n) s).result = .ok s' ∧ s'.Inhabited ∧
      ∀ d v, (s'.of d).contains v = true ↔ (s.of d).contains v = true ∨
        d ≠ n ∧ ∃ x ∈ xs, (x.val == v) = true ∧ p.Defines d x.val ∧ f.Carries p x.val d n := by
  induction xs generalizing s with
  | nil => exact ⟨s, rfl, h, by simp⟩
  | cons x xs ih =>
    obtain ⟨s₁, hs₁, hinh₁, hiff₁⟩ := supplyOne_spec hp hn x h
    obtain ⟨s₂, hs₂, hinh₂, hiff₂⟩ := ih hinh₁
    refine ⟨s₂, ?_, hinh₂, fun d v => ?_⟩
    · rw [List.foldlM_cons, Outcome.result_bind, hs₁, ok_bind, hs₂]
    · rw [hiff₂, hiff₁, or_assoc, ← and_or_left]
      simp only [List.mem_cons, exists_eq_or_imp]

/-- `Defines` does not depend on how the variable is spelt. -/
theorem defines_congr {n : Node} {v w : Value} (h : (v == w) = true) :
    p.Defines n v ↔ p.Defines n w := by
  simp only [DefUse.Defines, Node.Names, ValueSet.contains_congr h]

theorem carries_congr {d n : Node} {v w : Value} (h : (v == w) = true) :
    f.Carries p v d n ↔ f.Carries p w d n := by
  simp only [Carries, Passes, defines_congr h]

/-- **`supply`** finds what supplies `n`: the definitions, and for each the variables it supplies.
-/
theorem supply_spec (hp : p.Answers f) {n : Node} (hn : n ∈ f.nodes) :
    ∃ s, (f.supply p n).result = .ok s ∧ s.Inhabited ∧
      ∀ d v, (s.of d).contains v = true ↔ d ≠ n ∧ f.Supplies p d n v := by
  obtain ⟨used, hused, huses⟩ := usedBy_spec hp hn
  have hempty : Supply.Inhabited .empty := nofun
  obtain ⟨s, hs, hinh, hiff⟩ := foldlM_supplyOne_spec hp hn used.sorted hempty
  refine ⟨s, ?_, hinh, fun d v => ?_⟩
  · rw [supply, Outcome.result_bind, Outcome.result_liftM, hused, ok_bind, hs]
  · rw [hiff]
    have hnone : (Supply.of .empty d).contains v = true ↔ False := by
      simp [Supply.of, ValueSet.contains_empty]
    rw [hnone, false_or]
    refine and_congr_right fun _ => ?_
    -- the use is one in some spelling, and the spelling does not matter
    constructor
    · rintro ⟨x, hx, hxv, hdef, hway⟩
      have huse : p.Uses n v := (huses v).1 (ValueSet.contains_iff_sorted.2 ⟨x, hx, hxv⟩)
      exact ⟨(defines_congr hxv).1 hdef, huse, (carries_congr hxv).1 hway⟩
    · rintro ⟨hdef, huse, hway⟩
      obtain ⟨x, hx, hxv⟩ := ValueSet.contains_iff_sorted.1 ((huses v).2 huse)
      exact ⟨x, hx, hxv, (defines_congr hxv).2 hdef, (carries_congr hxv).2 hway⟩

/-! ### The graph -/

/-- A way with at least one edge joins nodes of the graph. -/
theorem mem_nodes_of_path {d n : Node} {interior : List Node}
    (h : Path f.Flows d n (d :: (interior ++ [n]))) : d ∈ f.nodes ∧ n ∈ f.nodes := by
  -- from a node on, a way stays among the nodes
  have hlast : ∀ {a b q}, Path f.Flows a b q → a ∈ f.nodes → b ∈ f.nodes := by
    intro a b q hpath
    induction hpath with
    | here a => exact id
    | step first _ ih => exact fun _ => ih (Graph.mem_nodes_of_mem_successors first).2
  generalize hq : d :: (interior ++ [n]) = q at h
  cases h with
  | here => simp at hq
  | step first rest =>
    have hfirst := Graph.mem_nodes_of_mem_successors first
    exact ⟨hfirst.1, hlast rest hfirst.2⟩

/-- What `supply` finds for `n`; nothing where it fails. -/
def suppliesOf (f : FlowGraph) (p : DefUse) (n : Node) : Supply :=
  (f.supply p n).result.toOption.getD .empty

/-- The edges that `addSupply` adds for the use `n`. -/
def dataArcs (f : FlowGraph) (p : DefUse) (n : Node) : List (Arc Node) :=
  (f.suppliesOf p n).entries.map fun e => (e.1, n, aboutVariables e.2)

/-- **The entries of `suppliesOf`** are the definitions to be joined with `n`, each with all
variables that it supplies. -/
theorem mem_suppliesOf (hp : p.Answers f) {n : Node} (hn : n ∈ f.nodes) :
    (f.supply p n).result = .ok (f.suppliesOf p n) ∧
      (∀ d, (∃ e ∈ (f.suppliesOf p n).entries, e.1 = d) ↔ d ≠ n ∧ ∃ v, f.Supplies p d n v) ∧
      ∀ e ∈ (f.suppliesOf p n).entries, ∀ v, e.2.contains v = true ↔ f.Supplies p e.1 n v := by
  obtain ⟨s, hs, hinh, hiff⟩ := supply_spec hp hn
  have heq : f.suppliesOf p n = s := by rw [suppliesOf, hs]; rfl
  rw [heq]
  -- keys are distinct, so an entry holds what is noted for its key
  have hof : ∀ e ∈ s.entries, s.of e.1 = e.2 := fun e he => by
    rw [Supply.of, OrderedMap.find?_eq_some_iff.2 ⟨e, he, BEq.rfl, rfl⟩, Option.getD_some]
  -- no entry is empty, so a key supplies something
  have hkey : ∀ e ∈ s.entries, e.1 ≠ n ∧ ∃ v, f.Supplies p e.1 n v := fun e he => by
    obtain ⟨v, hv⟩ := hinh e.1 (OrderedMap.contains_iff.2 ⟨e, he, BEq.rfl⟩)
    obtain ⟨hne, hsup⟩ := (hiff e.1 v).1 hv
    exact ⟨hne, v, hsup⟩
  refine ⟨hs, fun d => ⟨?_, ?_⟩, fun e he v => ?_⟩
  · rintro ⟨e, he, rfl⟩
    exact hkey e he
  · rintro ⟨hne, v, hsup⟩
    -- a variable is noted, so the definition is in the map
    have hv := (hiff d v).2 ⟨hne, hsup⟩
    cases hfind : s.find? d with
    | none =>
      rw [Supply.of, hfind] at hv
      cases hv
    | some vars =>
      obtain ⟨e, he, hed, -⟩ := OrderedMap.find?_eq_some_iff.1 hfind
      exact ⟨e, he, eq_of_beq hed⟩
  · rw [← hof e he, hiff]
    exact and_iff_right (hkey e he).1

theorem addSupply_spec (hp : p.Answers f) {g : Graph Node} {n : Node} (hnodes : g.nodes = f.nodes)
    (hn : n ∈ f.nodes) :
    ∃ g', (f.addSupply p g n).result = .ok g' ∧ Graph.Extends g (f.dataArcs p n) g' := by
  obtain ⟨hsupply, hkeys, -⟩ := mem_suppliesOf hp hn
  simp only [addSupply, Outcome.result_bind, hsupply, ok_bind, Outcome.result_foldlM,
    Outcome.result_liftM_fault]
  rw [dataArcs, List.map_eq_flatMap]
  refine Graph.foldlM_extends _ _ _ fun e he g' hg' => ?_
  -- a way leads from the definition to `n`, so the definition is a node
  obtain ⟨-, v, -, -, interior, hpath, -⟩ := (hkeys e.1).1 ⟨e, he, rfl⟩
  have hmem : e.1 ∈ f.nodes := (mem_nodes_of_path hpath).1
  obtain ⟨g'', hadd, hext⟩ := Graph.addEdge_spec (g := g') (s := e.1) (t := n)
    (by rw [hg', hnodes]; exact hmem) (by rw [hg', hnodes]; exact hn) (aboutVariables e.2)
  exact ⟨g'', by rw [hadd]; rfl, hext⟩

/-- **The edges of `dataDependence`**, use by use. -/
theorem dataDependence_arcs (hp : p.Answers f) :
    ∃ g, (f.dataDependence p).result = .ok g ∧ g.nodes = f.nodes ∧
      g.edges.map Edge.arc = f.places.flatMap (f.dataArcs p) := by
  obtain ⟨hnodes, hedges⟩ := Graph.nodes_ofNodes (.text "ddg") f.nodup
  obtain ⟨g, hg, hext⟩ := Graph.foldlM_extends (fun g n => (f.addSupply p g n).result)
    (f.dataArcs p) f.places (g := Graph.ofNodes (.text "ddg") f.nodes) fun n hn g hg =>
      addSupply_spec hp (hg.trans hnodes) (mem_places.1 hn).1
  refine ⟨g, ?_, hext.nodes.trans hnodes, ?_⟩
  · simp only [dataDependence, noteData, Outcome.result_bind, Outcome.result_foldlM, hg, ok_bind,
      Outcome.result_write, Outcome.result_pure]
  · rw [hext.arcs, hedges]
    rfl

/-- A node with an instruction is a place: the markers have none. -/
theorem mem_places_of_instruction {n : Node} (hn : n ∈ f.nodes) {i : Instruction}
    (hi : n.instruction? = some i) : n ∈ f.places := by
  refine mem_places.2 ⟨hn, ?_⟩
  unfold Node.instruction? at hi
  unfold Node.isMarker
  split at hi
  · rename_i hcontent
    rw [hcontent]
  · cases hi

/-- A use that is supplied is a place. -/
theorem Supplies.mem_places {d n : Node} {v : Value} (h : f.Supplies p d n v) : n ∈ f.places := by
  obtain ⟨-, ⟨i, -, hi, -⟩, interior, hpath, -⟩ := h
  exact mem_places_of_instruction (mem_nodes_of_path hpath).2 hi

/-- **`dataDependence`** succeeds where no look-up fails: the graph has one edge for each pair of a
definition and a use that it supplies, about the variables that it supplies. -/
theorem dataDependence_spec (hp : p.Answers f) :
    ∃ g, (f.dataDependence p).result = .ok g ∧ g.nodes = f.nodes ∧ g.Simple ∧
      (∀ d n, n ∈ g.successors d ↔ d ≠ n ∧ ∃ v, f.Supplies p d n v) ∧
      ∀ e ∈ g.edges, ∃ vars, e.attributes = aboutVariables vars ∧
        ∀ v, vars.contains v = true ↔ f.Supplies p e.source e.target v := by
  obtain ⟨g, hg, hnodes, harcs⟩ := dataDependence_arcs hp
  refine ⟨g, hg, hnodes, ?_, fun d n => ?_, fun e he => ?_⟩
  · -- an edge is in the group of its target, where each definition stands once
    refine Graph.simple_of_groups Prod.snd harcs f.nodup_places (fun n => ?_) ?_
    · rw [dataArcs, List.map_map]
      refine List.pairwise_map.2 ((f.suppliesOf p n).distinct.imp fun {a b} hab heq => ?_)
      exact beq_eq_false_iff_ne.1 hab (Prod.mk.inj heq).1
    · intro n x hx
      obtain ⟨e, -, rfl⟩ := List.mem_map.1 hx
      rfl
  · rw [Graph.mem_successors_iff_arc, harcs]
    constructor
    · rintro ⟨attributes, hmem⟩
      obtain ⟨n', hn', hd⟩ := List.mem_flatMap.1 hmem
      obtain ⟨e, he, heq⟩ := List.mem_map.1 hd
      cases heq
      exact ((mem_suppliesOf hp (mem_places.1 hn').1).2.1 e.1).1 ⟨e, he, rfl⟩
    · rintro ⟨hne, v, hsup⟩
      have hn := hsup.mem_places
      obtain ⟨e, he, rfl⟩ := ((mem_suppliesOf hp (mem_places.1 hn).1).2.1 d).2 ⟨hne, v, hsup⟩
      exact ⟨_, List.mem_flatMap.2 ⟨n, hn, List.mem_map.2 ⟨e, he, rfl⟩⟩⟩
  · -- an edge comes from an entry of `suppliesOf` for its target
    have hmem : e.arc ∈ f.places.flatMap (f.dataArcs p) := harcs ▸ List.mem_map_of_mem he
    obtain ⟨n, hn, harc⟩ := List.mem_flatMap.1 hmem
    obtain ⟨entry, hentry, heq⟩ := List.mem_map.1 harc
    obtain ⟨hsource, htarget⟩ := Prod.mk.inj heq
    obtain ⟨htarget, hattributes⟩ := Prod.mk.inj htarget
    refine ⟨entry.2, hattributes.symm, fun v => ?_⟩
    rw [(mem_suppliesOf hp (mem_places.1 hn).1).2.2 entry hentry, hsource, htarget]

end FlowGraph

/-! ### Listings -/

namespace Listing

variable {l : Listing}

theorem lookup_of_mem {i : Option Instruction} (table : OrderedMap Value ValueSet)
    (hi : i ∈ l.instructions) : ∃ s, l.lookup table i = .ok s := by
  have hposition : ∃ q, l.instructions.findIdx? (· == i) = some q := by
    rw [← Option.isSome_iff_exists, List.findIdx?_isSome, List.any_eq_true]
    exact ⟨i, hi, BEq.rfl⟩
  obtain ⟨q, hq⟩ := hposition
  exact ⟨_, by rw [lookup, positionOf, hq]; rfl⟩

/-- **A listing answers** for the flow graph that `build` makes of it. -/
theorem answers {table : ℕ} {given : Value} {f : FlowGraph}
    (h : (FlowGraph.build l.method table given).result = .ok f) : l.method.toDefUse.Answers f := by
  obtain ⟨stream, pairs, transitions, unit, hfound, -, hconnect⟩ :=
    FlowGraph.exists_connect_of_build h
  obtain ⟨layout, f', hconnect', hlayout, -, -, hext⟩ :=
    FlowGraph.connect_spec table unit stream transitions
  cases hconnect.symm.trans hconnect'
  obtain ⟨rfl, -⟩ := discover_eq_ok.1 hfound
  intro n hn i hi
  -- the instruction of a node stands in the stream
  have hmem : some i ∈ l.instructions := by
    rw [hext.nodes] at hn
    rcases hlayout.cases_node hn with rfl | rfl | ⟨j, -, hj⟩
    · cases hi
    · cases hi
    · rw [Node.instruction?, hj] at hi
      simp only [FlowGraph.instructionAt] at hi
      cases hget : l.instructions[j]? with
      | none =>
        rw [hget] at hi
        cases hi
      | some k =>
        rw [hget, Option.getD_some] at hi
        exact hi ▸ List.mem_of_getElem? hget
  obtain ⟨s, hs⟩ := lookup_of_mem l.definitions hmem
  obtain ⟨s', hs'⟩ := lookup_of_mem l.uses hmem
  exact ⟨⟨s, by simp [method, hs]⟩, s', by simp [method, hs']⟩

/-- A loop that counts: the first instruction sets the variable, the loop tests it and steps it. -/
def counting : Listing where
  name := .text "counting"
  instructions := (List.range 4).map fun i => some { ident := i, text := "", shown := "" }
  transitions := [.tuple [.int 0, .int 1], .tuple [.int 1, .int 2], .tuple [.int 2, .int 1],
    .tuple [.int 1, .int 3]]
  definitions := .ofList [(.int 0, counter), (.int 2, counter)]
  uses := .ofList [(.int 1, counter), (.int 2, counter), (.int 3, counter)]
where counter : ValueSet := ValueSet.empty.insert ⟨.text "i", rfl⟩

end Listing

namespace FlowGraph

/-- **Data dependence is exact**, on every flow graph and for every source of definitions and uses
whose look-ups do not fail. The graph is on the nodes of the flow graph. From `d` to another node
`n` there is one edge if `d` supplies `n` with some variable, labelled with the variables that it
supplies; between all other nodes, and from a node to itself, there is none. -/
theorem dataDependence_exact {f : FlowGraph} {p : DefUse} (hp : p.Answers f) :
    ∃ g, (f.dataDependence p).result = .ok g ∧ g.nodes = f.nodes ∧
      ∀ d n,
        (d ≠ n ∧ (∃ v, f.Supplies p d n v) →
          ∃ e vars, g.between d n = [e] ∧ e.attributes.find? "variables" = some (.names vars) ∧
            ∀ v, vars.contains v = true ↔ f.Supplies p d n v) ∧
        (¬ (d ≠ n ∧ ∃ v, f.Supplies p d n v) → g.between d n = []) := by
  obtain ⟨g, hg, hnodes, hsimple, hedges, hlabels⟩ := dataDependence_spec hp
  refine ⟨g, hg, hnodes, fun d n => ⟨fun hsup => ?_, fun hsup => ?_⟩⟩
  · obtain ⟨e, he, rfl, rfl⟩ := Graph.mem_successors.1 ((hedges d n).2 hsup)
    obtain ⟨vars, hattributes, hvars⟩ := hlabels e he
    refine ⟨e, vars, hsimple.between_eq he, ?_, hvars⟩
    rw [hattributes]
    rfl
  · rw [Graph.between_eq_nil_iff, hedges]
    exact hsup

/-- The loop that counts: its step uses what it defines itself, and depends on the start only. -/
theorem dataDependence_exact_counting :
    ∃ f g, (build Listing.counting.method 0 .none).result = .ok f ∧
      Listing.counting.method.toDefUse.Answers f ∧
      (f.dataDependence Listing.counting.method.toDefUse).result = .ok g ∧ g.nodes = f.nodes ∧
      ∀ d, g.between d d = [] := by
  obtain ⟨f, hf⟩ := exists_build (m := Listing.counting.method) 0 .none rfl rfl
  obtain ⟨g, hg, hnodes, hexact⟩ := dataDependence_exact (Listing.answers hf)
  exact ⟨f, g, hf, Listing.answers hf, hg, hnodes, fun d => (hexact d d).2 fun h => h.1 rfl⟩

end FlowGraph

end Dependence
