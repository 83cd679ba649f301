import Dependence.Proofs.Failure

/-!
# Which look-ups matter

Variables are looked up while data dependence is built, and a look-up may fail. Uses are looked up
for every node, so a failing one is always met. Definitions are looked up as a search goes backward
from a use, and such a search stops: at a definition of the variable, at a node without an
instruction, at a node that it has seen. A failing look-up behind such a stop does no harm.

`FlowGraph.Meets` says when a search comes to a failing look-up: some way leads from the node that
fails to the use, and lets the search through everywhere in between. Like what is found
(`reachingFrom_spec`), this is kept along the search by `exists_escapes_cons`, whatever the cycles
(`reachingFrom_fails`). The rest is going through all uses of all nodes: adding edges never fails.
-/

namespace Dependence

open Relation

/-- The look-up `ask` fails for the instruction of `n`. -/
def Node.Fails (ask : Option Instruction → Except Error ValueSet) (n : Node) : Prop :=
  ∃ i e, n.instruction? = some i ∧ ask (some i) = .error e

namespace FlowGraph

variable {f : FlowGraph} {p : DefUse}

/-- A search for definitions of `v` goes on from `u`: it has an instruction, whose definitions can
be looked up and are others. -/
def Clear (p : DefUse) (v : Value) (u : Node) : Prop :=
  u.instruction? ≠ none ∧ ¬ u.Fails p.definitions ∧ ¬ p.Defines u v

/-- **The search for definitions of `v` from `n` meets a look-up that fails**: some way leads from a
node `d` that fails to `n`, and the search gets through in between. -/
def Meets (f : FlowGraph) (p : DefUse) (v : Value) (n : Node) : Prop :=
  ∃ d interior, d.Fails p.definitions ∧ Path f.Flows d n (d :: (interior ++ [n])) ∧
    ∀ u ∈ interior, Clear p v u

/-- What supplies `n` cannot be found: its uses cannot be looked up, or the search for one of them
meets a look-up that fails. -/
def SupplyFails (f : FlowGraph) (p : DefUse) (n : Node) : Prop :=
  n.Fails p.uses ∨ ∃ v, p.Uses n v ∧ f.Meets p v n

/-! ### One look-up -/

/-- `variablesOf` fails just if the look-up does; otherwise it gives the variables named. -/
theorem variablesOf_fails (f : FlowGraph) (ask : Option Instruction → Except Error ValueSet)
    (n : Node) :
    Ensures (f.variablesOf ask n)
      (fun s => ¬ n.Fails ask ∧ ∀ v, s.contains v = true ↔ n.Names ask v)
      fun _ => n.Fails ask := by
  by_cases hfails : n.Fails ask
  · obtain ⟨i, e, hi, he⟩ := hfails
    have herror : ∃ e', f.variablesOf ask n = .error e' := by
      cases e with
      | analysis e => exact ⟨.analysis e, by simp only [variablesOf, hi, he]⟩
      | fault c =>
        -- a fault is reported or passed on, and is an error either way
        by_cases hc : c.kind.spoilsLookup = true
        · exact ⟨.analysis (f.lookupFailed n c), by simp only [variablesOf, hi, he, if_pos hc]⟩
        · exact ⟨.fault c, by simp only [variablesOf, hi, he, if_neg hc]⟩
    obtain ⟨e', he'⟩ := herror
    rw [he']
    exact ⟨i, e, hi, he⟩
  · have hanswers : ∀ i, n.instruction? = some i → ∃ s, ask (some i) = .ok s := by
      intro i hi
      cases hask : ask (some i) with
      | ok s => exact ⟨s, rfl⟩
      | error e => exact absurd ⟨i, e, hi, hask⟩ hfails
    obtain ⟨s, hs, hcontains⟩ := variablesOf_spec (f := f) hanswers
    rw [hs]
    exact ⟨hfails, hcontains⟩

/-- `defines` fails just if the look-up of definitions does. -/
theorem defines_fails (f : FlowGraph) (p : DefUse) (x : Element) (n : Node) :
    Ensures (f.defines p x.val n)
      (fun b => ¬ n.Fails p.definitions ∧ (b = true ↔ p.Defines n x.val))
      fun _ => n.Fails p.definitions := by
  -- an element can be looked up in a set, so only the first look-up can fail
  have hhashed : x.val.hashed = .ok x.val := by rw [Value.hashed, x.property]
  unfold defines
  apply (f.variablesOf_fails p.definitions n).bind
  intro s hs
  rw [hhashed]
  exact ⟨hs.1, hs.2 x.val⟩

/-! ### One search -/

/-- The search for definitions of `v` that has still to look at the nodes `pending`, and not at
those `visited`, meets a look-up that fails. -/
def MeetsFrom (f : FlowGraph) (p : DefUse) (v : Value) (visited pending : List Node) : Prop :=
  ∃ d, d.Fails p.definitions ∧ ∃ q ∈ pending, Escapes (f.upstream (Clear p v)) visited q d

/-- **Visiting a node** `n`: its own look-up fails, or the rest of the search meets one that does.
-/
theorem meetsFrom_cons {v : Value} {visited pending : List Node} {n : Node} (hn : n ∉ visited) :
    f.MeetsFrom p v visited (n :: pending) ↔
      n.Fails p.definitions ∨
        f.MeetsFrom p v (n :: visited) (f.upstream (Clear p v) n ++ pending) := by
  unfold MeetsFrom
  simp only [exists_escapes_cons hn, and_or_left, exists_or]
  refine or_congr_left ?_
  exact ⟨fun ⟨d, hd, heq⟩ => heq ▸ hd, fun hd => ⟨n, hd, rfl⟩⟩

/-- A node that was visited is passed over. -/
theorem meetsFrom_of_mem {v : Value} {visited pending : List Node} {n : Node} (hn : n ∈ visited) :
    f.MeetsFrom p v visited (n :: pending) ↔ f.MeetsFrom p v visited pending := by
  simp only [MeetsFrom, exists_escapes_of_mem hn]

/-- **`reachingFrom` fails** just if it meets a look-up that fails. -/
theorem reachingFrom_fails (f : FlowGraph) (p : DefUse) (x : Element)
    (visited pending : List Node) :
    Ensures (f.reachingFrom p x.val visited pending)
      (fun _ => ¬ f.MeetsFrom p x.val visited pending)
      fun _ => f.MeetsFrom p x.val visited pending := by
  -- along the search; each case says where the search goes on, and whether the look-up fails here
  induction visited, pending using reachingFrom.induct f with
  | case1 visited =>
    rw [reachingFrom]
    intro hmeets
    obtain ⟨d, -, q, hq, -⟩ := hmeets
    cases hq
  | case2 visited n pending hn ih =>
    rw [reachingFrom, if_pos hn, meetsFrom_of_mem (List.contains_iff_mem.1 hn)]
    exact ih
  | case3 visited n pending hn hinstr ih =>
    -- a node without an instruction is not looked up, and stops the search
    have hnew : n ∉ visited := fun hmem => hn (List.contains_iff_mem.2 hmem)
    have hup : f.upstream (Clear p x.val) n = [] := if_neg fun hclear => hclear.1 hinstr
    have hfine : ¬ n.Fails p.definitions := by
      intro hfails
      obtain ⟨i, -, hi, -⟩ := hfails
      rw [hinstr] at hi
      cases hi
    rw [reachingFrom, if_neg hn, if_pos hinstr, meetsFrom_cons hnew, hup, List.nil_append,
      or_iff_right hfine]
    exact ih
  | case4 visited n pending hn hsome ih₁ ih₂ =>
    have hnew : n ∉ visited := fun hmem => hn (List.contains_iff_mem.2 hmem)
    rw [reachingFrom, if_neg hn, if_neg hsome, meetsFrom_cons hnew]
    refine ((f.defines_fails p x n).imp (fun _ h => h) fun _ hfails => .inl hfails).bind ?_
    intro b hb
    obtain ⟨hfine, hdefines⟩ := hb
    rw [or_iff_right hfine]
    cases b with
    | true =>
      -- a definition stops the search
      have hup : f.upstream (Clear p x.val) n = [] :=
        if_neg fun hclear => hclear.2.2 (hdefines.1 rfl)
      rw [if_pos rfl, hup, List.nil_append]
      exact ih₁.bind fun _ hclear => hclear
    | false =>
      -- the search gets through, and goes on before the node
      have hclear : Clear p x.val n :=
        ⟨hsome, hfine, fun hd => Bool.false_ne_true (hdefines.2 hd)⟩
      have hup : f.upstream (Clear p x.val) n = f.predecessors n := if_pos hclear
      rw [if_neg Bool.false_ne_true, hup]
      exact ih₂

/-- `nearestDefinitions` fails just if its search meets a look-up that fails. -/
theorem nearestDefinitions_fails {n : Node} (hn : n ∈ f.nodes) (x : Element) :
    Ensures (f.nearestDefinitions p (some n) x.val) (fun _ => ¬ f.Meets p x.val n)
      fun _ => f.Meets p x.val n := by
  have hmeets : f.MeetsFrom p x.val [] (f.predecessors n) ↔ f.Meets p x.val n := by
    unfold MeetsFrom Meets
    simp only [escapes_nil, exists_upstream_iff, exists_and_left]
  rw [nearestDefinitions, Graph.predecessorsOf, Graph.member, if_pos (List.contains_iff_mem.2 hn),
    ← hmeets]
  exact f.reachingFrom_fails p x [] (f.predecessors n)

/-! ### All searches -/

/-- `Meets` does not depend on how the variable is spelt. -/
theorem meets_congr {n : Node} {v w : Value} (h : (v == w) = true) :
    f.Meets p v n ↔ f.Meets p w n := by
  simp only [Meets, Clear, defines_congr h]

/-- **`supply` fails** just as `SupplyFails` says. -/
theorem supply_fails {n : Node} (hn : n ∈ f.nodes) :
    Ensures (f.supply p n).result (fun _ => ¬ f.SupplyFails p n) fun _ => f.SupplyFails p n := by
  rw [supply, Outcome.result_bind, Outcome.result_liftM]
  refine ((f.variablesOf_fails p.uses n).imp (fun _ h => h) fun _ hfails => .inl hfails).bind ?_
  intro used hused
  obtain ⟨hfine, huses⟩ := hused
  -- the uses are gone through in their spellings, which are all the variables used
  have hsupply : f.SupplyFails p n ↔ ∃ x ∈ used.sorted, f.Meets p x.val n := by
    rw [SupplyFails, or_iff_right hfine]
    constructor
    · intro h
      obtain ⟨v, hv, hmeets⟩ := h
      obtain ⟨x, hx, hxv⟩ := ValueSet.contains_iff_sorted.1 ((huses v).2 hv)
      exact ⟨x, hx, (meets_congr hxv).2 hmeets⟩
    · intro h
      obtain ⟨x, hx, hmeets⟩ := h
      refine ⟨x.val, (huses x.val).1 ?_, hmeets⟩
      exact ValueSet.contains_iff_sorted.2 ⟨x, hx, BEq.rfl⟩
  -- one use: only the search can fail, whatever was noted before
  have hstep : ∀ x ∈ used.sorted, ∀ s : Supply, True →
      Ensures (f.supplyOne p n s x).result (fun _ => True ∧ ¬ f.Meets p x.val n)
        fun _ => f.Meets p x.val n := by
    intro x _ s _
    simp only [supplyOne, noteData, Outcome.result_bind, Outcome.result_liftM,
      Outcome.result_write, Outcome.result_pure, ok_bind]
    exact (nearestDefinitions_fails hn x).bind fun _ hclear => ⟨trivial, hclear⟩
  rw [Outcome.result_foldlM, hsupply]
  apply (Ensures.foldlM_exists used.sorted trivial hstep).imp
  · intro _ hall hex
    obtain ⟨x, hx, hmeets⟩ := hex
    exact hall.2 x hx hmeets
  · exact fun _ hex => hex

/-- `addSupply` fails just if `supply` does: adding the edges does not. -/
theorem addSupply_fails {g : Graph Node} {n : Node} (hg : f.DataShaped g) (hn : n ∈ f.places) :
    Ensures (f.addSupply p g n).result (fun g' => f.DataShaped g' ∧ ¬ f.SupplyFails p n)
      fun _ => f.SupplyFails p n := by
  have hmem : n ∈ f.nodes := (mem_places.1 hn).1
  rw [addSupply, Outcome.result_bind]
  refine (((supply_ensures hmem).and (supply_fails hmem)).imp (fun _ h => h)
    fun _ h => h.2).bind ?_
  intro s hs
  rw [Outcome.result_foldlM]
  apply Ensures.foldlM s.entries ⟨hg, hs.2⟩
  intro e he g hg
  -- what supplies the node are nodes, so every edge is added
  obtain ⟨g', hadd, hg'⟩ := addEdge_ensures e.2 hg.1 (hs.1 e he) hn
  rw [Outcome.result_liftM_fault, hadd]
  exact ⟨hg', hs.2⟩

/-- **`dataDependence` fails** just if `supply` fails at some place. -/
theorem dataDependence_fails (f : FlowGraph) (p : DefUse) :
    Ensures (f.dataDependence p).result (fun _ => ¬ ∃ n ∈ f.places, f.SupplyFails p n)
      fun _ => ∃ n ∈ f.places, f.SupplyFails p n := by
  rw [dataDependence, Outcome.result_bind, Outcome.result_foldlM]
  have hstep : ∀ n ∈ f.places, ∀ g, f.DataShaped g →
      Ensures (f.addSupply p g n).result (fun g' => f.DataShaped g' ∧ ¬ f.SupplyFails p n)
        fun _ => f.SupplyFails p n :=
    fun n hn g hg => addSupply_fails hg hn
  apply (Ensures.foldlM_exists f.places f.dataShaped_empty hstep).bind
  intro g hg hex
  obtain ⟨n, hn, hsupply⟩ := hex
  exact hg.2 n hn hsupply

/-- A node that uses a variable, or whose uses cannot be looked up, has an instruction and so is a
place. -/
theorem exists_supplyFails_iff : (∃ n ∈ f.places, f.SupplyFails p n) ↔
    (∃ n ∈ f.nodes, n.Fails p.uses) ∨ ∃ n v, p.Uses n v ∧ f.Meets p v n := by
  constructor
  · intro h
    obtain ⟨n, hn, hfails | ⟨v, huses, hmeets⟩⟩ := h
    · exact .inl ⟨n, (mem_places.1 hn).1, hfails⟩
    · exact .inr ⟨n, v, huses, hmeets⟩
  · intro h
    obtain ⟨n, hn, hfails⟩ | ⟨n, v, huses, hmeets⟩ := h
    · obtain ⟨i, e, hi, he⟩ := hfails
      exact ⟨n, mem_places_of_instruction hn hi, .inl ⟨i, e, hi, he⟩⟩
    · -- the node is the end of a way, and so it is in the graph
      obtain ⟨d, interior, hfails, hpath, hclear⟩ := hmeets
      obtain ⟨i, s, hi, hs, hv⟩ := huses
      refine ⟨n, mem_places_of_instruction (mem_nodes_of_path hpath).2 hi, .inr ?_⟩
      exact ⟨v, ⟨i, s, hi, hs, hv⟩, d, interior, hfails, hpath, hclear⟩

/-- **A look-up that fails is noticed exactly when it matters.** On every flow graph, and for every
source of definitions and uses: data dependence fails just if the uses of some node cannot be looked
up, or a way leads to a use from a node whose definitions cannot be looked up, and every node in
between has an instruction, can be looked up, and does not define the variable. If what goes wrong
are faults of look-up, the error is one of this stage and of the unit of the flow graph, and has the
fault of a node of the graph as its cause. -/
theorem dataDependence_fails_iff (f : FlowGraph) (p : DefUse) :
    ((∃ e, (f.dataDependence p).result = .error e) ↔
      (∃ n ∈ f.nodes, n.Fails p.uses) ∨
        ∃ n v d interior, p.Uses n v ∧ d.Fails p.definitions ∧
          Path f.Flows d n (d :: (interior ++ [n])) ∧
          ∀ u ∈ interior, u.instruction? ≠ none ∧ ¬ u.Fails p.definitions ∧ ¬ p.Defines u v) ∧
    (p.FaultsInLookup → ∀ e, (f.dataDependence p).result = .error e →
      ∃ n ∈ f.nodes, ∃ i c, n.instruction? = some i ∧
        (p.definitions (some i) = .error (.fault c) ∨ p.uses (some i) = .error (.fault c)) ∧
        e = .analysis
          { sort := .general, message := s!"def/use lookup failed for {n.label}: {c.message}"
            unit := f.unit, stage := some .data, cause := some c }) := by
  refine ⟨?_, ?_⟩
  -- when it fails, by `dataDependence_fails`; with what, by `dataDependence_ensures`
  · have hsupply := exists_supplyFails_iff (f := f) (p := p)
    simp only [Meets, Clear, exists_and_left] at hsupply ⊢
    rw [← hsupply]
    exact (f.dataDependence_fails p).exists_error_iff
  · intro hp e he
    have hlookup := f.dataDependence_ensures p
    rw [he] at hlookup
    obtain ⟨n, hn, hdefined | hused⟩ := hlookup
    · obtain ⟨i, c, hi, hc, rfl⟩ := eq_lookupFailed_of_variablesOf (fun i => (hp i).1) hdefined
      exact ⟨n, hn, i, c, hi, .inl hc, rfl⟩
    · obtain ⟨i, c, hi, hc, rfl⟩ := eq_lookupFailed_of_variablesOf (fun i => (hp i).2) hused
      exact ⟨n, hn, i, c, hi, .inr hc, rfl⟩

end FlowGraph

/-- Three instructions in a row. The definitions of the first cannot be looked up, and the last uses
a variable. -/
def Method.forgetful : Method where
  definitions
    | some ⟨0, _, _⟩ => .error (.fault (.reported .missingKey "definitions"))
    | _ => .ok .empty
  uses
    | some ⟨2, _, _⟩ => .ok (ValueSet.empty.insert ⟨.text "wanted", rfl⟩)
    | _ => .ok .empty
  name := .text "forgetful"
  stream := .ok ((List.range 3).map fun i => some { ident := i, text := "", shown := "" })
  transitions := .ofList [.tuple [.int 0, .int 1], .tuple [.int 1, .int 2]]

theorem Method.forgetful_ensures (i : Option Instruction) :
    Ensures (forgetful.definitions i) (fun _ => True)
        (fun e => e = .fault (.reported .missingKey "definitions")) ∧
      Ensures (forgetful.uses i) (fun _ => True) fun _ => False := by
  unfold forgetful
  refine ⟨?_, ?_⟩
  · dsimp only
    split
    · rfl
    · trivial
  · dsimp only
    split <;> trivial

/-- The search from the last instruction gets through the second one, and meets the first. -/
theorem FlowGraph.dataDependence_fails_iff_forgetful :
    Method.forgetful.toDefUse.FaultsInLookup ∧
      ∃ f e, (build Method.forgetful 0 .none).result = .ok f ∧
        (f.dataDependence Method.forgetful.toDefUse).result = .error (.analysis e) ∧
        e.stage = some .data ∧ e.unit = f.unit ∧
        e.cause = some (.reported .missingKey "definitions") := by
  have hfaults : Method.forgetful.toDefUse.FaultsInLookup := by
    intro i
    obtain ⟨hdefinitions, huses⟩ := Method.forgetful_ensures i
    refine ⟨hdefinitions.imp (fun _ h => h) ?_, huses.imp (fun _ h => h) fun _ => False.elim⟩
    intro e he
    exact ⟨_, he, rfl⟩
  -- the three nodes in a row are found by evaluation
  have heval : (do
      let f ← (build Method.forgetful 0 .none).result
      return f.nodes.any fun a => (f.successors a).any fun b => (f.successors b).any fun c =>
        a.instruction? == some ⟨0, "", ""⟩ && b.instruction? == some ⟨1, "", ""⟩ &&
          c.instruction? == some ⟨2, "", ""⟩ : Except Error Bool) = .ok true := by
    cbv
  obtain ⟨f, hbuild, heval⟩ := bind_eq_ok.1 heval
  have htrue := Except.ok.inj heval
  simp only [List.any_eq_true, Bool.and_eq_true, beq_iff_eq] at htrue
  obtain ⟨a, -, b, hb, c, hc, ⟨ha, hb'⟩, hc'⟩ := htrue
  -- the node in between lets the search through: it has an instruction, and no definitions
  have hpasses : b.instruction? ≠ none ∧ ¬ b.Fails Method.forgetful.definitions ∧
      ¬ Method.forgetful.toDefUse.Defines b (.text "wanted") := by
    refine ⟨by rw [hb']; exact Option.some_ne_none _, ?_, ?_⟩
    · intro hfails
      obtain ⟨i, e, hi, he⟩ := hfails
      cases hb'.symm.trans hi
      cases he
    · intro hdefines
      obtain ⟨i, s, hi, hs, hv⟩ := hdefines
      cases hb'.symm.trans hi
      cases hs
      cases hv
  obtain ⟨e, he⟩ := (dataDependence_fails_iff f Method.forgetful.toDefUse).1.2 <| .inr
    ⟨c, .text "wanted", a, [b], ⟨_, _, hc', rfl, rfl⟩, ⟨_, _, ha, rfl⟩,
      .step hb (.step hc (.here c)), List.forall_mem_singleton.2 hpasses⟩
  obtain ⟨n, -, i, cause, -, hcause, rfl⟩ :=
    (dataDependence_fails_iff f Method.forgetful.toDefUse).2 hfaults e he
  refine ⟨hfaults, f, _, hbuild, he, rfl, rfl, ?_⟩
  -- only one look-up of `forgetful` fails, so it is the cause
  obtain ⟨hdefinitions, huses⟩ := Method.forgetful_ensures (some i)
  obtain hcause | hcause := hcause
  · rw [hcause] at hdefinitions
    exact congrArg some (Error.fault.inj hdefinitions)
  · rw [hcause] at huses
    exact huses.elim

end Dependence
