import Dependence.Analysis.Basic
import Dependence.Proofs.Outcome

/-!
# What an analysis keeps does not show

An analysis builds a graph when it is first asked for and keeps it. This module shows that keeping
makes no difference to any answer, and that it saves what it is there to save:

* every query is a `Plan`: it looks at the subject of the analysis, asks for derived graphs, one
  after the other, and answers (`Request.ask_eq_run`);
* a plan can be followed without keeping anything (`Plan.direct`). On an analysis that keeps only
  graphs that it would build (`Analysis.Faithful`), following the plan comes to the same, and leaves
  such an analysis of the same subject, with everything kept that was kept before (`Query.Yields`);
* a plan can be followed in any `Store`. In `Store.watched` a graph is noted when its construction
  succeeds (`Store.construct`), before it is put away. Every graph is noted at most once
  (`Watched.Counted`), and the notes have no bearing on the answers (`Plan.run_project`);
* a query for a graph that is kept does nothing but answer with it (`Derived.query_of_kept`), and a
  query that succeeds leaves its graph kept (`Derived.kept?_of_query`).

`Analysis.queries_agree` puts these together for every sequence of queries.
-/

namespace Dependence

/-! ### Subjects, derived graphs and plans -/

/-- What an analysis is about. -/
structure Subject where
  method : Method
  options : Options
  flow : FlowGraph

/-- The subject of the analysis `a`. -/
def Analysis.subject (a : Analysis) : Subject := ⟨a.method, a.options, a.flow⟩

/-- The graphs that are derived from a flow graph. -/
inductive Derived where
  | control
  | data
  | combined
deriving DecidableEq

namespace Derived

/-- The query for a derived graph. -/
def query : Derived → Query (Graph Node)
  | control => Query.control
  | data => Query.data
  | combined => Query.combined

/-- What an analysis keeps of a derived graph. -/
def kept? : Derived → Analysis → Option (Graph Node)
  | control, a => a.control
  | data, a => a.data
  | combined, a => a.combined

/-- Keep a derived graph. -/
def keep : Derived → Graph Node → Analysis → Analysis
  | control, g, a => { a with control := some g }
  | data, g, a => { a with data := some g }
  | combined, g, a => { a with combined := some g }

/-- The derived graph of `s`, built anew along with everything it is made of. -/
def built : Derived → Subject → Except Error (Graph Node)
  | control, s => s.flow.controlDependence.result
  | data, s => (s.flow.dataDependence s.method.toDefUse).result
  | combined, s => do
    let c ← s.flow.controlDependence.result
    let d ← (s.flow.dataDependence s.method.toDefUse).result
    (s.flow.combine c d).result

/-- The combined graph is made of the other two. -/
theorem built_combined {s : Subject} {c d : Graph Node} (hc : control.built s = .ok c)
    (hd : data.built s = .ok d) : combined.built s = (s.flow.combine c d).result := by
  change control.built s >>= (fun c => data.built s >>= fun d => (s.flow.combine c d).result) = _
  rw [hc, ok_bind, hd, ok_bind]

@[simp] theorem subject_keep (k : Derived) (g : Graph Node) (a : Analysis) :
    (k.keep g a).subject = a.subject := by
  cases k <;> rfl

@[simp] theorem kept?_keep_self (k : Derived) (g : Graph Node) (a : Analysis) :
    k.kept? (k.keep g a) = some g := by
  cases k <;> rfl

theorem kept?_keep_of_ne {j k : Derived} (h : j ≠ k) (g : Graph Node) (a : Analysis) :
    j.kept? (k.keep g a) = j.kept? a := by
  cases j <;> cases k <;> first | rfl | exact absurd rfl h

end Derived

/-- A query step by step: what it looks at, which graphs it asks for, and what it answers. -/
inductive Plan (α : Type) where
  | answer (x : Outcome α)
  | look (next : Subject → Plan α)
  | ask (k : Derived) (next : Graph Node → Plan α)

/-- Follow a plan for the subject `s`, with every graph built anew. -/
def Plan.direct {α : Type} (s : Subject) : Plan α → Except Error α
  | .answer x => x.result
  | .look next => (next s).direct s
  | .ask k next => do (next (← k.built s)).direct s

/-! ### Stores -/

/-- A state in which derived graphs of a subject can be kept, and in which it can be noted that one
was constructed. -/
structure Store (σ : Type) where
  subject : σ → Subject
  get : Derived → σ → Option (Graph Node)
  put : Derived → Graph Node → σ → σ
  note : Derived → σ → σ

namespace Store

variable {σ τ : Type}

/-- Construct the derived graph `k` as `x` does. A success is noted here, whether or not the graph
is kept afterwards. -/
def construct (S : Store σ) (k : Derived) (x : Subject → Outcome (Graph Node)) :
    Action σ (Graph Node) := fun s =>
  let out := x (S.subject s)
  match out.result with
  | .ok _ => (S.note k s, out)
  | .error _ => (s, out)

section Construct

variable {S : Store σ} {k : Derived} {x : Subject → Outcome (Graph Node)} {s : σ}

theorem construct_of_ok {g : Graph Node} (h : (x (S.subject s)).result = .ok g) :
    S.construct k x s = (S.note k s, x (S.subject s)) := by
  simp only [construct, h]

theorem construct_of_error {e : Error} (h : (x (S.subject s)).result = .error e) :
    S.construct k x s = (s, x (S.subject s)) := by
  simp only [construct, h]

end Construct

/-- `Query.control` in any store. -/
def control (S : Store σ) : Action σ (Graph Node) :=
  Action.kept (S.get .control) (S.put .control)
    (S.construct .control fun s => s.flow.controlDependence)

/-- `Query.data` in any store. -/
def data (S : Store σ) : Action σ (Graph Node) :=
  Action.kept (S.get .data) (S.put .data)
    (S.construct .data fun s => s.flow.dataDependence s.method.toDefUse)

/-- `Query.combined` in any store. -/
def combined (S : Store σ) : Action σ (Graph Node) :=
  Action.kept (S.get .combined) (S.put .combined) do
    let c ← S.control
    let d ← S.data
    S.construct .combined fun s => s.flow.combine c d

/-- `Derived.query` in any store. -/
def graph (S : Store σ) : Derived → Action σ (Graph Node)
  | .control => S.control
  | .data => S.data
  | .combined => S.combined

/-- The store that an analysis is: nothing is noted. -/
def analysis : Store Analysis where
  subject := Analysis.subject
  get := Derived.kept?
  put := Derived.keep
  note _ a := a

theorem construct_analysis (k : Derived) (x : Subject → Outcome (Graph Node)) :
    analysis.construct k x = fun a => (a, x a.subject) := by
  funext a
  -- with nothing to note, a success leaves the analysis as it is too
  cases hx : (x (analysis.subject a)).result with
  | ok g => exact construct_of_ok hx
  | error e => exact construct_of_error hx

/-- In the store of an analysis `graph` is the query itself. -/
theorem graph_analysis (k : Derived) : analysis.graph k = k.query := by
  cases k <;> simp only [graph, control, data, combined, construct_analysis] <;> rfl

end Store

/-- Follow a plan in the store `S`. -/
def Plan.run {σ α : Type} (S : Store σ) : Plan α → Action σ α
  | .answer x => fun s => (s, x)
  | .look next => do (next (← Action.reads S.subject)).run S
  | .ask k next => do (next (← S.graph k)).run S

/-! ### Requests -/

/-- The queries that an analysis answers. The combined graph is also its result. -/
inductive Request where
  | graph (k : Derived)
  | nodeFor (i : Option Instruction)
  | slice (r : Option Node)
  | outputs
  | metric (m : Metric) (last : Option (Slice Node))
  | stats

namespace Request

/-- What a query answers with. -/
abbrev Answer : Request → Type
  | graph _ => Graph Node
  | nodeFor _ => Option Node
  | slice _ => Slice Node
  | outputs => List Node
  | metric _ _ => Float
  | stats => Stats

/-- Put a query to an analysis. -/
def ask : (r : Request) → Query r.Answer
  | graph k => k.query
  | nodeFor i => Query.nodeFor i
  | slice r => Query.slice r
  | outputs => Query.outputs
  | metric m last => Query.metric m last
  | stats => Query.stats

/-- The plan of a query. -/
def plan : (r : Request) → Plan r.Answer
  | graph k => .ask k fun g => .answer (pure g)
  | nodeFor i => .look fun s =>
    .answer (pure ((s.flow.table.lookup? i).filter fun n => s.flow.contains (some n)))
  | slice r => .ask .combined fun c => .ask .data fun d => .look fun s =>
    .answer (Slice.backward c d r s.flow.unit)
  | outputs => .ask .data fun d => .answer (pure d.outputs)
  | metric m last => .ask .combined fun c => .ask .data fun d => .look fun s =>
    .answer (m.compute c d last s.options.metricMode s.flow.unit)
  | stats => .look fun s => .ask .control fun c => .ask .data fun d => .ask .data fun d' =>
    .answer (pure {
      unit := s.flow.unit
      nodes := s.flow.nodes.length
      flowEdges := s.flow.edges.length
      controlEdges := c.edges.length
      dataEdges := d.edges.length
      loc := s.flow.loc
      cyclomaticComplexity := s.flow.cyclomaticComplexity
      outputs := d'.outputs.length })

end Request

namespace Action

variable {σ α β γ : Type}

/-- A success goes on with its value, in the state that it leaves. -/
theorem bind_of_ok {q : Action σ α} {s : σ} {v : α} (h : (q s).2.result = .ok v)
    (k : α → Action σ β) :
    (q >>= k) s = ((k v (q s).1).1,
      { log := (q s).2.log ++ (k v (q s).1).2.log, result := (k v (q s).1).2.result }) := by
  change Action.bind q k s = _
  simp only [Action.bind, h]

/-- A failure is the end. -/
theorem bind_of_error {q : Action σ α} {s : σ} {e : Error} (h : (q s).2.result = .error e)
    (k : α → Action σ β) :
    (q >>= k) s = ((q s).1, { log := (q s).2.log, result := .error e }) := by
  change Action.bind q k s = _
  simp only [Action.bind, h]

theorem bind_pure (q : Action σ α) : q >>= pure = q := by
  funext s
  cases h : (q s).2.result with
  | ok v =>
    rw [bind_of_ok h]
    change ((q s).1, { log := (q s).2.log ++ [], result := Except.ok v }) = q s
    rw [List.append_nil, ← h]
  | error e =>
    rw [bind_of_error h, ← h]

theorem bind_assoc (q : Action σ α) (k : α → Action σ β) (l : β → Action σ γ) :
    (q >>= k) >>= l = q >>= fun v => k v >>= l := by
  funext s
  -- both sides stop at the first failure, with the log up to there
  cases hq : (q s).2.result with
  | error e =>
    have hqk : ((q >>= k) s).2.result = .error e := by rw [bind_of_error hq]
    rw [bind_of_error hqk, bind_of_error hq, bind_of_error hq]
  | ok v =>
    cases hk : (k v (q s).1).2.result with
    | error e =>
      have hqk : ((q >>= k) s).2.result = .error e := by rw [bind_of_ok hq, hk]
      rw [bind_of_error hqk, bind_of_ok hq, bind_of_ok hq, bind_of_error hk]
    | ok w =>
      have hqk : ((q >>= k) s).2.result = .ok w := by rw [bind_of_ok hq, hk]
      rw [bind_of_ok hqk, bind_of_ok hq, bind_of_ok hq, bind_of_ok hk, List.append_assoc]

section Kept

variable {get : σ → Option α} {put : α → σ → σ} {build : Action σ α} {s : σ}

theorem kept_of_some {v : α} (h : get s = some v) : kept get put build s = (s, pure v) := by
  simp only [kept, h]

theorem kept_of_ok {v : α} (h : get s = none) (hbuild : (build s).2.result = .ok v) :
    kept get put build s = (put v (build s).1, (build s).2) := by
  simp only [kept, h, hbuild]

theorem kept_of_error {e : Error} (h : get s = none) (hbuild : (build s).2.result = .error e) :
    kept get put build s = build s := by
  simp only [kept, h, hbuild]

end Kept

end Action

/-- **Every query follows its `plan`.** -/
theorem Request.ask_eq_run (r : Request) : r.ask = r.plan.run Store.analysis := by
  cases r with
  | graph k =>
    change k.query = Store.analysis.graph k >>= pure
    rw [Action.bind_pure, Store.graph_analysis]
  | nodeFor i => rfl
  | slice r =>
    simp only [plan, Plan.run, Store.graph_analysis]
    rfl
  | outputs =>
    simp only [plan, Plan.run, Store.graph_analysis]
    rfl
  | metric m last =>
    simp only [plan, Plan.run, Store.graph_analysis]
    rfl
  | stats =>
    -- the outputs are read off a data dependence graph that is asked for a second time
    change Query.stats = _
    unfold Query.stats Query.outputs
    simp only [plan, Plan.run, Store.graph_analysis, Action.bind_assoc]
    rfl

/-! ### Answers -/

/-- The graphs that `a` keeps are those that it would build. -/
def Analysis.Faithful (a : Analysis) : Prop :=
  ∀ k g, Derived.kept? k a = some g → k.built a.subject = .ok g

theorem Analysis.Faithful.keep {a : Analysis} (ha : a.Faithful) {k : Derived} {g : Graph Node}
    (hg : k.built a.subject = .ok g) : (k.keep g a).Faithful := by
  intro j g' hj
  rw [Derived.subject_keep]
  -- the graph that was put away, or one that was kept before
  by_cases heq : j = k
  · subst heq
    rw [Derived.kept?_keep_self] at hj
    cases hj
    exact hg
  · rw [Derived.kept?_keep_of_ne heq] at hj
    exact ha j g' hj

namespace Query

variable {α β : Type} {a : Analysis}

/-- The query `q` comes to the result `x` on `a`, and leaves a faithful analysis of the same subject
that still keeps what was kept. -/
structure Yields (q : Query α) (a : Analysis) (x : Except Error α) : Prop where
  result : (q a).2.result = x
  faithful : (q a).1.Faithful
  subject : (q a).1.subject = a.subject
  keeps : ∀ k g, Derived.kept? k a = some g → k.kept? (q a).1 = some g

/-- An answer that is computed off the subject leaves the analysis alone. -/
theorem yields_of_outcome (ha : a.Faithful) (x : Analysis → Outcome α) :
    Yields (fun a => (a, x a)) a (x a).result :=
  ⟨rfl, ha, rfl, fun _ _ h => h⟩

/-- A query that goes on with another: the rest is put to the analysis that `q` leaves. -/
theorem Yields.bind {q : Query α} {k : α → Query β} {x : Except Error α}
    {y : α → Except Error β} (hq : q.Yields a x)
    (hk : ∀ v, (k v).Yields (q a).1 (y v)) : Yields (q >>= k) a (x >>= y) := by
  cases hx : (q a).2.result with
  | error e =>
    obtain rfl := hx.symm.trans hq.result
    refine ⟨?_, ?_, ?_, ?_⟩ <;> rw [Action.bind_of_error hx]
    · rfl
    · exact hq.faithful
    · exact hq.subject
    · exact hq.keeps
  | ok v =>
    obtain rfl := hx.symm.trans hq.result
    refine ⟨?_, ?_, ?_, ?_⟩ <;> rw [Action.bind_of_ok hx]
    · exact (hk v).result
    · exact (hk v).faithful
    · exact (hk v).subject.trans hq.subject
    · exact fun j g hj => (hk v).keeps j g (hq.keeps j g hj)

/-- **`Action.kept`**: building a graph and answering with the kept one come to the same. -/
theorem kept_yields {k : Derived} {build : Query (Graph Node)} (ha : a.Faithful)
    (hbuild : build.Yields a (k.built a.subject)) :
    Yields (Action.kept k.kept? k.keep build) a (k.built a.subject) := by
  cases hget : k.kept? a with
  | some g =>
    -- what is kept is what would be built, as the analysis is faithful
    refine ⟨?_, ?_, ?_, ?_⟩ <;> rw [Action.kept_of_some hget]
    · exact (ha k g hget).symm
    · exact ha
    · exact fun _ _ h => h
  | none =>
    cases hresult : (build a).2.result with
    | error e =>
      refine ⟨?_, ?_, ?_, ?_⟩ <;> rw [Action.kept_of_error hget hresult]
      · exact hbuild.result
      · exact hbuild.faithful
      · exact hbuild.subject
      · exact hbuild.keeps
    | ok g =>
      have hbuilt : k.built (build a).1.subject = .ok g := by
        rw [hbuild.subject, ← hbuild.result, hresult]
      refine ⟨?_, ?_, ?_, ?_⟩ <;> rw [Action.kept_of_ok hget hresult]
      · exact hbuild.result
      · exact hbuild.faithful.keep hbuilt
      · rw [Derived.subject_keep, hbuild.subject]
      · intro j g' hj
        -- this graph was not kept before, so it is one of the others
        have hne : j ≠ k := by
          rintro rfl
          cases hj.symm.trans hget
        rw [Derived.kept?_keep_of_ne hne]
        exact hbuild.keeps j g' hj

theorem control_yields (ha : a.Faithful) :
    control.Yields a (Derived.control.built a.subject) :=
  kept_yields (k := .control) ha (yields_of_outcome ha fun a => a.flow.controlDependence)

theorem data_yields (ha : a.Faithful) : data.Yields a (Derived.data.built a.subject) :=
  kept_yields (k := .data) ha
    (yields_of_outcome ha fun a => a.flow.dataDependence a.method.toDefUse)

theorem combined_yields (ha : a.Faithful) :
    combined.Yields a (Derived.combined.built a.subject) := by
  refine kept_yields (k := .combined) ha ?_
  have hcontrol := control_yields ha
  apply hcontrol.bind
  intro c
  have hdata := data_yields hcontrol.faithful
  rw [hcontrol.subject] at hdata
  apply hdata.bind
  intro d
  -- the two queries before leave an analysis of the same flow graph
  have hcombine := yields_of_outcome hdata.faithful fun a => a.flow.combine c d
  have hflow : (data (control a).1).1.flow = a.flow :=
    congrArg Subject.flow (hdata.subject.trans hcontrol.subject)
  rwa [hflow] at hcombine

theorem graph_yields (ha : a.Faithful) (k : Derived) : k.query.Yields a (k.built a.subject) := by
  cases k with
  | control => exact control_yields ha
  | data => exact data_yields ha
  | combined => exact combined_yields ha

end Query

/-- **Keeping does not show**: `run` in an analysis comes to what `direct` does, with every graph
built anew. -/
theorem Plan.run_yields {α : Type} (p : Plan α) {a : Analysis} (ha : a.Faithful) :
    Query.Yields (p.run Store.analysis) a (p.direct a.subject) := by
  induction p generalizing a with
  | answer x => exact Query.yields_of_outcome ha fun _ => x
  | look next ih =>
    have hlook := Query.yields_of_outcome ha fun a => pure a.subject
    exact hlook.bind (y := fun s => (next s).direct a.subject) fun s => ih s ha
  | ask k next ih =>
    have hgraph : Query.Yields (Store.analysis.graph k) a (k.built a.subject) := by
      rw [Store.graph_analysis]
      exact Query.graph_yields ha k
    apply hgraph.bind
    intro g
    -- the rest of the plan is followed on what this step leaves, which is about the same subject
    rw [← hgraph.subject]
    exact ih g hgraph.faithful

theorem Request.ask_yields (r : Request) {a : Analysis} (ha : a.Faithful) :
    r.ask.Yields a (r.plan.direct a.subject) := by
  rw [ask_eq_run]
  exact r.plan.run_yields ha

theorem Query.outputs_yields {a : Analysis} (ha : a.Faithful) {d : Graph Node}
    (hd : Derived.data.built a.subject = .ok d) : outputs.Yields a (.ok d.outputs) := by
  have houtputs := Request.outputs.ask_yields ha
  simp only [Request.plan, Plan.direct, hd, ok_bind, Outcome.result_pure] at houtputs
  exact houtputs

/-! ### Sequences of queries -/

/-- The analysis after some queries, whatever they answered. -/
def Analysis.after (a : Analysis) (history : List Request) : Analysis :=
  history.foldl (fun a r => (r.ask a).1) a

namespace Analysis

variable {m : Method} {o : Options} {a : Analysis}

theorem after_append (a : Analysis) (history later : List Request) :
    a.after (history ++ later) = (a.after history).after later := List.foldl_append

/-- **A run of queries** leaves a faithful analysis of the same subject, which keeps what was kept.
-/
theorem Faithful.after (ha : a.Faithful) (history : List Request) :
    (a.after history).Faithful ∧ (a.after history).subject = a.subject ∧
      ∀ k g, Derived.kept? k a = some g → k.kept? (a.after history) = some g := by
  induction history generalizing a with
  | nil => exact ⟨ha, rfl, fun _ _ h => h⟩
  | cons r history ih =>
    have hr := r.ask_yields ha
    obtain ⟨hfaithful, hsubject, hkeeps⟩ := ih hr.faithful
    exact ⟨hfaithful, hsubject.trans hr.subject, fun k g h => hkeeps k g (hr.keeps k g h)⟩

theorem start_eq_ok : (start m o).result = .ok a ↔
    ∃ f, (FlowGraph.build m 0 .none).result = .ok f ∧ a = ⟨m, o, f, none, none, none⟩ := by
  simp only [start, Outcome.result_bind, Outcome.result_pure]
  rw [bind_eq_ok]
  refine exists_congr fun f => and_congr_right fun _ => ?_
  rw [Except.ok.injEq, eq_comm]

/-- `eager` is `start`, and then asking for the combined graph. -/
theorem eager_of_start (h : (start m o).result = .ok a) :
    (eager m o).result = (Query.combined a).2.result.map fun _ =>
      a.after [.graph .combined] := by
  simp only [eager, Outcome.result_bind, Outcome.result_pure, h, ok_bind]
  cases (Query.combined a).2.result <;> rfl

theorem faithful_of_start (h : (start m o).result = .ok a) :
    a.Faithful ∧ a.method = m ∧ (FlowGraph.build m 0 .none).result = .ok a.flow := by
  obtain ⟨f, hbuild, rfl⟩ := start_eq_ok.1 h
  -- no graph is kept yet
  refine ⟨fun k g hg => ?_, rfl, hbuild⟩
  cases k <;> cases hg

/-- An analysis is faithful from the start, whether its graphs are built at once or later. -/
theorem faithful_of_opened
    (h : (start m o).result = .ok a ∨ (eager m o).result = .ok a) :
    a.Faithful ∧ a.method = m ∧ (FlowGraph.build m 0 .none).result = .ok a.flow := by
  obtain h | h := h
  · exact faithful_of_start h
  -- an eager analysis is a started one after one query
  obtain ⟨a₀, hstart, -⟩ := bind_eq_ok.1 ((Outcome.result_bind _ _).symm.trans h)
  obtain ⟨hfaithful, hmethod, hbuild⟩ := faithful_of_start hstart
  rw [eager_of_start hstart] at h
  cases hcombined : (Query.combined a₀).2.result with
  | error e =>
    rw [hcombined] at h
    cases h
  | ok g =>
    rw [hcombined] at h
    cases h
    obtain ⟨hafter, hsubject, -⟩ := hfaithful.after [.graph .combined]
    refine ⟨hafter, ?_, ?_⟩
    · exact (congrArg Subject.method hsubject).trans hmethod
    · exact hbuild.trans (congrArg (Except.ok ∘ Subject.flow) hsubject.symm)

end Analysis

/-! ### Counting what is built -/

/-- An analysis, with a note of every derived graph whose construction succeeded. -/
structure Watched where
  analysis : Analysis
  built : List Derived

/-- The store that a watched analysis is. `Store.construct` makes the notes in `Watched.built`, and
keeping a graph adds none. -/
def Store.watched : Store Watched where
  subject w := w.analysis.subject
  get k w := k.kept? w.analysis
  put k g w := { w with analysis := k.keep g w.analysis }
  note k w := { w with built := k :: w.built }

/-- Put a query to a watched analysis. -/
def Request.watch (r : Request) : Action Watched r.Answer := r.plan.run Store.watched

/-- The watched analysis after some queries. -/
def Watched.after (w : Watched) (history : List Request) : Watched :=
  history.foldl (fun w r => (r.watch w).1) w

section Project

variable {σ τ α β : Type} {S : Store σ} {T : Store τ} {view : σ → τ}

/-- Under `view`, the store `S` looks like `T`. -/
structure Store.Projects (S : Store σ) (T : Store τ) (view : σ → τ) : Prop where
  subject : ∀ s, T.subject (view s) = S.subject s
  get : ∀ k s, T.get k (view s) = S.get k s
  put : ∀ k g s, view (S.put k g s) = T.put k g (view s)
  note : ∀ k s, view (S.note k s) = T.note k (view s)

/-- The action `q` does to a state what `q'` does to the view of it. -/
def Action.Projects (view : σ → τ) (q : Action σ α) (q' : Action τ α) : Prop :=
  ∀ s, q' (view s) = (view (q s).1, (q s).2)

theorem Action.Projects.bind {q : Action σ α} {q' : Action τ α} {k : α → Action σ β}
    {k' : α → Action τ β} (hq : q.Projects view q') (hk : ∀ v, (k v).Projects view (k' v)) :
    Action.Projects view (q >>= k) (q' >>= k') := by
  intro s
  have hresult : (q' (view s)).2.result = (q s).2.result := by rw [hq s]
  cases hx : (q s).2.result with
  | error e => rw [bind_of_error hx, bind_of_error (hresult.trans hx), hq s]
  | ok v => rw [bind_of_ok hx, bind_of_ok (hresult.trans hx), hq s, hk v]

theorem Action.Projects.kept {get : σ → Option α} {put : α → σ → σ} {get' : τ → Option α}
    {put' : α → τ → τ} {q : Action σ α} {q' : Action τ α} (hq : q.Projects view q')
    (hget : ∀ s, get' (view s) = get s) (hput : ∀ v s, view (put v s) = put' v (view s)) :
    (Action.kept get put q).Projects view (Action.kept get' put' q') := by
  intro s
  have hresult : (q' (view s)).2.result = (q s).2.result := by rw [hq s]
  cases hs : get s with
  | some v => rw [kept_of_some hs, kept_of_some ((hget s).trans hs)]
  | none =>
    have hs' : get' (view s) = none := (hget s).trans hs
    cases hx : (q s).2.result with
    | error e => rw [kept_of_error hs hx, kept_of_error hs' (hresult.trans hx), hq s]
    | ok v => rw [kept_of_ok hs hx, kept_of_ok hs' (hresult.trans hx), hq s, hput]

theorem Store.Projects.construct (h : S.Projects T view) (k : Derived)
    (x : Subject → Outcome (Graph Node)) :
    (S.construct k x).Projects view (T.construct k x) := by
  intro s
  have hsubject : x (T.subject (view s)) = x (S.subject s) := congrArg x (h.subject s)
  cases hx : (x (S.subject s)).result with
  | error e =>
    rw [Store.construct_of_error hx, Store.construct_of_error (hsubject ▸ hx), hsubject]
  | ok g =>
    rw [Store.construct_of_ok hx, Store.construct_of_ok (hsubject ▸ hx), hsubject, h.note]

theorem Store.Projects.graph (h : S.Projects T view) (k : Derived) :
    (S.graph k).Projects view (T.graph k) := by
  have hcontrol : S.control.Projects view T.control :=
    (h.construct .control _).kept (h.get .control) (h.put .control)
  have hdata : S.data.Projects view T.data :=
    (h.construct .data _).kept (h.get .data) (h.put .data)
  cases k with
  | control => exact hcontrol
  | data => exact hdata
  | combined =>
    -- construction comes after the two graphs that `combined` is made of
    have hbuild := hcontrol.bind fun c => hdata.bind fun d =>
      h.construct .combined fun s => s.flow.combine c d
    exact hbuild.kept (h.get .combined) (h.put .combined)

/-- **`run` does the same in stores that look the same.** -/
theorem Plan.run_project (h : S.Projects T view) (p : Plan α) :
    (p.run S).Projects view (p.run T) := by
  induction p with
  | answer x => exact fun s => rfl
  | look next ih =>
    have hlook : Action.Projects view (Action.reads S.subject) (Action.reads T.subject) := by
      intro s
      change (view s, pure (T.subject (view s))) = (view s, pure (S.subject s))
      rw [h.subject]
    exact hlook.bind ih
  | ask k next ih => exact (h.graph k).bind ih

end Project

theorem Store.watched_projects : Store.watched.Projects Store.analysis Watched.analysis :=
  ⟨fun _ => rfl, fun _ _ => rfl, fun _ _ _ => rfl, fun _ _ => rfl⟩

/-- Watching an analysis has no bearing on it. -/
theorem Request.watch_project (r : Request) (w : Watched) :
    r.ask w.analysis = ((r.watch w).1.analysis, (r.watch w).2) := by
  rw [ask_eq_run]
  exact Plan.run_project Store.watched_projects r.plan w

theorem Watched.analysis_after (w : Watched) (history : List Request) :
    (w.after history).analysis = w.analysis.after history := by
  induction history generalizing w with
  | nil => rfl
  | cons r history ih =>
    change ((r.watch w).1.after history).analysis = (r.ask w.analysis).1.after history
    rw [ih, r.watch_project]

section Triple

variable {σ α β : Type} {P P' Q Q' R E E' I : σ → Prop} {q : Action σ α}

/-- From a state with `P`, an action that succeeds leaves a state with `Q`, and one that fails
leaves a state with `E`. -/
def Action.Triple (q : Action σ α) (P Q E : σ → Prop) : Prop :=
  ∀ s, P s → match (q s).2.result with
    | .ok _ => Q (q s).1
    | .error _ => E (q s).1

/-- The action `q` keeps the invariant `I` of the state, whether it succeeds or fails. -/
abbrev Action.Preserves (q : Action σ α) (I : σ → Prop) : Prop := q.Triple I I I

namespace Action

theorem Triple.of_ok {s : σ} {v : α} (h : q.Triple P Q E) (hs : P s)
    (hv : (q s).2.result = .ok v) : Q (q s).1 := by
  have hq := h s hs
  rwa [hv] at hq

theorem Triple.of_error {s : σ} {e : Error} (h : q.Triple P Q E) (hs : P s)
    (he : (q s).2.result = .error e) : E (q s).1 := by
  have hq := h s hs
  rwa [he] at hq

theorem Preserves.apply (h : q.Preserves I) {s : σ} (hs : I s) : I (q s).1 := by
  cases hresult : (q s).2.result with
  | ok v => exact h.of_ok hs hresult
  | error e => exact h.of_error hs hresult

theorem Triple.imp_error (h : q.Triple P Q E) (hE : ∀ s, E s → E' s) : q.Triple P Q E' := by
  intro s hs
  cases hresult : (q s).2.result with
  | ok v => exact h.of_ok hs hresult
  | error e => exact hE _ (h.of_error hs hresult)

theorem Triple.and (h : q.Triple P Q E) (h' : q.Triple P' Q' E') :
    q.Triple (fun s => P s ∧ P' s) (fun s => Q s ∧ Q' s) (fun s => E s ∧ E' s) := by
  intro s hs
  cases hresult : (q s).2.result with
  | ok v => exact ⟨h.of_ok hs.1 hresult, h'.of_ok hs.2 hresult⟩
  | error e => exact ⟨h.of_error hs.1 hresult, h'.of_error hs.2 hresult⟩

theorem Triple.bind {k : α → Action σ β} (hq : q.Triple P Q E) (hk : ∀ v, (k v).Triple Q R E) :
    Triple (q >>= k) P R E := by
  intro s hs
  cases hx : (q s).2.result with
  | error e =>
    rw [bind_of_error hx]
    exact hq.of_error hs hx
  | ok v =>
    rw [bind_of_ok hx]
    exact hk v _ (hq.of_ok hs hx)

/-- `Action.kept` builds only where nothing is kept, and puts the value away in the state that its
building leaves. -/
theorem Preserves.kept {get : σ → Option α} {put : α → σ → σ} {build : Action σ α}
    (hbuild : build.Triple (fun s => I s ∧ get s = none) Q I) (hput : ∀ v s, Q s → I (put v s)) :
    (Action.kept get put build).Preserves I := by
  intro s hs
  cases hget : get s with
  | some v =>
    -- the one place where nothing is built
    rw [kept_of_some hget]
    exact hs
  | none =>
    cases hx : (build s).2.result with
    | error e =>
      rw [kept_of_error hget hx, hx]
      exact hbuild.of_error ⟨hs, hget⟩ hx
    | ok v =>
      rw [kept_of_ok hget hx, hx]
      exact hput v _ (hbuild.of_ok ⟨hs, hget⟩ hx)

end Action

theorem Plan.run_preserves {S : Store σ} (h : ∀ k, (S.graph k).Preserves I) (p : Plan α) :
    (p.run S).Preserves I := by
  induction p with
  | answer x =>
    intro s hs
    cases hx : x.result <;> simp only [run, hx] <;> exact hs
  | look next ih => exact Action.Triple.bind (fun s hs => hs) ih
  | ask k next ih => exact (h k).bind ih

end Triple

namespace Watched

/-- Each graph that is kept was constructed once, and no other was. -/
def Counted (w : Watched) : Prop :=
  ∀ k, w.built.count k = if (Derived.kept? k w.analysis).isSome then 1 else 0

/-- `Counted`, but for the graph `k`: it was constructed just now and is not kept yet. -/
def Due (k : Derived) (w : Watched) : Prop :=
  ∀ j, w.built.count j = if j = k ∨ (Derived.kept? j w.analysis).isSome then 1 else 0

theorem Counted.due {k : Derived} {w : Watched} (hw : w.Counted)
    (hget : k.kept? w.analysis = none) : Due k (Store.watched.note k w) := by
  intro j
  change (k :: w.built).count j = if j = k ∨ (j.kept? w.analysis).isSome then 1 else 0
  by_cases heq : j = k
  · subst heq
    -- nothing was kept, so it was not constructed before
    have hnever : w.built.count j = 0 := by rw [hw j, hget]; rfl
    rw [List.count_cons_self, hnever, if_pos (.inl rfl)]
  · rw [List.count_cons_of_ne (Ne.symm heq), hw j]
    simp only [heq, false_or]

theorem Due.put {k : Derived} {w : Watched} (hw : Due k w) (g : Graph Node) :
    (Store.watched.put k g w).Counted := by
  intro j
  change w.built.count j = if (j.kept? (k.keep g w.analysis)).isSome then 1 else 0
  rw [hw j]
  -- the graph that was due is kept now, and nothing else has changed
  by_cases heq : j = k
  · subst heq
    rw [Derived.kept?_keep_self, if_pos (.inl rfl)]
    rfl
  · rw [Derived.kept?_keep_of_ne heq]
    simp only [heq, false_or]

/-- `construct` counts if it succeeds. -/
theorem construct_counted (k : Derived) (x : Subject → Outcome (Graph Node)) :
    (Store.watched.construct k x).Triple (fun w => w.Counted ∧ k.kept? w.analysis = none)
      (Due k) Counted := by
  rintro w ⟨hw, hget⟩
  cases hx : (x (Store.watched.subject w)).result with
  | ok g =>
    rw [Store.construct_of_ok hx, hx]
    exact hw.due hget
  | error e =>
    rw [Store.construct_of_error hx, hx]
    exact hw

/-- `construct` leaves the analysis as it is. -/
theorem construct_preserves (k : Derived) (x : Subject → Outcome (Graph Node))
    (F : Analysis → Prop) : (Store.watched.construct k x).Preserves fun w => F w.analysis := by
  intro w hw
  cases hx : (x (Store.watched.subject w)).result with
  | ok g =>
    rw [Store.construct_of_ok hx, hx]
    exact hw
  | error e =>
    rw [Store.construct_of_error hx, hx]
    exact hw

/-- A graph that is constructed from the flow graph alone. -/
theorem kept_counted (k : Derived) (x : Subject → Outcome (Graph Node)) :
    (Action.kept (Store.watched.get k) (Store.watched.put k)
      (Store.watched.construct k x)).Preserves Counted :=
  Action.Preserves.kept (construct_counted k x) fun g _ hdue => hdue.put g

/-- Such a graph is the only one that is put away. -/
theorem kept_preserves_other {j k : Derived} (hne : j ≠ k)
    (x : Subject → Outcome (Graph Node)) :
    (Action.kept (Store.watched.get k) (Store.watched.put k)
      (Store.watched.construct k x)).Preserves fun w => j.kept? w.analysis = none := by
  apply Action.Preserves.kept (Q := fun w => j.kept? w.analysis = none)
  · intro w hw
    exact construct_preserves k x (fun a => j.kept? a = none) w hw.1
  · intro g w hw
    change j.kept? (k.keep g w.analysis) = none
    rw [Derived.kept?_keep_of_ne hne, hw]

theorem graph_counted (k : Derived) : (Store.watched.graph k).Preserves Counted := by
  cases k with
  | control =>
    unfold Store.graph Store.control
    exact kept_counted .control _
  | data =>
    unfold Store.graph Store.data
    exact kept_counted .data _
  | combined =>
    unfold Store.graph Store.combined Store.control Store.data
    refine Action.Preserves.kept (Q := Due .combined) ?_ fun g _ hdue => hdue.put g
    -- the graphs that it is made of may be put away meanwhile, but not the combined one itself
    have hpart : ∀ (k : Derived) (x : Subject → Outcome (Graph Node)), .combined ≠ k →
        (Action.kept (Store.watched.get k) (Store.watched.put k)
          (Store.watched.construct k x)).Triple
            (fun w => w.Counted ∧ Derived.combined.kept? w.analysis = none)
            (fun w => w.Counted ∧ Derived.combined.kept? w.analysis = none) Counted :=
      fun k x hne =>
        ((kept_counted k x).and (kept_preserves_other hne x)).imp_error fun _ hw => hw.1
    exact (hpart .control _ nofun).bind fun c => (hpart .data _ nofun).bind fun d =>
      construct_counted .combined _

/-- **Whatever is asked**, each graph that is kept was constructed once. -/
theorem Counted.after {w : Watched} (hw : w.Counted) (history : List Request) :
    (w.after history).Counted := by
  induction history generalizing w with
  | nil => exact hw
  | cons r history ih => exact ih ((Plan.run_preserves graph_counted r.plan).apply hw)

theorem Counted.count_le_one {w : Watched} (hw : w.Counted) (k : Derived) :
    w.built.count k ≤ 1 := by
  rw [hw k]
  split <;> omega

end Watched

/-! ### Graphs that are kept -/

namespace Derived

/-- Every `query` is a look at what is kept, and a construction where nothing is. -/
theorem exists_query_eq (k : Derived) : ∃ build, k.query = Action.kept k.kept? k.keep build := by
  cases k with
  | control => exact ⟨fun a => (a, a.flow.controlDependence), rfl⟩
  | data => exact ⟨fun a => (a, a.flow.dataDependence a.method.toDefUse), rfl⟩
  | combined =>
    exact ⟨Query.control >>= fun c => Query.data >>= fun d => fun a => (a, a.flow.combine c d), rfl⟩

/-- **A graph that is kept is the answer.** The analysis stays as it is, and nothing is logged, as
it would be if the graph were constructed again. -/
theorem query_of_kept {k : Derived} {a : Analysis} {g : Graph Node} (h : k.kept? a = some g) :
    k.query a = (a, pure g) := by
  obtain ⟨build, hquery⟩ := k.exists_query_eq
  rw [hquery, Action.kept_of_some h]

/-- **A graph that was asked for is kept.** -/
theorem kept?_of_query {k : Derived} {a : Analysis} {g : Graph Node}
    (h : (k.query a).2.result = .ok g) : k.kept? (k.query a).1 = some g := by
  obtain ⟨build, hquery⟩ := k.exists_query_eq
  cases hget : k.kept? a with
  | some g' =>
    rw [query_of_kept hget] at h ⊢
    cases h
    exact hget
  | none =>
    -- the graph is built, and put away if that succeeds
    rw [hquery] at h ⊢
    cases hresult : (build a).2.result with
    | error e =>
      rw [Action.kept_of_error hget hresult, hresult] at h
      cases h
    | ok g' =>
      rw [Action.kept_of_ok hget hresult] at h ⊢
      obtain rfl : g' = g := Except.ok.inj (hresult.symm.trans h)
      exact kept?_keep_self k g' _

end Derived

/-- **Lazy, kept and eager graphs agree.** Whatever was asked of an analysis before, and whichever
queries failed, every query answers as it does at the start. The flow graph stays, and so does every
graph that is kept. Each derived graph is constructed at most once: `Watched.built` notes every
construction that succeeds, a graph that was asked for is kept, and one that is kept is answered
with as it is. Opening an analysis with all graphs only asks for the combined one. -/
theorem Analysis.queries_agree {m : Method} {o : Options} {a : Analysis}
    (h : (start m o).result = .ok a) (history : List Request) :
    (∀ r : Request, (r.ask (a.after history)).2.result = (r.ask a).2.result) ∧
    (a.after history).flow = a.flow ∧
    (∀ k g later, Derived.kept? k (a.after history) = some g →
      k.kept? (a.after (history ++ later)) = some g) ∧
    (Watched.after ⟨a, []⟩ history).analysis = a.after history ∧
    (∀ (r : Request) (w : Watched), (r.watch w).2 = (r.ask w.analysis).2) ∧
    (∀ k, (Watched.after ⟨a, []⟩ history).built.count k ≤ 1) ∧
    (∀ k g, (Derived.query k (a.after history)).2.result = .ok g →
      k.kept? (k.query (a.after history)).1 = some g) ∧
    (∀ k g, Derived.kept? k (a.after history) = some g →
      k.query (a.after history) = (a.after history, pure g)) ∧
    (eager m o).result = (Query.combined a).2.result.map fun _ => a.after [.graph .combined] := by
  obtain ⟨hfaithful, -, -⟩ := faithful_of_start h
  obtain ⟨hafter, hsubject, -⟩ := hfaithful.after history
  have hcounted : Watched.Counted ⟨a, []⟩ := by
    -- at the start nothing is kept, and nothing was constructed
    obtain ⟨f, -, rfl⟩ := start_eq_ok.1 h
    intro k
    cases k <;> rfl
  refine ⟨fun r => ?_, congrArg Subject.flow hsubject, fun k g later hkept => ?_,
    Watched.analysis_after _ history, fun r w => ?_, (hcounted.after history).count_le_one,
    fun k g => Derived.kept?_of_query, fun k g => Derived.query_of_kept, eager_of_start h⟩
  · rw [(r.ask_yields hafter).result, (r.ask_yields hfaithful).result, hsubject]
  · rw [after_append]
    exact (hafter.after later).2.2 k g hkept
  · rw [r.watch_project]

/-- A method of one instruction whose variables cannot be looked up. -/
def Method.unreadable : Method where
  definitions _ := .error (.fault (.reported .missingKey "definitions"))
  uses _ := .error (.fault (.reported .missingKey "uses"))
  name := .text "unreadable"
  stream := .ok [some { ident := 0, text := "", shown := "" }]
  transitions := .ofList []

/-- Where look-ups fail the statistics fail again and again. Control dependence is constructed once,
and is then the answer. -/
theorem Analysis.queries_agree_unreadable :
    ∃ a g, (start Method.unreadable default).result = .ok a ∧
      (Query.stats a).2.result.toOption.isNone ∧
      (Query.stats (a.after [.stats, .graph .combined])).2.result = (Query.stats a).2.result ∧
      (Watched.after ⟨a, []⟩ [.stats, .graph .combined]).built = [.control] ∧
      (Watched.after ⟨a, []⟩ [.stats, .graph .combined]).built.count .control ≤ 1 ∧
      Query.control (a.after [.stats, .graph .combined]) =
        (a.after [.stats, .graph .combined], pure g) := by
  have heval : (start Method.unreadable default).result.toOption.map (fun a =>
      ((Query.stats a).2.result.toOption.isNone,
        (Watched.after ⟨a, []⟩ [.stats, .graph .combined]).built,
        (a.after [.stats, .graph .combined]).control.isSome)) = some (true, [.control], true) := by
    decide +kernel
  cases hstart : (start Method.unreadable default).result with
  | error e =>
    rw [hstart] at heval
    cases heval
  | ok a =>
    rw [hstart] at heval
    obtain ⟨hfails, hrest⟩ := Prod.mk.inj (Option.some.inj heval)
    obtain ⟨hbuilt, hkept⟩ := Prod.mk.inj hrest
    obtain ⟨g, hg⟩ := Option.isSome_iff_exists.1 hkept
    obtain ⟨hagree, -, -, -, -, hcount, -, hanswer, -⟩ :=
      queries_agree hstart [.stats, .graph .combined]
    exact ⟨a, g, rfl, hfails, hagree .stats, hbuilt, hcount .control, hanswer .control g hg⟩

end Dependence
