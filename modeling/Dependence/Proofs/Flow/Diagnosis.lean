import Dependence.Proofs.Failure
import Dependence.Proofs.Flow.Shape

/-!
# What is reported when a flow graph is not built

Much can be wrong with a method at once: the stream cannot be read, an item is no pair, handing the
items out breaks off, an endpoint lies outside the stream. One error is reported, and the order of
reading decides which.

* All that is discovered comes first: the stream, then the items one by one, then what happens after
  the last item (`Method.Fails`). Some kinds of fault are expected here and become a failure of this
  stage, with the fault as its cause (`Fault.Kind.Expected`). Everything else is passed on as it is.
* Only if all items are pairs are the endpoints looked at, the source of a pair before its target.

So an item that is no pair counts before every endpoint, wherever the two stand. `Method.Reports`
collects the cases, and `FlowGraph.build_diagnosis` says that they are all.

Reading item after item stops at the first bad one (`FirstIn`), whatever is read
(`Ensures.mapM_first`).
-/

namespace Dependence

/-! ### The first of a list -/

/-- `a` is the first bad one of `items`. -/
def FirstIn {α : Type} (Bad : α → Prop) (items : List α) (a : α) : Prop :=
  ∃ before after, items = before ++ a :: after ∧ (∀ b ∈ before, ¬ Bad b) ∧ Bad a

namespace FirstIn

variable {α β : Type} {Bad : α → Prop} {items : List α} {a b : α}

theorem mem (h : FirstIn Bad items a) : a ∈ items := by
  obtain ⟨before, after, rfl, -, -⟩ := h
  exact List.mem_append_right _ List.mem_cons_self

theorem bad (h : FirstIn Bad items a) : Bad a := by
  obtain ⟨-, -, -, -, ha⟩ := h
  exact ha

theorem head (h : Bad a) (items : List α) : FirstIn Bad (a :: items) a :=
  ⟨[], items, rfl, nofun, h⟩

theorem append_left {before : List α} (hbefore : ∀ b ∈ before, ¬ Bad b)
    (h : FirstIn Bad items a) : FirstIn Bad (before ++ items) a := by
  obtain ⟨more, after, rfl, hmore, ha⟩ := h
  refine ⟨before ++ more, after, (List.append_assoc _ _ _).symm, ?_, ha⟩
  intro b hb
  obtain hb | hb := List.mem_append.1 hb
  · exact hbefore b hb
  · exact hmore b hb

theorem append_right (h : FirstIn Bad items a) (rest : List α) :
    FirstIn Bad (items ++ rest) a := by
  obtain ⟨before, after, rfl, hbefore, ha⟩ := h
  exact ⟨before, after ++ rest, by rw [List.append_assoc, List.cons_append], hbefore, ha⟩

/-- There is one first bad item at most. -/
theorem unique (ha : FirstIn Bad items a) (hb : FirstIn Bad items b) : a = b := by
  classical
  -- it is what a search with `find?` stops at
  have hfind : ∀ c, FirstIn Bad items c → items.find? (fun x => decide (Bad x)) = some c := by
    intro c hc
    obtain ⟨before, after, heq, hbefore, hbad⟩ := hc
    refine List.find?_eq_some_iff_append.2 ⟨decide_eq_true hbad, before, after, heq, ?_⟩
    intro x hx
    rw [decide_eq_false (hbefore x hx)]
    rfl
  exact Option.some.inj ((hfind a ha).symm.trans (hfind b hb))

/-- The first bad part of the first item with a bad part. -/
theorem flatMap {parts : β → List α} {items : List β} {p : β}
    (hp : FirstIn (fun p => ∃ a ∈ parts p, Bad a) items p) (ha : FirstIn Bad (parts p) a) :
    FirstIn Bad (items.flatMap parts) a := by
  obtain ⟨before, after, rfl, hbefore, -⟩ := hp
  -- the items before `p` have no bad part
  rw [List.flatMap_append, List.flatMap_cons]
  refine append_left ?_ (ha.append_right _)
  intro b hb hbad
  obtain ⟨q, hq, hbq⟩ := List.mem_flatMap.1 hb
  exact hbefore q hq ⟨b, hbq, hbad⟩

end FirstIn

/-- **`mapM f`** reads all items, or stops at the first bad one with its error. -/
theorem Ensures.mapM_first {ε α β : Type} {f : α → Except ε β} {Good : α → β → Prop}
    {Bad : α → Prop} {error : α → ε → Prop}
    (h : ∀ a, Ensures (f a) (fun b => ¬ Bad a ∧ Good a b) fun e => Bad a ∧ error a e)
    (items : List α) :
    Ensures (items.mapM f) (fun found => (∀ a ∈ items, ¬ Bad a) ∧ List.Forall₂ Good items found)
      fun e => ∃ a, FirstIn Bad items a ∧ error a e := by
  induction items with
  | nil => exact ⟨nofun, .nil⟩
  | cons a items ih =>
    rw [List.mapM_cons]
    have ha := h a
    cases hread : f a with
    | error e =>
      rw [hread] at ha
      exact ⟨a, .head ha.1 items, ha.2⟩
    | ok b =>
      rw [hread] at ha
      rw [ok_bind]
      -- this item is good, so the first bad one is among the rest
      have hrest : Ensures (items.mapM f)
          (fun found => (∀ a ∈ items, ¬ Bad a) ∧ List.Forall₂ Good items found)
          fun e => ∃ a', FirstIn Bad (a :: items) a' ∧ error a' e := by
        apply ih.imp (fun _ hfound => hfound)
        intro e he
        obtain ⟨a', hfirst, herror⟩ := he
        have hbefore : ∀ b ∈ [a], ¬ Bad b := by
          intro b hb
          obtain rfl := List.mem_singleton.1 hb
          exact ha.1
        exact ⟨a', hfirst.append_left hbefore, herror⟩
      apply hrest.bind
      intro found hfound
      exact ⟨List.forall_mem_cons.2 ⟨ha.1, hfound.1⟩, .cons ha.2 hfound.2⟩

theorem exists_of_forall₂ {α β : Type} {r : α → β → Prop} {xs : List α} {ys : List β}
    (h : List.Forall₂ r xs ys) {x : α} (hx : x ∈ xs) : ∃ y ∈ ys, r x y := by
  induction h with
  | nil => cases hx
  | cons hr _ ih =>
    obtain rfl | hx := List.mem_cons.1 hx
    · exact ⟨_, List.mem_cons_self, hr⟩
    · obtain ⟨y, hy, hxy⟩ := ih hx
      exact ⟨y, List.mem_cons_of_mem _ hy, hxy⟩

/-! ### Discovery -/

/-- The value `v` has two parts. -/
def Value.IsPair (v : Value) : Prop := ∃ a b, v.parts? = some [a, b]

theorem Value.pair_eq_ok {v : Value} {p : Value × Value} :
    v.pair = .ok p ↔ v.parts? = some [p.1, p.2] := by
  unfold Value.pair
  constructor
  · intro h
    split at h
    · rename_i hparts
      cases h
      exact hparts
    all_goals cases h
  · intro h
    rw [h]

theorem Value.isPair_iff {v : Value} : v.IsPair ↔ ∃ p, v.pair = .ok p := by
  simp only [IsPair, pair_eq_ok, Prod.exists]

theorem Value.exists_fault {v : Value} (h : ¬ v.IsPair) : ∃ c, v.pair = .error c := by
  rw [isPair_iff] at h
  cases hpair : v.pair with
  | ok p => exact absurd ⟨p, hpair⟩ h
  | error c => exact ⟨c, rfl⟩

theorem Value.pair_spec (v : Value) :
    Ensures v.pair (fun p => ¬ ¬ v.IsPair ∧ v.parts? = some [p.1, p.2])
      fun c => ¬ v.IsPair ∧ v.pair = .error c := by
  rw [isPair_iff]
  cases hpair : v.pair with
  | ok p => exact ⟨not_not_intro ⟨p, rfl⟩, pair_eq_ok.1 hpair⟩
  | error c => exact ⟨nofun, rfl⟩

namespace Method

/-- **How `discover` fails.** The stream cannot be read. Or it can, and an item is no pair while all
items before it are. Or all items are pairs, and handing them out ends in an error. -/
inductive Fails (m : Method) : Error → Prop
  | stream {e : Error} (unread : m.stream = .error e) : Fails m e
  | item {stream : List (Option Instruction)} {v : Value} {c : Fault}
      (read : m.stream = .ok stream)
      (first : FirstIn (fun v => ¬ v.IsPair) m.transitions.items v) (unpaired : v.pair = .error c) :
      Fails m (.fault c)
  | handing {stream : List (Option Instruction)} {e : Error} (read : m.stream = .ok stream)
      (paired : ∀ v ∈ m.transitions.items, v.IsPair) (broken : m.transitions.failure = some e) :
      Fails m e

/-- **What `discover` finds**: the stream, and the items as pairs. -/
structure Finds (m : Method) (stream : List (Option Instruction)) (pairs : List (Value × Value)) :
    Prop where
  read : m.stream = .ok stream
  paired : List.Forall₂ (fun v p => v.parts? = some [p.1, p.2]) m.transitions.items pairs
  unbroken : m.transitions.failure = none

end Method

/-- The items are read as pairs up to the first one that is none. -/
theorem Transitions.items_ensures (items : List Value) :
    Ensures (items.mapM fun v => (liftM v.pair : Except Error (Value × Value)))
      (fun pairs => (∀ v ∈ items, v.IsPair) ∧
        List.Forall₂ (fun v p => v.parts? = some [p.1, p.2]) items pairs)
      fun e => ∃ v c, FirstIn (fun v => ¬ v.IsPair) items v ∧ v.pair = .error c ∧ e = .fault c := by
  -- a fault of `Value.pair` is handed on as the error
  have hread : ∀ v : Value, Ensures (liftM v.pair : Except Error (Value × Value))
      (fun p => ¬ ¬ v.IsPair ∧ v.parts? = some [p.1, p.2])
      fun e => ¬ v.IsPair ∧ ∃ c, v.pair = .error c ∧ e = .fault c := by
    intro v
    apply v.pair_spec.liftM.imp (fun _ hp => hp)
    intro e he
    obtain ⟨c, rfl, hpair, hc⟩ := he
    exact ⟨hpair, c, hc, rfl⟩
  apply (Ensures.mapM_first hread items).imp
  · intro pairs hpairs
    exact ⟨fun v hv => not_not.1 (hpairs.1 v hv), hpairs.2⟩
  · intro e he
    obtain ⟨v, hfirst, c, hc, rfl⟩ := he
    exact ⟨v, c, hfirst, hc, rfl⟩

namespace Method

variable {m : Method} {stream : List (Option Instruction)} {pairs : List (Value × Value)}

/-- `discover` with a stream: the items decide, and then what happens after the last one. -/
theorem discover_of_stream (hstream : m.stream = .ok stream) :
    m.discover.result =
      (m.transitions.items.mapM fun v => (liftM v.pair : Except Error (Value × Value))) >>=
        fun pairs => match m.transitions.failure with
          | some e => .error e
          | none => .ok (stream, pairs) := by
  unfold discover Transitions.pairs
  simp only [Outcome.result_bind, Outcome.result_liftM, Outcome.result_pure, hstream, ok_bind,
    bind_assoc]
  cases m.transitions.failure <;> rfl

/-- **`discover`** finds stream and pairs, or fails. -/
theorem discover_ensures (m : Method) :
    Ensures m.discover.result (fun found => m.Finds found.1 found.2) m.Fails := by
  cases hstream : m.stream with
  | error e =>
    have hresult : m.discover.result = .error e := by
      rw [discover, Outcome.result_bind, Outcome.result_liftM, hstream]
      rfl
    rw [hresult]
    exact .stream hstream
  | ok stream =>
    rw [discover_of_stream hstream]
    -- an item that is no pair comes before the failure after the last item
    refine ((Transitions.items_ensures m.transitions.items).imp (fun _ hpairs => hpairs) ?_).bind ?_
    · intro e he
      obtain ⟨v, c, hfirst, hc, rfl⟩ := he
      exact .item hstream hfirst hc
    · intro pairs hpairs
      cases hfailure : m.transitions.failure with
      | none => exact ⟨hstream, hpairs.2, hfailure⟩
      | some e => exact .handing hstream hpairs.1 hfailure

/-- `discover` fails in one way. -/
theorem Fails.unique {e e' : Error} (h : m.Fails e) (h' : m.Fails e') : e = e' := by
  -- each way to fail excludes the others, by what the stream is and by whether all items are pairs
  cases h with
  | stream unread =>
    cases h' with
    | stream unread' => exact Except.error.inj (unread.symm.trans unread')
    | item read' _ _ => cases unread.symm.trans read'
    | handing read' _ _ => cases unread.symm.trans read'
  | item read first unpaired =>
    cases h' with
    | stream unread' => cases read.symm.trans unread'
    | item _ first' unpaired' =>
      obtain rfl := first.unique first'
      exact congrArg Error.fault (Except.error.inj (unpaired.symm.trans unpaired'))
    | handing _ paired' _ => exact absurd (paired' _ first.mem) first.bad
  | handing read paired broken =>
    cases h' with
    | stream unread' => cases read.symm.trans unread'
    | item _ first' _ => exact absurd (paired _ first'.mem) first'.bad
    | handing _ _ broken' => exact Option.some.inj (broken.symm.trans broken')

/-- Where all is found, nothing failed. -/
theorem Finds.not_fails {e : Error} (h : m.Finds stream pairs) : ¬ m.Fails e := by
  intro hfails
  cases hfails with
  | stream unread => cases h.read.symm.trans unread
  | item _ first _ =>
    -- every item was read as some pair
    have hpaired : ∀ v ∈ m.transitions.items, v.IsPair := by
      intro v hv
      obtain ⟨p, -, hp⟩ := exists_of_forall₂ h.paired hv
      exact ⟨p.1, p.2, hp⟩
    exact first.bad (hpaired _ first.mem)
  | handing _ _ broken => cases h.unbroken.symm.trans broken

/-- One stream is found, and one list of pairs. -/
theorem Finds.unique {stream' : List (Option Instruction)} {pairs' : List (Value × Value)}
    (h : m.Finds stream pairs) (h' : m.Finds stream' pairs') :
    stream = stream' ∧ pairs = pairs' := by
  -- two parts are those of one pair
  have hright : Relator.RightUnique fun (v : Value) (p : Value × Value) =>
      v.parts? = some [p.1, p.2] := by
    intro v p p' hp hp'
    rw [hp] at hp'
    simp only [Option.some.injEq, List.cons.injEq, and_true] at hp'
    exact Prod.ext hp'.1 hp'.2
  refine ⟨Except.ok.inj (h.read.symm.trans h'.read), ?_⟩
  exact List.right_unique_forall₂' hright h.paired h'.paired

end Method

/-! ### Endpoints -/

/-- The value `v` names a position of a stream: it is a whole number below `length`. -/
def Value.IsPosition (length : ℕ) (v : Value) : Prop := ∃ i < length, v.IsWhole i

/-- The endpoints of transitions, in order, the source before the target. -/
def endsOf (pairs : List (Value × Value)) : List Value := pairs.flatMap fun p => [p.1, p.2]

namespace FlowGraph

theorem endpoint_spec (length : ℕ) (v : Value) :
    Ensures (endpoint length v) (fun _ => v.IsPosition length)
      fun w => ¬ v.IsPosition length ∧ w = v := by
  by_cases hv : v.IsPosition length
  · obtain ⟨i, hi, hwhole⟩ := hv
    rw [endpoint_of_isWhole hwhole hi]
    exact ⟨i, hi, hwhole⟩
  · -- only a number is read, and a whole one is kept just if it is in range
    have hnone : endpoint? length v = none := by
      unfold endpoint?
      split
      · rename_i n
        rw [Option.bind_eq_none_iff]
        intro i hi
        rw [if_neg]
        intro hrange
        exact hv ⟨i.toNat, by omega, n, rfl, by rw [hi, Int.toNat_of_nonneg hrange.1]⟩
      · rfl
    rw [endpoint, hnone]
    exact ⟨hv, rfl⟩

/-- **`endpoints`** all name positions, or the first that does not is handed back. -/
theorem endpoints_ensures (length : ℕ) (pairs : List (Value × Value)) :
    Ensures (endpoints length pairs) (fun _ => ∀ v ∈ endsOf pairs, v.IsPosition length)
      fun v => FirstIn (fun v => ¬ v.IsPosition length) (endsOf pairs) v := by
  -- of one pair, the source is read before the target
  have hpair : ∀ p : Value × Value,
      Ensures (return (← endpoint length p.1, ← endpoint length p.2) : Except Value (ℕ × ℕ))
        (fun _ => ¬ (∃ v ∈ [p.1, p.2], ¬ v.IsPosition length) ∧ True)
        fun v => (∃ v ∈ [p.1, p.2], ¬ v.IsPosition length) ∧
          FirstIn (fun v => ¬ v.IsPosition length) [p.1, p.2] v := by
    intro p
    have hfirst : ∀ v, FirstIn (fun v => ¬ v.IsPosition length) [p.1, p.2] v →
        (∃ v ∈ [p.1, p.2], ¬ v.IsPosition length) ∧
          FirstIn (fun v => ¬ v.IsPosition length) [p.1, p.2] v :=
      fun v hv => ⟨⟨v, hv.mem, hv.bad⟩, hv⟩
    refine ((endpoint_spec length p.1).imp (fun _ h => h) ?_).bind ?_
    · intro v hv
      obtain ⟨hsource, rfl⟩ := hv
      exact hfirst _ ⟨[], [p.2], rfl, nofun, hsource⟩
    · intro i hsource
      refine ((endpoint_spec length p.2).imp (fun _ h => h) ?_).bind ?_
      · intro v hv
        obtain ⟨htarget, rfl⟩ := hv
        refine hfirst _ ⟨[p.1], [], rfl, ?_, htarget⟩
        simpa using hsource
      · intro j htarget
        refine ⟨?_, trivial⟩
        simp [hsource, htarget]
  apply (Ensures.mapM_first hpair pairs).imp
  · intro _ hall v hv
    obtain ⟨p, hp, hvp⟩ := List.mem_flatMap.1 hv
    by_contra hstray
    exact hall.1 p hp ⟨v, hvp, hstray⟩
  · intro v hv
    obtain ⟨p, hp, hvp⟩ := hv
    exact hp.flatMap hvp

end FlowGraph

/-! ### Reports -/

/-- The kind of fault is the other kind, or one sort of it. -/
inductive Fault.Kind.IsA : Fault.Kind → Fault.Kind → Prop
  | same (k : Fault.Kind) : IsA k k
  | text : IsA .badText .badValue
  | index : IsA .badIndex .lookup
  | key : IsA .missingKey .lookup

/-- The kinds of fault that `discover` is expected to come up with, with all their sorts. -/
def Fault.Kind.Expected (k : Fault.Kind) : Prop :=
  ∃ k' ∈ [malformedCode, badIndex, missingKey, wrongType, badValue], k.IsA k'

/-- `spoilsFlow` is the test for the kinds that are expected. -/
theorem Fault.Kind.spoilsFlow_iff {k : Fault.Kind} : k.spoilsFlow = true ↔ k.Expected := by
  constructor
  · intro h
    -- kind by kind; a text that cannot be read is a sort of bad value
    cases k <;> first
      | exact ⟨_, by decide, .same _⟩
      | exact ⟨.badValue, by decide, .text⟩
      | cases h
  · intro h
    obtain ⟨k', hk', hisA⟩ := h
    cases hisA with
    | same =>
      simp only [List.mem_cons, List.not_mem_nil, or_false] at hk'
      obtain rfl | rfl | rfl | rfl | rfl := hk' <;> rfl
    | text => rfl
    | index => rfl
    | key => rfl

namespace Method

/-- **What is reported** where the flow graph of `m` is not built, for the unit `unit`. -/
inductive Reports (m : Method) (unit : Value) : Error → Prop
  /-- Discovery failed as expected: a failure of this stage, with the fault as its cause. -/
  | discovery {c : Fault} (fails : m.Fails (.fault c)) (expected : c.kind.Expected) :
      Reports m unit (.analysis
        { sort := .failure, message := c.message, unit, stage := some .flow, cause := some c })
  /-- Discovery failed in another way, which is passed on. -/
  | other {e : Error} (fails : m.Fails e) (unexpected : ∀ c, e = .fault c → ¬ c.kind.Expected) :
      Reports m unit e
  /-- All was discovered, and this is the first endpoint outside the stream. -/
  | endpoint {stream : List (Option Instruction)} {pairs : List (Value × Value)} {v : Value}
      (finds : m.Finds stream pairs)
      (first : FirstIn (fun v => ¬ v.IsPosition stream.length) (endsOf pairs) v) :
      Reports m unit (.analysis
        { sort := .failure
          message := s!"edge endpoint {v.quoted} is outside the instruction stream " ++
            s!"(length {stream.length})"
          unit, stage := some .flow, cause := none })

/-- All is discovered, and every endpoint names a position. -/
def IsSound (m : Method) : Prop :=
  ∃ stream pairs, m.Finds stream pairs ∧ ∀ v ∈ endsOf pairs, v.IsPosition stream.length

variable {m : Method} {unit : Value}

theorem IsSound.not_reports {e : Error} (h : m.IsSound) : ¬ m.Reports unit e := by
  obtain ⟨stream, pairs, hfinds, hends⟩ := h
  intro hreports
  -- discovery has not failed, and one stream and one list of pairs were found
  cases hreports with
  | discovery fails _ => exact hfinds.not_fails fails
  | other fails _ => exact hfinds.not_fails fails
  | endpoint finds first =>
    obtain ⟨rfl, rfl⟩ := hfinds.unique finds
    exact first.bad (hends _ first.mem)

/-- One error is reported. -/
theorem Reports.unique {e e' : Error} (h : m.Reports unit e) (h' : m.Reports unit e') : e = e' := by
  -- discovery fails in one way or not at all, and there is one first endpoint outside the stream
  cases h with
  | discovery fails expected =>
    cases h' with
    | discovery fails' _ =>
      cases fails.unique fails'
      rfl
    | other fails' unexpected' => exact absurd expected (unexpected' _ (fails'.unique fails))
    | endpoint finds' _ => exact absurd fails finds'.not_fails
  | other fails unexpected =>
    cases h' with
    | discovery fails' expected' => exact absurd expected' (unexpected _ (fails.unique fails'))
    | other fails' _ => exact fails.unique fails'
    | endpoint finds' _ => exact absurd fails finds'.not_fails
  | endpoint finds first =>
    cases h' with
    | discovery fails' _ => exact absurd fails' finds.not_fails
    | other fails' _ => exact absurd fails' finds.not_fails
    | endpoint finds' first' =>
      obtain ⟨rfl, rfl⟩ := finds.unique finds'
      rw [first.unique first']

end Method

namespace FlowGraph

variable {m : Method} {unit : Value}

/-- `onDiscoveryError` reports a failed discovery. -/
theorem onDiscoveryError_ensures {e : Error} (h : m.Fails e) :
    Ensures (onDiscoveryError unit e).result (fun _ => m.IsSound) (m.Reports unit) := by
  cases e with
  | analysis e => exact .other h nofun
  | fault c =>
    by_cases hexpected : c.kind.spoilsFlow = true
    · rw [onDiscoveryError, if_pos hexpected]
      exact .discovery h (Fault.Kind.spoilsFlow_iff.1 hexpected)
    · rw [onDiscoveryError, if_neg hexpected]
      refine .other h ?_
      intro c' hc'
      cases hc'
      rwa [← Fault.Kind.spoilsFlow_iff]

/-- `ofDiscovery` makes a graph of what was discovered, unless an endpoint names no position. -/
theorem ofDiscovery_ensures (table : ℕ) {stream : List (Option Instruction)}
    {pairs : List (Value × Value)} (h : m.Finds stream pairs) :
    Ensures (ofDiscovery table unit stream pairs).result (fun _ => m.IsSound) (m.Reports unit) := by
  have hends := endpoints_ensures stream.length pairs
  unfold ofDiscovery
  cases hread : endpoints stream.length pairs with
  | error v =>
    rw [hread] at hends
    exact .endpoint h hends
  | ok transitions =>
    rw [hread] at hends
    -- what was read is always connected
    obtain ⟨layout, f, hconnect, -⟩ := connect_spec table unit stream transitions
    simp only [hconnect]
    exact ⟨stream, pairs, h, hends⟩

/-- **`build`** gives a graph for a sound method, and otherwise what is to be reported. -/
theorem build_ensures (m : Method) (table : ℕ) (given : Value) :
    Ensures (build m table given).result (fun _ => m.IsSound)
      (m.Reports (if given.isTruthy then given else m.name)) := by
  have hdiscover := m.discover_ensures
  cases hfound : m.discover.result with
  | error e =>
    rw [hfound] at hdiscover
    simp only [build, hfound]
    exact onDiscoveryError_ensures hdiscover
  | ok found =>
    rw [hfound] at hdiscover
    simp only [build, hfound]
    exact ofDiscovery_ensures table hdiscover

theorem build_eq_error_iff {table : ℕ} {given : Value} {e : Error} :
    (build m table given).result = .error e ↔
      m.Reports (if given.isTruthy then given else m.name) e := by
  have hbuild := build_ensures m table given
  refine ⟨fun h => by rwa [h] at hbuild, fun h => ?_⟩
  -- a sound method reports nothing, and any other reports one error
  cases hresult : (build m table given).result with
  | ok f =>
    rw [hresult] at hbuild
    exact absurd h hbuild.not_reports
  | error e' =>
    rw [hresult] at hbuild
    rw [h.unique hbuild]

theorem exists_build_iff {table : ℕ} {given : Value} :
    (∃ f, (build m table given).result = .ok f) ↔ m.IsSound := by
  have hbuild := build_ensures m table given
  refine ⟨fun ⟨f, h⟩ => by rwa [h] at hbuild, fun h => ?_⟩
  cases hresult : (build m table given).result with
  | ok f => exact ⟨f, rfl⟩
  | error e =>
    rw [hresult] at hbuild
    exact absurd hbuild h.not_reports

end FlowGraph

/-! ### Listings -/

namespace Listing

variable {l : Listing}

/-- A listing can be read, and hands out its transitions to the end. So only a transition can be at
fault. -/
theorem isSound_iff : l.method.IsSound ↔ ∀ v ∈ l.transitions, ∃ a b, v.parts? = some [a, b] ∧
    a.IsPosition l.instructions.length ∧ b.IsPosition l.instructions.length := by
  constructor
  · intro h v hv
    obtain ⟨stream, pairs, hfinds, hends⟩ := h
    obtain rfl : l.instructions = stream := Except.ok.inj hfinds.read
    obtain ⟨p, hp, hparts⟩ := exists_of_forall₂ hfinds.paired hv
    refine ⟨p.1, p.2, hparts, hends _ ?_, hends _ ?_⟩
    · exact List.mem_flatMap.2 ⟨p, hp, List.mem_cons_self⟩
    · exact List.mem_flatMap.2 ⟨p, hp, List.mem_cons_of_mem _ List.mem_cons_self⟩
  · intro h
    have hdiscover := l.method.discover_ensures
    cases hfound : l.method.discover.result with
    | error e =>
      -- of the ways to fail, only an item that is no pair is left to a listing
      rw [hfound] at hdiscover
      cases hdiscover with
      | stream unread => cases unread
      | item _ first _ =>
        obtain ⟨a, b, hparts, -⟩ := h _ first.mem
        exact absurd ⟨a, b, hparts⟩ first.bad
      | handing _ _ broken => cases broken
    | ok found =>
      obtain ⟨stream, pairs⟩ := found
      rw [hfound] at hdiscover
      have hfinds : l.method.Finds stream pairs := hdiscover
      obtain rfl : l.instructions = stream := Except.ok.inj hfinds.read
      refine ⟨l.instructions, pairs, hfinds, ?_⟩
      -- an endpoint is a part of a transition, and both parts are positions
      intro w hw
      obtain ⟨p, hp, hwp⟩ := List.mem_flatMap.1 hw
      obtain ⟨v, hv, hparts⟩ := exists_of_forall₂ hfinds.paired.flip hp
      obtain ⟨a, b, hparts', ha, hb⟩ := h v hv
      have hpair : [p.1, p.2] = [a, b] := Option.some.inj (hparts.symm.trans hparts')
      rw [hpair] at hwp
      simp only [List.mem_cons, List.not_mem_nil, or_false] at hwp
      obtain rfl | rfl := hwp
      · exact ha
      · exact hb

end Listing

/-- **Every failure to build a flow graph is classified.** What is reported, and when, is what
`Method.Reports` says, for every method, whatever its parts do. Otherwise the graph is built, which
is the case just if all is discovered and every endpoint names a position. In particular, a listing
has a flow graph just if each of its transitions is a pair of positions. And a transition that is no
pair is reported before any endpoint: the first such transition is, wherever it stands. -/
theorem FlowGraph.build_diagnosis (table : ℕ) (given : Value) :
    (∀ (m : Method) (e : Error), (build m table given).result = .error e ↔
      m.Reports (if given.isTruthy then given else m.name) e) ∧
    (∀ m : Method, (∃ f, (build m table given).result = .ok f) ↔ m.IsSound) ∧
    ∀ l : Listing,
      ((∃ f, (build l.method table given).result = .ok f) ↔
        ∀ v ∈ l.transitions, ∃ a b, v.parts? = some [a, b] ∧
          a.IsPosition l.instructions.length ∧ b.IsPosition l.instructions.length) ∧
      ∀ v, FirstIn (fun v => ¬ v.IsPair) l.transitions v → ∃ c, v.pair = .error c ∧
        (build l.method table given).result = .error (.analysis
          { sort := .failure, message := c.message
            unit := if given.isTruthy then given else l.name
            stage := some .flow, cause := some c }) := by
  refine ⟨fun m e => build_eq_error_iff, fun m => exists_build_iff, ?_⟩
  intro l
  refine ⟨exists_build_iff.trans Listing.isSound_iff, ?_⟩
  intro v hfirst
  -- what `Value.pair` fails with is always expected
  obtain ⟨c, hc⟩ := Value.exists_fault hfirst.bad
  have hkind := v.pair_ensures
  rw [hc] at hkind
  refine ⟨c, hc, build_eq_error_iff.2 (.discovery (.item rfl hfirst hc) ?_)⟩
  exact Fault.Kind.spoilsFlow_iff.1 hkind

/-- A listing with an endpoint outside its stream, and a transition that is no pair after it. -/
def Listing.muddled : Listing where
  name := .text "muddled"
  instructions := (List.range 2).map fun i => some { ident := i, text := "", shown := "" }
  transitions := [.tuple [.int 7, .int 0], .tuple [.int 1]]
  definitions := .empty
  uses := .empty

/-- The transition is reported, although the endpoint stands before it. -/
theorem FlowGraph.build_diagnosis_muddled :
    FirstIn (fun v => ¬ v.IsPair) Listing.muddled.transitions (.tuple [.int 1]) ∧
      ∃ c, (Value.tuple [.int 1]).pair = .error c ∧
        (build Listing.muddled.method 0 .none).result = .error (.analysis
          { sort := .failure, message := c.message, unit := .text "muddled"
            stage := some .flow, cause := some c }) := by
  have hfirst : FirstIn (fun v => ¬ v.IsPair) Listing.muddled.transitions (.tuple [.int 1]) := by
    refine ⟨[.tuple [.int 7, .int 0]], [], rfl, ?_, ?_⟩
    · intro v hv
      obtain rfl := List.mem_singleton.1 hv
      exact not_not_intro ⟨.int 7, .int 0, rfl⟩
    · intro hpair
      obtain ⟨a, b, hparts⟩ := hpair
      cases hparts
  exact ⟨hfirst, ((build_diagnosis 0 .none).2.2 Listing.muddled).2 _ hfirst⟩

end Dependence
