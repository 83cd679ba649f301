import Dependence.Proofs.Method.Bytecode

/-!
# Transfers of control in bytecode

An operation passes control on to the next one, unless it always jumps or leaves the method, and a
jump passes it to the last operation at the offset that it names (`Bytecode.Transfers`). Control
arrives at the positions that such transfers lead to from the first one. A jump has an unknown
target if no operation stands at its offset (`Bytecode.UnknownTarget`).

Following control stops at the first jump to an unknown target, so it finds fewer steps than there
are transfers: `Step` has none out of such a jump, whereas `Transfers` still has the one to the next
operation. The two agree up to the first jump to an unknown target that control arrives at
(`Bytecode.Arrives.reached_or`), which is all that is needed to tell what is handed out:

* `Bytecode.transitions_exact` — the transitions are those out of the positions that control arrives
  at, each as often as there are transfers, unless control arrives at a jump to an unknown target;
  and the flow graph has the nodes and the edges of Entry that go with them.
-/

namespace Dependence

open Relation

namespace Bytecode

variable {b : Bytecode}

/-! ### Offsets -/

/-- The operation at position `p` stands at `offset`, and no later one does. -/
def LastAt (b : Bytecode) (offset : Value) (p : ℕ) : Prop :=
  (∃ o ∈ b.operations[p]?, (Value.int o.offset == offset) = true) ∧
    ∀ o ∈ b.operations.drop (p + 1), (Value.int o.offset == offset) = false

/-- No operation stands at `offset`. -/
def Vacant (b : Bytecode) (offset : Value) : Prop :=
  ∀ o ∈ b.operations, (Value.int o.offset == offset) = false

instance (b : Bytecode) (offset : Value) (p : ℕ) : Decidable (b.LastAt offset p) :=
  inferInstanceAs (Decidable (_ ∧ _))

instance (b : Bytecode) (offset : Value) : Decidable (b.Vacant offset) :=
  inferInstanceAs (Decidable (∀ o ∈ b.operations, _))

/-- `LastAt`, with one more operation at the end. -/
theorem lastAt_snoc (b : Bytecode) (l : List Operation) (o : Operation) (v : Value) (p : ℕ) :
    ({ b with operations := l ++ [o] } : Bytecode).LastAt v p ↔
      if Value.int o.offset == v then p = l.length
      else ({ b with operations := l } : Bytecode).LastAt v p := by
  unfold LastAt
  rcases lt_trichotomy p l.length with hlt | rfl | hgt
  · -- the operation at the end comes later
    rw [List.getElem?_append_left hlt, List.drop_append_of_le_length hlt, List.forall_mem_append,
      List.forall_mem_singleton]
    cases hv : Value.int o.offset == v <;> simp [hlt.ne]
  · simp
  · have hlength : (l ++ [o]).length ≤ p := by
      rw [List.length_append, List.length_singleton]
      exact hgt
    have hnone : (l ++ [o])[p]? = none := List.getElem?_eq_none hlength
    rw [hnone, List.getElem?_eq_none hgt.le]
    cases hv : Value.int o.offset == v <;> simp [hgt.ne']

/-- **`positionAt?`** finds the last position at an offset. -/
theorem positionAt?_eq_some_iff {v : Value} {p : ℕ} :
    b.positionAt? v = some p ↔ b.LastAt v p := by
  suffices hlist : ∀ l : List Operation,
      ({ b with operations := l } : Bytecode).positionAt? v = some p ↔
        ({ b with operations := l } : Bytecode).LastAt v p from hlist b.operations
  intro l
  -- from the end: the operation that comes last wins
  induction l using List.reverseRecOn with
  | nil => simp [positionAt?, LastAt]
  | append_singleton l o ih =>
    rw [positionAt?_snoc, lastAt_snoc]
    split
    · rw [Option.some.injEq, eq_comm]
    · exact ih

/-- `positionAt?` finds nothing where no operation stands. -/
theorem positionAt?_eq_none_iff {v : Value} : b.positionAt? v = none ↔ b.Vacant v := by
  have hoperations : b.operations = b.operations.zipIdx.map Prod.fst := by
    rw [List.zipIdx_map_fst]
  rw [positionAt?, List.getLast?_eq_none_iff, List.map_eq_nil_iff, List.filter_eq_nil_iff, Vacant,
    hoperations, List.forall_mem_map, ← hoperations]
  simp only [Bool.not_eq_true]

/-! ### Transfers -/

/-- The operation at `i` passes control on to the next one, at `j`. -/
def FallsTo (b : Bytecode) (i j : ℕ) : Prop :=
  ∃ o ∈ b.operations[i]?, o.fallsThrough = true ∧ j = i + 1 ∧ j < b.operations.length

/-- The operation at `i` jumps to `j`, the last position at the offset that it names. -/
def JumpsTo (b : Bytecode) (i j : ℕ) : Prop :=
  ∃ o ∈ b.operations[i]?, o.jumps b.jumpCodes = true ∧ b.LastAt o.argument j

/-- The operation at `i` jumps to an offset where no operation stands. -/
def UnknownTarget (b : Bytecode) (i : ℕ) : Prop :=
  ∃ o ∈ b.operations[i]?, o.jumps b.jumpCodes = true ∧ b.Vacant o.argument

instance (b : Bytecode) (i j : ℕ) : Decidable (b.FallsTo i j) :=
  inferInstanceAs (Decidable (∃ o ∈ b.operations[i]?, _))

instance (b : Bytecode) (i j : ℕ) : Decidable (b.JumpsTo i j) :=
  inferInstanceAs (Decidable (∃ o ∈ b.operations[i]?, _))

instance (b : Bytecode) (i : ℕ) : Decidable (b.UnknownTarget i) :=
  inferInstanceAs (Decidable (∃ o ∈ b.operations[i]?, _))

/-- **Control is passed** from `i` to `j`. -/
def Transfers (b : Bytecode) (i j : ℕ) : Prop := b.FallsTo i j ∨ b.JumpsTo i j

instance (b : Bytecode) (i j : ℕ) : Decidable (b.Transfers i j) :=
  inferInstanceAs (Decidable (_ ∨ _))

/-- The number of transfers from `i` to `j`: a jump to the next operation is a second one. -/
def transferCount (b : Bytecode) (i j : ℕ) : ℕ :=
  (if b.FallsTo i j then 1 else 0) + if b.JumpsTo i j then 1 else 0

/-- Control arrives at a position, along `Transfers` from the first one. -/
def Arrives (b : Bytecode) : ℕ → Prop := ReflTransGen b.Transfers 0

/-- The arguments of jumps can be looked up: `Value.hashed` does not fail on them. -/
def JumpsHashable (b : Bytecode) : Prop :=
  ∀ o ∈ b.operations, o.jumps b.jumpCodes = true → o.argument.unhashable? = none

/-- Control arrives within the operations. -/
theorem Arrives.lt {i : ℕ} (hi : b.Arrives i) (hoperations : b.operations ≠ []) :
    i < b.operations.length := by
  cases hi with
  | refl => exact List.length_pos_of_ne_nil hoperations
  | tail _ htransfers =>
    rcases htransfers with ⟨o, -, -, -, hlt⟩ | ⟨o, -, -, ⟨o', ho', -⟩, -⟩
    · exact hlt
    · exact (List.getElem?_eq_some_iff.1 ho').1

theorem transferCount_pos_iff {i j : ℕ} : 0 < b.transferCount i j ↔ b.Transfers i j := by
  unfold transferCount Transfers
  split <;> split <;> simp_all

/-- `following` has the next position at most, and once. -/
theorem count_following {i : ℕ} {o : Operation} (ho : b.operations[i]? = some o) (j : ℕ) :
    (b.following o i).count j = if b.FallsTo i j then 1 else 0 := by
  have hnodup : (b.following o i).Nodup := by
    unfold following
    split
    · exact List.nodup_singleton _
    · exact List.nodup_nil
  rw [hnodup.count]
  refine if_congr ?_ rfl rfl
  rw [mem_following]
  simp [FallsTo, ho]

/-- **`successors`** has a position once for every transfer to it; it fails, with the code
malformed, just at a jump to an unknown target. -/
theorem successors_ensures_transfers (h : b.JumpsHashable) (i : ℕ) :
    Ensures (b.successors i)
      (fun next => ¬ b.UnknownTarget i ∧ ∀ j, next.count j = b.transferCount i j)
      fun c => b.UnknownTarget i ∧ c.kind = .malformedCode := by
  cases ho : b.operations[i]? with
  | none =>
    rw [successors_of_none ho]
    refine ⟨by simp [UnknownTarget, ho], fun j => ?_⟩
    simp [transferCount, FallsTo, JumpsTo, ho]
  | some o =>
    cases hjumps : o.jumps b.jumpCodes with
    | false =>
      -- at most the next position, and no jump
      rw [successors_of_not_jumps ho hjumps]
      refine ⟨by simp [UnknownTarget, ho, hjumps], fun j => ?_⟩
      rw [count_following ho, transferCount]
      simp [JumpsTo, ho, hjumps]
    | true =>
      have hhashed : o.argument.hashed = .ok o.argument := by
        rw [Value.hashed, h o (List.mem_of_getElem? ho) hjumps]
      rw [successors_of_jumps ho hjumps, jumpTarget, hhashed, ok_bind]
      cases hp : b.positionAt? o.argument with
      | none => exact ⟨⟨o, ho, hjumps, positionAt?_eq_none_iff.1 hp⟩, rfl⟩
      | some p =>
        refine ⟨?_, fun j => ?_⟩
        · rintro ⟨o', ho', -, hvacant⟩
          cases ho.symm.trans ho'
          cases (positionAt?_eq_none_iff.2 hvacant).symm.trans hp
        · -- the jump leads to no other position
          have htarget : b.JumpsTo i j ↔ p = j := by
            simp [JumpsTo, ho, hjumps, ← positionAt?_eq_some_iff, hp]
          rw [List.count_append, count_following ho, List.count_singleton, transferCount]
          simp [htarget]

/-! ### Following transfers -/

/-- `successors` fails just at a jump to an unknown target. -/
theorem exists_successors_iff (h : b.JumpsHashable) {i : ℕ} :
    (∃ next, b.successors i = .ok next) ↔ ¬ b.UnknownTarget i := by
  have hspec := successors_ensures_transfers h i
  cases hsuccessors : b.successors i with
  | error c =>
    rw [hsuccessors] at hspec
    exact iff_of_false (by simp) (not_not_intro hspec.1)
  | ok next =>
    rw [hsuccessors] at hspec
    exact iff_of_true ⟨next, rfl⟩ hspec.1

/-- `next` has a position once for every transfer to it. -/
theorem count_next (h : b.JumpsHashable) {i : ℕ} (hi : ¬ b.UnknownTarget i) (j : ℕ) :
    (b.next i).count j = b.transferCount i j := by
  have hspec := successors_ensures_transfers h i
  rw [successors_eq_ok ((exists_successors_iff h).2 hi)] at hspec
  exact hspec.2 j

/-- A step is a transfer, but there is none out of a jump to an unknown target. -/
theorem step_iff_transfers (h : b.JumpsHashable) {i j : ℕ} :
    b.Step i j ↔ ¬ b.UnknownTarget i ∧ b.Transfers i j := by
  by_cases hi : b.UnknownTarget i
  · refine iff_of_false ?_ fun hstep => hstep.1 hi
    rintro ⟨next, hnext, -⟩
    exact (exists_successors_iff h).1 ⟨next, hnext⟩ hi
  · rw [← mem_next, ← List.count_pos_iff, count_next h hi, transferCount_pos_iff]
    exact (and_iff_right hi).symm

/-- Steps are transfers, so control arrives where they lead. -/
theorem Reached.arrives (h : b.JumpsHashable) {i : ℕ} (hi : b.Reached i) : b.Arrives i :=
  ReflTransGen.mono (fun _ _ hstep => ((step_iff_transfers h).1 hstep).2) _ _ hi

/-- **Up to the first jump to an unknown target**, transfers are steps. -/
theorem Arrives.reached_or (h : b.JumpsHashable) {i : ℕ} (hi : b.Arrives i) :
    b.Reached i ∨ ∃ k, b.Reached k ∧ b.UnknownTarget k := by
  induction hi with
  | refl => exact .inl .refl
  | @tail j k _ htransfers ih =>
    -- once a jump to an unknown target was met, the rest of the way is of no account
    rcases ih with hj | hunknown
    · by_cases hj' : b.UnknownTarget j
      · exact .inr ⟨j, hj, hj'⟩
      · exact .inl (hj.tail ((step_iff_transfers h).2 ⟨hj', htransfers⟩))
    · exact .inr hunknown

/-- Whether some jump to an unknown target is met does not depend on which way control is followed.
-/
theorem exists_arrives_unknownTarget_iff (h : b.JumpsHashable) :
    (∃ i, b.Arrives i ∧ b.UnknownTarget i) ↔ ∃ i, b.Reached i ∧ b.UnknownTarget i := by
  refine ⟨fun hunknown => ?_, fun hunknown => ?_⟩
  · -- if the jump itself is not reached, an earlier one is
    obtain ⟨i, hi, hi'⟩ := hunknown
    rcases hi.reached_or h with hreached | hbefore
    · exact ⟨i, hreached, hi'⟩
    · exact hbefore
  · obtain ⟨i, hi, hi'⟩ := hunknown
    exact ⟨i, hi.arrives h, hi'⟩

/-- Where control arrives at no jump to an unknown target, it arrives where the steps lead. -/
theorem arrives_iff_reached (h : b.JumpsHashable) (hnone : ∀ i, b.Arrives i → ¬ b.UnknownTarget i)
    {i : ℕ} : b.Arrives i ↔ b.Reached i := by
  refine ⟨fun hi => ?_, fun hi => hi.arrives h⟩
  rcases hi.reached_or h with hreached | ⟨k, hk, hk'⟩
  · exact hreached
  · exact absurd hk' (hnone k (hk.arrives h))

/-! ### The transitions -/

/-- `leaving` has a transition as often as `next` has its target. -/
theorem count_leaving {positions : List ℕ} (hpositions : positions.Nodup) (i j : ℕ) :
    (b.leaving positions).count (i, j) = if i ∈ positions then (b.next i).count j else 0 := by
  induction positions with
  | nil => rfl
  | cons k positions ih =>
    obtain ⟨hk, hrest⟩ := List.nodup_cons.1 hpositions
    have hleaving : b.leaving (k :: positions) = (b.next k).map (k, ·) ++ b.leaving positions := rfl
    rw [hleaving, List.count_append, ih hrest]
    -- a position stands in the list once, so only one of the two parts counts
    by_cases hik : i = k
    · subst hik
      rw [List.count_map_of_injective _ _ (Prod.mk_right_injective i), if_neg hk]
      simp
    · have hother : (i, j) ∉ (b.next k).map (k, ·) := by
        intro hmem
        obtain ⟨j', -, heq⟩ := List.mem_map.1 hmem
        exact hik (Prod.mk.inj heq).1.symm
      rw [List.count_eq_zero_of_not_mem hother, Nat.zero_add]
      simp [hik]

/-- The transitions stand in order of their sources, and from one source in order of their
targets. -/
def InOrder (found : List (ℕ × ℕ)) : Prop :=
  found.Pairwise fun s t => s.1 < t.1 ∨ s.1 = t.1 ∧ s.2 ≤ t.2

/-- Sorting by `transitionLe` puts transitions in order. -/
theorem inOrder_mergeSort (found : List (ℕ × ℕ)) : InOrder (found.mergeSort transitionLe) := by
  have hle : ∀ s t, transitionLe s t = true ↔ s.1 < t.1 ∨ s.1 = t.1 ∧ s.2 ≤ t.2 := by
    intro s t
    simp [transitionLe]
  refine (List.pairwise_mergeSort ?_ ?_ found).imp fun hst => (hle _ _).1 hst
  · intro s t u
    rw [hle, hle, hle]
    omega
  · intro s t
    rw [Bool.or_eq_true, hle, hle]
    omega

/-- **The transitions that are handed out** are those `found`. They are in order, and are the
transfers out of where control arrives, each as often as it is one. -/
structure Emits (b : Bytecode) (found : List (ℕ × ℕ)) : Prop where
  failure : b.transitions.failure = none
  items : b.transitions.items = found.map transitionValue
  sorted : InOrder found
  count : ∀ i j, b.Arrives i → found.count (i, j) = b.transferCount i j
  absent : ∀ i j, ¬ b.Arrives i → (i, j) ∉ found

/-- `transitions` fails, if control arrives at a jump to an unknown target. -/
theorem exists_fault (h : b.JumpsHashable) (hunknown : ∃ i, b.Arrives i ∧ b.UnknownTarget i) :
    ∃ c : Fault, c.kind = .malformedCode ∧
      b.transitions = { log := [], items := [], failure := some (.fault c) } := by
  obtain ⟨i, hi, hi'⟩ := (exists_arrives_unknownTarget_iff h).1 hunknown
  have hoperations : b.operations ≠ [] := by
    intro hnil
    obtain ⟨o, ho, -⟩ := hi'
    rw [hnil] at ho
    cases ho
  have hspec := b.reachable_spec
  cases hreachable : b.reachable with
  | error c =>
    -- whichever position failed, it is a jump to an unknown target
    rw [hreachable] at hspec
    obtain ⟨k, -, hk⟩ := hspec
    have hkind := successors_ensures_transfers h k
    rw [hk] at hkind
    refine ⟨c, hkind.2, ?_⟩
    rw [transitions, if_neg (by simpa using hoperations), hreachable]
  | ok r =>
    -- the jump was followed, so it says where control goes on
    rw [hreachable] at hspec
    obtain ⟨followed, -, hfollowed, hresolves, -⟩ := hspec
    exact absurd hi' ((exists_successors_iff h).1 (hresolves i ((hfollowed i).2 hi)))

/-- `transitions` succeeds, if control arrives at no jump to an unknown target. -/
theorem exists_emits (h : b.JumpsHashable) (hnone : ∀ i, b.Arrives i → ¬ b.UnknownTarget i) :
    ∃ found, b.Emits found := by
  by_cases hoperations : b.operations = []
  · -- nothing is followed, and there is nothing to pass control
    have htransitions : b.transitions = .ofList [] := by
      rw [transitions, if_pos (by rw [hoperations]; rfl)]
    refine ⟨[], by rw [htransitions]; rfl, by rw [htransitions]; rfl, .nil, fun i j _ => ?_,
      fun i j _ => List.not_mem_nil⟩
    simp [transferCount, FallsTo, JumpsTo, hoperations]
  · have hspec := b.reachable_spec
    cases hreachable : b.reachable with
    | error c =>
      -- what failed is a position that control arrives at, so no jump to an unknown target
      rw [hreachable] at hspec
      obtain ⟨k, hk, hc⟩ := hspec
      obtain ⟨next, hnext⟩ := (exists_successors_iff h).2 (hnone k (hk.arrives h))
      cases hc.symm.trans hnext
    | ok r =>
      rw [hreachable] at hspec
      obtain ⟨followed, hnodup, hfollowed, -, hfound⟩ := hspec
      have htransitions : b.transitions =
          { log := [b.record r.2 r.1.length]
            items := r.1.map transitionValue
            failure := none } := by
        rw [transitions, if_neg (by simpa using hoperations), hreachable]
      -- sorting changes no count
      have hcount : ∀ i j, r.1.count (i, j) = if i ∈ followed then (b.next i).count j else 0 := by
        intro i j
        rw [hfound, (List.mergeSort_perm _ _).count_eq, count_leaving hnodup]
      refine ⟨r.1, by rw [htransitions], by rw [htransitions], hfound ▸ inOrder_mergeSort _, ?_, ?_⟩
      · intro i j hi
        have hmem : i ∈ followed := (hfollowed i).2 ((arrives_iff_reached h hnone).1 hi)
        rw [hcount, if_pos hmem, count_next h (hnone i hi)]
      · intro i j hi
        have hmem : i ∉ followed := fun hmem => hi (((hfollowed i).1 hmem).arrives h)
        rw [← List.count_eq_zero, hcount, if_neg hmem]

/-! ### The flow graph -/

/-- **The flow graph `f` follows the transfers**: it has one node at each position that control
arrives at, with the instruction there, and Entry leads to the first of them at most. -/
structure Follows (b : Bytecode) (f : FlowGraph) : Prop where
  places : ∃ positions : List ℕ, positions.Pairwise (· < ·) ∧ (∀ i, i ∈ positions ↔ b.Arrives i) ∧
    f.places.map Node.content = positions.map fun i => .place b.instructions[i]? (.int i)
  entry : ∀ n, n ∈ f.successors f.entry ↔
    n ∈ f.places ∧ n.point = .position 0 ∧ ∀ i, b.Arrives i → ¬ b.Transfers i 0

/-- `instructionAt` on the stream of bytecode. -/
theorem instructionAt_stream (b : Bytecode) (i : ℕ) :
    FlowGraph.instructionAt b.stream i = b.instructions[i]? := by
  rw [FlowGraph.instructionAt, stream, List.getElem?_map]
  cases b.instructions[i]? <;> rfl

namespace FlowOutline

variable {f : FlowGraph} {found : List (ℕ × ℕ)} (h : b.FlowOutline found f)

include h

/-- The flow graph of bytecode follows its transfers, if control arrives at no jump to an unknown
target. -/
theorem follows (hhashable : b.JumpsHashable) (hnone : ∀ i, b.Arrives i → ¬ b.UnknownTarget i)
    (hoperations : b.operations ≠ []) : b.Follows f := by
  -- steps and transfers are the same here, so `FlowOutline` speaks of transfers
  have harrives : ∀ i, b.Arrives i ↔ b.Reached i := fun i => arrives_iff_reached hhashable hnone
  have hfound : ∀ i j, (i, j) ∈ found ↔ b.Arrives i ∧ b.Transfers i j := by
    intro i j
    rw [h.mem_found, ← harrives, step_iff_transfers hhashable]
    exact and_congr_right fun hi => and_iff_right (hnone i hi)
  have hstream : b.stream ≠ [] := by
    rw [← List.length_pos_iff, length_stream]
    exact List.length_pos_of_ne_nil hoperations
  refine ⟨?_, fun n => ?_⟩
  · obtain ⟨positions, hsorted, hmem, hcontent⟩ := h.content_places
    refine ⟨positions, hsorted, fun i => ?_, ?_⟩
    · rw [hmem, h.mem_mentions, ← harrives]
      exact and_iff_left_of_imp fun hi => hi.lt hoperations
    · simp only [hcontent, instructionAt_stream]
  · rw [h.mem_successors_entry hstream]
    refine and_congr_right fun hn => ⟨fun hentered => ?_, fun hfirst => ?_⟩
    · obtain ⟨j, hpoint, hnot⟩ := hentered
      -- a position other than the first was arrived at by a transition
      obtain rfl : j = 0 := by
        obtain ⟨i, hi, hpoint'⟩ := h.point_of_mem_places hn
        cases hpoint.symm.trans hpoint'
        cases (h.mem_mentions.1 hi).1 with
        | refl => rfl
        | @tail k _ hk hstep => exact absurd rfl (hnot (k, j) ((h.mem_found _).2 ⟨hk, hstep⟩))
      refine ⟨hpoint, fun i hi htransfers => ?_⟩
      exact hnot (i, 0) ((hfound i 0).2 ⟨hi, htransfers⟩) rfl
    · refine ⟨0, hfirst.1, fun t ht h0 => ?_⟩
      obtain ⟨hi, htransfers⟩ := (hfound t.1 t.2).1 ht
      exact hfirst.2 t.1 hi (h0 ▸ htransfers)

end FlowOutline

/-- A fault in `transitions` is the cause of the failure to build the flow graph. -/
theorem build_of_fault {c : Fault} (hkind : c.kind = .malformedCode)
    (ht : b.transitions = { log := [], items := [], failure := some (.fault c) }) (table : ℕ)
    (given : Value) :
    ∃ e : AnalysisError, (FlowGraph.build b.method table given).result = .error (.analysis e) ∧
      e.sort = .failure ∧ e.cause = some c := by
  have hdiscover : b.method.discover.result = .error (.fault c) := by
    simp only [Method.discover, method, ht, Transitions.pairs, Outcome.result_bind,
      Outcome.result_liftM, ok_bind]
    rfl
  unfold FlowGraph.build
  simp only [hdiscover, FlowGraph.onDiscoveryError, hkind, Fault.Kind.spoilsFlow, if_true,
    FlowGraph.discoveryFailed]
  exact ⟨_, rfl, rfl, rfl⟩

/-- **Bytecode hands out exactly the transfers of control that can be arrived at.** It fails to,
with a fault that says that the code is malformed, if and only if control arrives at a jump to an
unknown target; a jump to an unknown target that control does not arrive at is of no account. The
flow graph can then not be built, for that same reason. Otherwise it can, so no endpoint is ever out
of range, and it follows the transfers. -/
theorem transitions_exact (b : Bytecode) (h : b.JumpsHashable) (table : ℕ) (given : Value) :
    ((∃ c, b.transitions.failure = some (.fault c) ∧ c.kind = .malformedCode) ↔
      ∃ i, b.Arrives i ∧ b.UnknownTarget i) ∧
    ((∃ i, b.Arrives i ∧ b.UnknownTarget i) →
      ∃ e c, (FlowGraph.build b.method table given).result = .error (.analysis e) ∧
        e.sort = .failure ∧ e.cause = some c ∧ b.transitions.failure = some (.fault c)) ∧
    ((∀ i, b.Arrives i → ¬ b.UnknownTarget i) →
      (∃ found, b.Emits found) ∧
      ∃ f, (FlowGraph.build b.method table given).result = .ok f ∧
        (b.operations ≠ [] → b.Follows f)) := by
  refine ⟨⟨fun hfault => ?_, fun hunknown => ?_⟩, fun hunknown => ?_, fun hnone => ?_⟩
  · -- with no such jump `exists_emits` gives transitions, and no failure
    by_contra hnot
    push Not at hnot
    obtain ⟨c, hc, -⟩ := hfault
    obtain ⟨found, hemits⟩ := exists_emits h hnot
    cases hc.symm.trans hemits.failure
  · obtain ⟨c, hkind, ht⟩ := exists_fault h hunknown
    exact ⟨c, by rw [ht], hkind⟩
  · obtain ⟨c, hkind, ht⟩ := exists_fault h hunknown
    obtain ⟨e, hbuild, hsort, hcause⟩ := build_of_fault hkind ht table given
    exact ⟨e, c, hbuild, hsort, hcause, by rw [ht]⟩
  · have hresolves : ∀ i, b.Reached i → ∃ next, b.successors i = .ok next := fun i hi =>
      (exists_successors_iff h).2 (hnone i (hi.arrives h))
    obtain ⟨f, found, hbuild, houtline⟩ := exists_flowOutline hresolves table given
    exact ⟨exists_emits h hnone, f, hbuild, houtline.follows h hnone⟩

/-- A loop that is entered by a jump to the next operation, with a jump to an unknown target behind
its end. -/
def looped : Bytecode where
  name := .text "looped"
  operations :=
    [⟨"POP_JUMP_IF_TRUE", 115, .int 2, 0⟩, ⟨"POP_JUMP_IF_FALSE", 114, .int 6, 2⟩,
      ⟨"JUMP_BACKWARD", 140, .int 2, 4⟩, ⟨"RETURN_VALUE", 83, .none, 6⟩,
      ⟨"JUMP_FORWARD", 110, .int 99, 8⟩]
  firstIdent := 0

/-- The jump to the next operation is a second transition, and the jump to an unknown target is of
no account. -/
theorem transitions_exact_looped :
    looped.JumpsHashable ∧ looped.UnknownTarget 4 ∧
      (∃ found, looped.Emits found ∧ found.count (0, 1) = 2 ∧ found.count (2, 1) = 1) ∧
      ∃ f, (FlowGraph.build looped.method 0 .none).result = .ok f ∧ looped.Follows f := by
  have hhashable : looped.JumpsHashable := by
    unfold JumpsHashable
    decide
  -- no transfer leads to position 4, which holds the jump to an unknown target
  have hbefore : ∀ i, looped.Arrives i → i ≠ 4 := by
    intro i hi
    induction hi with
    | refl => decide
    | @tail j k hj htransfers ih =>
      have hnot : ∀ j < 5, j ≠ 4 → ¬ looped.Transfers j 4 := by decide
      rintro rfl
      exact hnot j (Arrives.lt hj (by decide)) ih htransfers
  have hnone : ∀ i, looped.Arrives i → ¬ looped.UnknownTarget i := by
    have hothers : ∀ i < 5, i ≠ 4 → ¬ looped.UnknownTarget i := by decide
    exact fun i hi => hothers i (hi.lt (by decide)) (hbefore i hi)
  obtain ⟨⟨found, hfound⟩, f, hbuild, hf⟩ := (transitions_exact looped hhashable 0 .none).2.2 hnone
  have harrives : looped.Arrives 2 := by
    have h01 : looped.Transfers 0 1 := by decide
    have h12 : looped.Transfers 1 2 := by decide
    exact (ReflTransGen.single h01).tail h12
  refine ⟨hhashable, by decide, ⟨found, hfound, ?_, ?_⟩, f, hbuild, hf (by decide)⟩
  · rw [hfound.count 0 1 .refl]
    decide
  · rw [hfound.count 2 1 harrives]
    decide

end Bytecode

end Dependence
