import Dependence.Proofs.Sweep
import Mathlib.Algebra.Order.BigOperators.Group.List
import Mathlib.Algebra.Order.Field.Rat
import Mathlib.Tactic.Positivity

/-!
# Metrics in exact numbers

The metrics from all outputs divide whole numbers: how many nodes all slices share, how many there
are in each slice, and how many instructions there are in all. `Metric.ofShared` does this with any
kind of number. In floating point it is what a query answers, and rounding has its say. Here the
numbers are rational.

What is shared lies in each slice, and each slice lies among the instructions. So the shared part of
all instructions is at most the shared part of each slice, and this is at most one. An average lies
between bounds of what it is taken of (`le_mean`, `mean_le`), and reaches the upper one only if
everything does (`mean_eq_iff`). Lists without repetition count sets, so equal sizes mean equal sets
(`length_eq_iff_subset`). Together: tightness is at most overlap, and the two equal one just in the
cases that `Analysis.metrics_bounded` names.
-/

namespace Dependence

open Relation

/-! ### Averages -/

section Mean

variable {xs : List ℚ} {b : ℚ}

/-- An average keeps to a lower bound. -/
theorem le_mean (hne : xs ≠ []) (h : ∀ x ∈ xs, b ≤ x) : b ≤ xs.sum / xs.length := by
  have hpos : (0 : ℚ) < xs.length := Nat.cast_pos.2 (List.length_pos_of_ne_nil hne)
  rw [le_div_iff₀ hpos, mul_comm, ← nsmul_eq_mul]
  exact List.card_nsmul_le_sum xs b h

theorem mean_le (hne : xs ≠ []) (h : ∀ x ∈ xs, x ≤ b) : xs.sum / xs.length ≤ b := by
  have hpos : (0 : ℚ) < xs.length := Nat.cast_pos.2 (List.length_pos_of_ne_nil hne)
  rw [div_le_iff₀ hpos, mul_comm, ← nsmul_eq_mul]
  exact List.sum_le_card_nsmul xs b h

/-- An average reaches an upper bound only if everything does. -/
theorem mean_eq_iff (hne : xs ≠ []) (h : ∀ x ∈ xs, x ≤ b) :
    xs.sum / xs.length = b ↔ ∀ x ∈ xs, x = b := by
  have hpos : (0 : ℚ) < xs.length := Nat.cast_pos.2 (List.length_pos_of_ne_nil hne)
  rw [div_eq_iff hpos.ne', mul_comm, ← nsmul_eq_mul]
  constructor
  · intro hsum x hx
    by_contra hxb
    -- one that stays below makes the sum stay below
    have hlt : (xs.map id).sum < (xs.map fun _ => b).sum :=
      List.sum_lt_sum id (fun _ => b) h ⟨x, hx, lt_of_le_of_ne (h x hx) hxb⟩
    rw [List.map_id, List.map_const', List.sum_replicate, hsum] at hlt
    exact lt_irrefl _ hlt
  · intro hall
    exact List.sum_eq_card_nsmul xs b hall

end Mean

/-! ### Sets, counted -/

/-- Of two sets, one within the other, the sizes are equal just if the sets are. -/
theorem length_eq_iff_subset {α : Type} {xs ys : List α} (hxs : xs.Nodup) (hys : ys.Nodup)
    (h : xs ⊆ ys) : xs.length = ys.length ↔ ys ⊆ xs := by
  -- a list without repetition counts the set of its members
  have hsub : xs.Subperm ys := hxs.subperm h
  constructor
  · intro hlength
    exact (hsub.perm_of_length_le hlength.ge).symm.subset
  · intro hback
    exact le_antisymm hsub.length_le (hys.subperm hback).length_le

namespace Shared

theorem mem_commonNodes {slices : List (List Node)} (hne : slices ≠ []) {n : Node} :
    n ∈ commonNodes slices ↔ ∀ s ∈ slices, n ∈ s := by
  obtain ⟨first, rest, rfl⟩ := List.exists_cons_of_ne_nil hne
  simp [commonNodes]

/-- `withOutput` has the output, and the instructions of `behind`. -/
theorem mem_withOutput {o n : Node} {behind : List Node} :
    n ∈ withOutput o behind ↔ n = o ∨ n.isMarker = false ∧ n ∈ behind := by
  unfold withOutput
  by_cases h : (behind.filter fun n => !n.isMarker).contains o = true
  · -- the output depends on itself, so it is there already
    rw [if_pos h]
    have ho := List.mem_filter.1 (List.contains_iff_mem.1 h)
    simp only [List.mem_filter, Bool.not_eq_true'] at ho ⊢
    refine ⟨fun hn => .inr hn.symm, ?_⟩
    intro hn
    obtain rfl | hn := hn
    · exact ho
    · exact hn.symm
  · rw [if_neg h]
    simp only [List.mem_append, List.mem_filter, Bool.not_eq_true', List.mem_singleton]
    rw [or_comm, and_comm]

theorem nodup_withOutput {o : Node} {behind : List Node} (h : behind.Nodup) :
    (withOutput o behind).Nodup := by
  unfold withOutput
  by_cases ho : (behind.filter fun n => !n.isMarker).contains o = true
  · rw [if_pos ho]
    exact h.filter _
  · rw [if_neg ho]
    -- the output is put last only where it is not among the others
    refine List.nodup_append.2 ⟨h.filter _, List.nodup_singleton o, ?_⟩
    intro x hx y hy hxy
    obtain rfl := List.mem_singleton.1 hy
    exact ho (List.contains_iff_mem.2 (hxy ▸ hx))

end Shared

/-- Each of the `slices` counts a node once, and has nodes of `instructions` only. -/
structure SlicesAmong (instructions : List Node) (slices : List (List Node)) : Prop where
  distinct : instructions.Nodup
  ne_nil : slices ≠ []
  nodup : ∀ s ∈ slices, s.Nodup
  subset : ∀ s ∈ slices, s ⊆ instructions

namespace SlicesAmong

open Shared

variable {instructions : List Node} {slices : List (List Node)}
  (h : SlicesAmong instructions slices)

include h

theorem nodup_commonNodes : (commonNodes slices).Nodup := by
  obtain ⟨first, rest, rfl⟩ := List.exists_cons_of_ne_nil h.ne_nil
  exact (h.nodup first List.mem_cons_self).filter _

/-- `commonNodes` lies in each slice. -/
theorem commonNodes_subset {s : List Node} (hs : s ∈ slices) : commonNodes slices ⊆ s :=
  fun _ hn => (mem_commonNodes h.ne_nil).1 hn s hs

theorem common_le {s : List Node} (hs : s ∈ slices) : (commonNodes slices).length ≤ s.length :=
  (h.nodup_commonNodes.subperm (h.commonNodes_subset hs)).length_le

theorem size_le {s : List Node} (hs : s ∈ slices) : s.length ≤ instructions.length :=
  ((h.nodup s hs).subperm (h.subset s hs)).length_le

/-- Every slice is shared in full just if all slices are the same set. -/
theorem common_eq_size_iff :
    (∀ s ∈ slices, (commonNodes slices).length = s.length) ↔
      ∀ s ∈ slices, ∀ s' ∈ slices, ∀ n, n ∈ s ↔ n ∈ s' := by
  -- a slice that is shared in full lies within all others
  have hfull : ∀ s ∈ slices, (commonNodes slices).length = s.length ↔ ∀ s' ∈ slices, s ⊆ s' := by
    intro s hs
    rw [length_eq_iff_subset h.nodup_commonNodes (h.nodup s hs) (h.commonNodes_subset hs)]
    refine ⟨fun hsub s' hs' n hn => h.commonNodes_subset hs' (hsub hn), fun hall n hn => ?_⟩
    exact (mem_commonNodes h.ne_nil).2 fun s' hs' => hall s' hs' hn
  refine ⟨fun heq s hs s' hs' n => ?_, fun hsame s hs => ?_⟩
  · exact ⟨fun hn => (hfull s hs).1 (heq s hs) s' hs' hn,
      fun hn => (hfull s' hs').1 (heq s' hs') s hs hn⟩
  · exact (hfull s hs).2 fun s' hs' n hn => (hsame s hs s' hs' n).1 hn

/-- `commonNodes` has all instructions just if every slice has. -/
theorem common_eq_instructions_iff :
    (commonNodes slices).length = instructions.length ↔
      ∀ s ∈ slices, ∀ n ∈ instructions, n ∈ s := by
  have hsub : commonNodes slices ⊆ instructions := by
    obtain ⟨s, hs⟩ := List.exists_mem_of_ne_nil _ h.ne_nil
    exact fun n hn => h.subset s hs (h.commonNodes_subset hs hn)
  -- what is shared lies among the instructions, so equal sizes mean that it is all of them
  rw [length_eq_iff_subset h.nodup_commonNodes h.distinct hsub]
  refine ⟨fun hback s hs n hn => h.commonNodes_subset hs (hback hn), fun hall n hn => ?_⟩
  exact (mem_commonNodes h.ne_nil).2 fun s hs => hall s hs n hn

end SlicesAmong

/-! ### Exact metrics -/

/-- The shared part of each slice, of which `overlap` is the average. -/
def Shared.parts (s : Shared) : List ℚ :=
  s.sizes.map fun size : ℕ => (s.common : ℚ) / (size : ℚ)

theorem Shared.Proper.overlap_eq_mean {s : Shared} (hs : s.Proper) :
    s.overlap = .ok (s.parts.sum / s.parts.length) := by
  -- a sum from the left, starting with zero
  rw [hs.overlap_eq, Nat.cast_zero, ← List.sum_eq_foldl, Shared.parts, List.length_map]

namespace SlicesAmong

variable {instructions : List Node} {slices : List (List Node)}
  (h : SlicesAmong instructions slices)
  (hproper : (Shared.ofSlices instructions.length slices).Proper)

theorem forall_mem_parts {instructions : ℕ} {P : ℚ → Prop} :
    (∀ x ∈ (Shared.ofSlices instructions slices).parts, P x) ↔
      ∀ s ∈ slices, P ((Shared.commonNodes slices).length / s.length) := by
  simp [Shared.parts, Shared.ofSlices]

include hproper

theorem length_pos {s : List Node} (hs : s ∈ slices) : (0 : ℚ) < s.length :=
  Nat.cast_pos.2 (Nat.pos_of_ne_zero (hproper.sizes _ (List.mem_map_of_mem hs)))

include h

/-- No more is shared of a slice than there is. -/
theorem part_le_one : ∀ x ∈ (Shared.ofSlices instructions.length slices).parts, x ≤ 1 := by
  rw [forall_mem_parts]
  intro s hs
  rw [div_le_one (length_pos hproper hs)]
  exact Nat.cast_le.2 (h.common_le hs)

/-- A slice is no larger than the whole, so what is shared is no smaller a part of it. -/
theorem whole_le_part : ∀ x ∈ (Shared.ofSlices instructions.length slices).parts,
    ((Shared.commonNodes slices).length : ℚ) / instructions.length ≤ x := by
  rw [forall_mem_parts]
  intro s hs
  apply div_le_div_of_nonneg_left (Nat.cast_nonneg _) (length_pos hproper hs)
  exact Nat.cast_le.2 (h.size_le hs)

/-- **`Metric.ofShared` is bounded**, in exact numbers. -/
theorem exists_metrics :
    ∃ t v : ℚ, Metric.tightness.ofShared (.ofSlices instructions.length slices) = .ok t ∧
      Metric.overlap.ofShared (.ofSlices instructions.length slices) = .ok v ∧
      0 ≤ t ∧ t ≤ v ∧ v ≤ 1 ∧
      (v = 1 ↔ ∀ s ∈ slices, ∀ s' ∈ slices, ∀ n, n ∈ s ↔ n ∈ s') ∧
      (t = 1 ↔ ∀ s ∈ slices, ∀ n ∈ instructions, n ∈ s) := by
  have hle := h.part_le_one hproper
  have hne : (Shared.ofSlices instructions.length slices).parts ≠ [] := by
    rw [Shared.parts, ne_eq, List.map_eq_nil_iff]
    exact hproper.sizes_ne_nil
  have htotal : (instructions.length : ℚ) ≠ 0 := Nat.cast_ne_zero.2 hproper.instructions
  refine ⟨(Shared.commonNodes slices).length / instructions.length, _, hproper.tightness_eq,
    hproper.overlap_eq_mean, ?_, le_mean hne (h.whole_le_part hproper), mean_le hne hle, ?_, ?_⟩
  · positivity
  · -- an average of one means that every slice is shared in full
    rw [mean_eq_iff hne hle, forall_mem_parts, ← h.common_eq_size_iff]
    refine forall₂_congr fun s hs => ?_
    rw [div_eq_one_iff_eq (length_pos hproper hs).ne', Nat.cast_inj]
  · rw [div_eq_one_iff_eq htotal, Nat.cast_inj]
    exact h.common_eq_instructions_iff

end SlicesAmong

/-! ### Outputs -/

/-- The node `n` is in the slice of the output `o`: it is the output, or an instruction on which the
output depends, directly or through others. -/
def Graph.InOutputSlice (g : Graph Node) (o n : Node) : Prop :=
  n = o ∨ n.isMarker = false ∧ TransGen (fun a b => b ∈ g.successors a) n o

theorem Graph.mem_outputSlice {g : Graph Node} {o n : Node} :
    n ∈ g.outputSlice o ↔ g.InOutputSlice o n := by
  rw [outputSlice, Shared.mem_withOutput, mem_collect_predecessors, InOutputSlice]

namespace Subject.Complete

variable {s : Subject} {d g : Graph Node} (h : s.Complete d g)

include h

/-- The slices of the outputs lie among the instructions: an output is no marker, and whatever leads
to it is a node. -/
theorem slicesAmong (houtputs : d.outputs ≠ []) :
    SlicesAmong (g.nodes.filter fun n => !n.isMarker) (d.outputs.map g.outputSlice) := by
  refine ⟨g.nodup.filter _, ?_, ?_, ?_⟩
  · rw [ne_eq, List.map_eq_nil_iff]
    exact houtputs
  · intro slice hslice
    obtain ⟨o, -, rfl⟩ := List.mem_map.1 hslice
    exact Shared.nodup_withOutput (g.nodup_collect _)
  · intro slice hslice n hn
    obtain ⟨o, ho, rfl⟩ := List.mem_map.1 hslice
    rw [List.mem_filter, Bool.not_eq_true']
    -- the output itself is a place, and whatever leads to it is a node
    obtain rfl | ⟨hmarker, hway⟩ := Graph.mem_outputSlice.1 hn
    · obtain ⟨hmem, hmarker⟩ := FlowGraph.mem_places.1 (h.mem_places_of_mem_outputs ho)
      exact ⟨h.nodes ▸ hmem, hmarker⟩
    · exact ⟨Graph.mem_nodes_of_transGen hway, hmarker⟩

end Subject.Complete

/-- **The metrics from all outputs are well defined and bounded.** Take an analysis that gives the
combined graph. Without outputs both metrics are undefined, whatever the mode. With outputs, the
numbers to divide are found, and where the mode is that of all outputs, every query for a metric
answers with their quotients, so nothing is divided by zero. In exact numbers, tightness is not
negative, at most overlap, and overlap at most one. Overlap is one just if the slices of all outputs
are the same set, and tightness just if each of them has all instructions of the flow graph. -/
theorem Analysis.metrics_bounded {m : Method} {o : Options} {a : Analysis} {g : Graph Node}
    (ha : (Analysis.start m o).result = .ok a ∨ (Analysis.eager m o).result = .ok a)
    (hg : (Query.combined a).2.result = .ok g) :
    ∃ outputs, (Query.outputs a).2.result = .ok outputs ∧
      (outputs = [] → ∀ metric last, ∃ e,
        (Query.metric metric last a).2.result = .error e ∧ e.IsUndefinedMetric) ∧
      (outputs ≠ [] → ∃ shared, Shared.ofOutputs g outputs = .ok shared ∧
        (a.options.metricMode = .allOutputs → ∀ metric : Metric, ∃ x,
          metric.ofShared shared = .ok x ∧
            ∀ last, (Query.metric metric last a).2.result = .ok x) ∧
        ∃ t v : ℚ, Metric.tightness.ofShared shared = .ok t ∧
          Metric.overlap.ofShared shared = .ok v ∧ 0 ≤ t ∧ t ≤ v ∧ v ≤ 1 ∧
          (v = 1 ↔ ∀ p ∈ outputs, ∀ q ∈ outputs, ∀ n,
            g.InOutputSlice p n ↔ g.InOutputSlice q n) ∧
          (t = 1 ↔ ∀ p ∈ outputs, ∀ n ∈ a.flow.places, g.InOutputSlice p n)) := by
  obtain ⟨hfaithful, -, hbuild⟩ := Analysis.faithful_of_opened ha
  obtain ⟨d, hd⟩ := hfaithful.exists_complete (FlowGraph.bounded_of_build hbuild) hg
  refine ⟨d.outputs, (Query.outputs_yields hfaithful hd.data).result, ?_, ?_⟩
  · -- without outputs, `Metric.compute` stops before it divides
    intro hnone metric last
    rw [Query.result_metric hfaithful hd.data hd.combined]
    exact ⟨_, metric.compute_eq_error g hnone last _ _, rfl, rfl⟩
  · intro houtputs
    have hproper := hd.proper_ofOutputs houtputs
    refine ⟨_, hd.ofOutputs_eq_ok, ?_, ?_⟩
    · intro hmode metric
      obtain ⟨x, hx⟩ := metric.ofShared_eq_ok hproper
      refine ⟨x, hx, ?_⟩
      intro last
      rw [Query.result_metric hfaithful hd.data hd.combined, hmode]
      exact hd.compute_allOutputs houtputs hx last _
    · obtain ⟨t, v, ht, hv, hnonneg, hle, hone, hoverlap, htightness⟩ :=
        (hd.slicesAmong houtputs).exists_metrics hproper
      refine ⟨t, v, ht, hv, hnonneg, hle, hone, ?_, ?_⟩
      · rw [hoverlap]
        simp only [List.forall_mem_map, Graph.mem_outputSlice]
      · -- the instructions that are counted are the places of the flow graph
        rw [htightness]
        have hplaces : ∀ n, n ∈ g.nodes.filter (fun n => !n.isMarker) ↔ n ∈ a.flow.places := by
          intro n
          rw [List.mem_filter, Bool.not_eq_true', hd.nodes]
          exact FlowGraph.mem_places.symm
        simp only [List.forall_mem_map, Graph.mem_outputSlice, hplaces]

/-- Two definitions, one made from the other, and a use of each. -/
def Listing.parting : Listing where
  name := .text "parting"
  instructions := (List.range 4).map fun i => some { ident := i, text := "", shown := "" }
  transitions := [.tuple [.int 0, .int 1], .tuple [.int 1, .int 2], .tuple [.int 2, .int 3]]
  definitions := .ofList [(.int 0, base), (.int 1, made)]
  uses := .ofList [(.int 1, base), (.int 2, base), (.int 3, made)]
where
  base : ValueSet := ValueSet.empty.insert ⟨.text "base", rfl⟩
  made : ValueSet := ValueSet.empty.insert ⟨.text "made", rfl⟩

/-- The two slices share one of four instructions: they part after the first definition. -/
theorem Analysis.metrics_bounded_parting :
    ∃ a g outputs, (start Listing.parting.method { metricMode := .allOutputs }).result = .ok a ∧
      (Query.combined a).2.result = .ok g ∧ (Query.outputs a).2.result = .ok outputs ∧
      outputs ≠ [] ∧ Shared.ofOutputs g outputs = .ok ⟨1, [2, 3], 4⟩ ∧
      (∃ x, (Query.metric .overlap none a).2.result = .ok x) ∧
      ∃ t v : ℚ, Metric.tightness.ofShared ⟨1, [2, 3], 4⟩ = .ok t ∧
        Metric.overlap.ofShared ⟨1, [2, 3], 4⟩ = .ok v ∧ 0 ≤ t ∧ t ≤ v ∧ v ≤ 1 := by
  have heval : (do
      let a ← (start Listing.parting.method { metricMode := .allOutputs }).result
      let g ← (Query.combined a).2.result
      let outputs ← (Query.outputs a).2.result
      return (a.options.metricMode, outputs.isEmpty, (Shared.ofOutputs g outputs).toOption) :
      Except Error _) = .ok (.allOutputs, false, some ⟨1, [2, 3], 4⟩) := by
    cbv
  obtain ⟨a, hstart, heval⟩ := bind_eq_ok.1 heval
  obtain ⟨g, hcombined, heval⟩ := bind_eq_ok.1 heval
  obtain ⟨outputs, houtputs, heval⟩ := bind_eq_ok.1 heval
  have hvalues := Except.ok.inj heval
  simp only [Prod.mk.injEq, List.isEmpty_eq_false_iff] at hvalues
  obtain ⟨hmode, hne, hshared⟩ := hvalues
  obtain ⟨outputs', houtputs', -, hmetrics⟩ := metrics_bounded (.inl hstart) hcombined
  obtain rfl : outputs = outputs' := Except.ok.inj (houtputs.symm.trans houtputs')
  obtain ⟨shared, hfound, hvalue, t, v, ht, hv, hnonneg, hle, hone, -, -⟩ := hmetrics hne
  obtain rfl : shared = ⟨1, [2, 3], 4⟩ := by
    rw [hfound] at hshared
    exact Option.some.inj hshared
  obtain ⟨x, -, hx⟩ := hvalue hmode .overlap
  exact ⟨a, g, outputs, hstart, hcombined, houtputs, hne, hfound, ⟨x, hx none⟩, t, v, ht, hv,
    hnonneg, hle, hone⟩

end Dependence
