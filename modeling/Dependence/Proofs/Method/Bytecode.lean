import Dependence.Method.Bytecode
import Dependence.Proofs.Data
import Dependence.Proofs.Flow.Shape

/-!
# Data dependence between the operations of bytecode

Bytecode is read in terms of positions: control steps from one to another (`Bytecode.Step`), the
operation at a position names variables that it defines or uses (`Bytecode.Names`), and a definition
supplies a use if control can bring it there with no other definition in between
(`Bytecode.Supplies`).

Following control finds the steps out of all positions that can be reached, and no others, or fails
at one of these positions (`Bytecode.explore_spec`, `Bytecode.reachable_spec`). No two instructions
of bytecode are the same, so the flow graph has an outline, and its nodes are the positions that can
be reached. What the flow graph says about nodes is then what the bytecode says about positions:

* `Bytecode.exists_relates_iff` — the data dependence graph relates two positions exactly if the one
  supplies the other.
-/

namespace Dependence

open Relation

/-- A node with an instruction stands at a position: the markers have none. -/
theorem Node.exists_position {n : Node} (h : n.instruction? ≠ none) :
    ∃ i, n.point = .position i := by
  unfold instruction? at h
  unfold point
  cases hcontent : n.content with
  | entry => exact absurd (by rw [hcontent]) h
  | exit => exact absurd (by rw [hcontent]) h
  | place i p => exact ⟨_, rfl⟩

/-! ### The names in an operation -/

/-- `ofList` makes the set of the values `vs`, all of which may be elements. -/
theorem ValueSet.ofList_spec {vs : List Value} (h : ∀ x ∈ vs, x.unhashable? = none) :
    ∃ s, ofList vs = .ok s ∧ ∀ v, s.contains v = true ↔ ∃ x ∈ vs, (x == v) = true := by
  -- from any set `s` on, the values are added to what it has
  suffices hfold : ∀ s : ValueSet, ∃ s',
      vs.foldlM (fun (s : ValueSet) v => return s.insert (← v.element)) s = .ok s' ∧
        ∀ v, s'.contains v = true ↔ s.contains v = true ∨ ∃ x ∈ vs, (x == v) = true by
    obtain ⟨s, hs, hiff⟩ := hfold empty
    refine ⟨s, hs, fun v => ?_⟩
    rw [hiff, contains_empty, Bool.false_eq_true, false_or]
  induction vs with
  | nil => exact fun s => ⟨s, rfl, by simp⟩
  | cons x vs ih =>
    intro s
    obtain ⟨hx, hrest⟩ := List.forall_mem_cons.1 h
    have helement : x.element = .ok ⟨x, hx⟩ := by
      unfold Value.element
      split
      · rename_i hsome
        rw [hx] at hsome
        cases hsome
      · rfl
    obtain ⟨s', hs', hiff⟩ := ih hrest (s.insert ⟨x, hx⟩)
    refine ⟨s', ?_, fun v => ?_⟩
    · rw [List.foldlM_cons, helement]
      exact hs'
    · rw [hiff, contains_insert, Bool.or_eq_true, or_assoc]
      simp only [List.mem_cons, exists_eq_or_imp]

namespace Operation

/-- The operations on one variable: `definers` or `users`, by `role`. -/
def single (role : Bool) : List String := if role then definers else users

/-- The operation is one on two variables. -/
def isPair (o : Operation) : Bool := (paired.lookup o.name).isSome

/-- The names that `o` carries as definitions (`role` is `true`) or as uses. -/
def names (o : Operation) (role : Bool) : List Value :=
  if (single role).contains o.name then [o.argument]
  else
    match paired.lookup o.name with
    | some roles =>
      (((o.argument.parts?.getD []).zip roles).filter fun x => x.2 == role).map (·.1)
    | none => []

/-- **`inRole`** gives the set of the names that `o` carries in a role. -/
theorem inRole_spec {o : Operation} {role : Bool}
    (hpair : o.isPair = true → ∃ x y, o.argument.parts? = some [x, y])
    (hhashable : ∀ x ∈ o.names role, x.unhashable? = none) :
    ∃ s, o.inRole (single role) role = .ok s ∧
      ∀ v, s.contains v = true ↔ ∃ x ∈ o.names role, (x == v) = true := by
  suffices hnames : o.inRole (single role) role = ValueSet.ofList (o.names role) by
    rw [hnames]
    exact ValueSet.ofList_spec hhashable
  unfold inRole names
  split
  · rfl
  · -- no operation on one variable: its argument is a pair, or names nothing
    cases hroles : paired.lookup o.name with
    | none => rfl
    | some roles =>
      obtain ⟨x, y, hparts⟩ := hpair (by rw [isPair, hroles]; rfl)
      simp only [half, Value.parts, hparts, Option.getD_some, ok_bind]

end Operation

namespace Bytecode

variable {b : Bytecode}

/-! ### Control -/

/-- Control can pass from `i` to `j`: `j` is among the `successors` of `i`. -/
def Step (b : Bytecode) (i j : ℕ) : Prop := ∃ next, b.successors i = .ok next ∧ j ∈ next

/-- Control can come to a position, along `Step` from the first one. -/
def Reached (b : Bytecode) : ℕ → Prop := ReflTransGen b.Step 0

/-- The operation at `i` names `v` in a role. -/
def Names (b : Bytecode) (role : Bool) (i : ℕ) (v : Value) : Prop :=
  ∃ o, b.operations[i]? = some o ∧ ∃ x ∈ o.names role, (x == v) = true

/-- The operation at `i` defines `v`. -/
abbrev Defines (b : Bytecode) (i : ℕ) (v : Value) : Prop := b.Names true i v

/-- The operation at `i` uses `v`. -/
abbrev Uses (b : Bytecode) (i : ℕ) (v : Value) : Prop := b.Names false i v

theorem names_iff_exists {role : Bool} {i : ℕ} {o : Operation} (ho : b.operations[i]? = some o)
    (v : Value) : b.Names role i v ↔ ∃ x ∈ o.names role, (x == v) = true := by
  simp [Names, ho]

/-- Control can pass from one position to another, and no position that it comes to on the way, the
last one included, defines `v`. -/
def Keeps (b : Bytecode) (v : Value) : ℕ → ℕ → Prop :=
  ReflTransGen fun i j => b.Step i j ∧ ¬ b.Defines j v

/-- **`i` supplies `j` with `v`**: control comes to `i`, which defines `v`, and brings it to `j`,
which uses it. -/
def Supplies (b : Bytecode) (i j : ℕ) (v : Value) : Prop :=
  b.Reached i ∧ b.Defines i v ∧ b.Uses j v ∧ ∃ k, b.Keeps v i k ∧ b.Step k j

/-- **Bytecode in order.** The names that control comes to can be elements of a set; an operation on
two variables carries two names and does not jump; and every jump that control comes to has a
target. -/
structure Proper (b : Bytecode) : Prop where
  hashable : ∀ i, b.Reached i → ∀ o, b.operations[i]? = some o →
    ∀ role, ∀ x ∈ o.names role, x.unhashable? = none
  pairs : ∀ o ∈ b.operations, o.isPair = true →
    o.jumps b.jumpCodes = false ∧ ∃ x y, o.argument.parts? = some [x, y]
  resolves : ∀ i, b.Reached i → ∃ next, b.successors i = .ok next

/-- `positionAt?` finds positions of operations. -/
theorem positionAt?_lt {v : Value} {p : ℕ} (h : b.positionAt? v = some p) :
    p < b.operations.length := by
  obtain ⟨o, ho, rfl⟩ := List.mem_map.1 (List.mem_of_getLast? h)
  obtain ⟨-, hlt, -⟩ := List.mem_zipIdx (List.mem_filter.1 ho).1
  omega

/-- `positionAt?`, with one more operation at the end. -/
theorem positionAt?_snoc (b : Bytecode) (l : List Operation) (o : Operation) (v : Value) :
    ({ b with operations := l ++ [o] } : Bytecode).positionAt? v =
      if Value.int o.offset == v then some l.length
      else ({ b with operations := l } : Bytecode).positionAt? v := by
  simp only [positionAt?, List.zipIdx_append, List.filter_append, List.map_append,
    List.getLast?_append, Nat.zero_add, List.zipIdx_cons, List.zipIdx_nil, List.filter_cons,
    List.filter_nil]
  split <;> simp

/-- `jumpTarget` finds what `positionAt?` finds, for an argument that can be looked up. -/
theorem jumpTarget_eq_ok {o : Operation} {p : ℕ} :
    b.jumpTarget o = .ok p ↔ o.argument.unhashable? = none ∧ b.positionAt? o.argument = some p := by
  unfold jumpTarget Value.hashed
  cases o.argument.unhashable? with
  | some k => exact ⟨nofun, nofun⟩
  | none =>
    rw [ok_bind]
    cases b.positionAt? o.argument <;> simp

/-- The position after `i`, if `o` at `i` falls through to it. -/
def following (b : Bytecode) (o : Operation) (i : ℕ) : List ℕ :=
  if o.fallsThrough && i + 1 < b.operations.length then [i + 1] else []

theorem mem_following {o : Operation} {i j : ℕ} :
    j ∈ b.following o i ↔ o.fallsThrough = true ∧ j = i + 1 ∧ j < b.operations.length := by
  unfold following
  split
  · rename_i h
    simp only [Bool.and_eq_true, decide_eq_true_iff] at h
    rw [List.mem_singleton]
    constructor
    · rintro rfl
      exact ⟨h.1, rfl, h.2⟩
    · exact fun hj => hj.2.1
  · rename_i h
    simp only [Bool.and_eq_true, decide_eq_true_iff, not_and] at h
    refine iff_of_false List.not_mem_nil ?_
    rintro ⟨hfalls, rfl, hlt⟩
    exact h hfalls hlt

/-- Behind the operations there is nowhere to go. -/
theorem successors_of_none {i : ℕ} (ho : b.operations[i]? = none) : b.successors i = .ok [] := by
  rw [successors, ho]

/-- An operation that does not jump goes on to `following`. -/
theorem successors_of_not_jumps {i : ℕ} {o : Operation} (ho : b.operations[i]? = some o)
    (hjumps : o.jumps b.jumpCodes = false) : b.successors i = .ok (b.following o i) := by
  simp only [successors, ho, hjumps, Bool.false_eq_true, if_false, ok_bind, List.append_nil]
  rfl

/-- An operation that jumps goes on to `following`, and then to its target. -/
theorem successors_of_jumps {i : ℕ} {o : Operation} (ho : b.operations[i]? = some o)
    (hjumps : o.jumps b.jumpCodes = true) :
    b.successors i = (b.jumpTarget o).map fun p => b.following o i ++ [p] := by
  simp only [successors, ho, hjumps, if_true]
  cases b.jumpTarget o <;> rfl

/-- `Step` from an operation that does not jump. -/
theorem step_of_not_jumps {i j : ℕ} {o : Operation} (ho : b.operations[i]? = some o)
    (hjumps : o.jumps b.jumpCodes = false) : b.Step i j ↔ j ∈ b.following o i := by
  simp [Step, successors_of_not_jumps ho hjumps]

/-- `Step` from an operation that jumps. -/
theorem step_of_jumps {i j : ℕ} {o : Operation} (ho : b.operations[i]? = some o)
    (hjumps : o.jumps b.jumpCodes = true) :
    b.Step i j ↔ ∃ p, b.jumpTarget o = .ok p ∧ (j ∈ b.following o i ∨ j = p) := by
  rw [Step, successors_of_jumps ho hjumps]
  cases b.jumpTarget o <;> simp [Except.map]

/-- `Step` stays within the operations. -/
theorem Step.lt {i j : ℕ} (h : b.Step i j) : i < b.operations.length ∧ j < b.operations.length := by
  cases ho : b.operations[i]? with
  | none =>
    obtain ⟨next, hnext, hj⟩ := h
    cases (successors_of_none ho).symm.trans hnext
    cases hj
  | some o =>
    refine ⟨(List.getElem?_eq_some_iff.1 ho).1, ?_⟩
    cases hjumps : o.jumps b.jumpCodes with
    | false => exact (mem_following.1 ((step_of_not_jumps ho hjumps).1 h)).2.2
    | true =>
      obtain ⟨p, hp, hj | rfl⟩ := (step_of_jumps ho hjumps).1 h
      · exact (mem_following.1 hj).2.2
      · exact positionAt?_lt (jumpTarget_eq_ok.1 hp).2

/-! ### Following control -/

namespace Frontier

/-- `find` moves a position from one list of a frontier to the other. -/
theorem perm_find (f : Frontier) (i : ℕ) :
    ((f.find i).1 ++ (f.find i).2).Perm (f.1 ++ f.2) := by
  unfold find
  split
  · rename_i hi
    have hmiddle : (f.1.erase i ++ i :: f.2).Perm (i :: (f.1.erase i ++ f.2)) := List.perm_middle
    have herase : (i :: f.1.erase i).Perm f.1 :=
      (List.perm_cons_erase (List.contains_iff_mem.1 hi)).symm
    exact hmiddle.trans (herase.append_right f.2)
  · exact .rfl

/-- Whatever is found, the two lists of a frontier have the same positions. -/
theorem perm_foldl_find (next : List ℕ) (f : Frontier) :
    ((next.foldl find f).1 ++ (next.foldl find f).2).Perm (f.1 ++ f.2) := by
  induction next generalizing f with
  | nil => exact .rfl
  | cons i next ih => exact (ih (f.find i)).trans (f.perm_find i)

/-- What is pending after `find` for all positions of `next`: those of them that were unseen join.
-/
theorem mem_foldl_find {next : List ℕ} {f : Frontier} {j : ℕ} :
    j ∈ (next.foldl find f).2 ↔ j ∈ f.2 ∨ j ∈ next ∧ j ∈ f.1 := by
  induction next generalizing f with
  | nil => simp
  | cons i next ih =>
    rw [List.foldl_cons, ih]
    unfold find
    split
    · -- `i` was unseen, and is pending now
      rename_i hi
      by_cases hji : j = i
      · subst hji
        simp [List.contains_iff_mem.1 hi]
      · simp [hji, List.mem_erase_of_ne hji]
    · -- a position that was found before, so that nothing is added
      rename_i hi
      have hne : j ∈ f.1 → j ≠ i := fun hj heq => hi (List.contains_iff_mem.2 (heq ▸ hj))
      rw [List.mem_cons]
      grind

end Frontier

/-- `successors` of `i`; nothing where it fails. -/
def next (b : Bytecode) (i : ℕ) : List ℕ := (b.successors i).toOption.getD []

/-- `next` has the positions that `Step` leads to. -/
theorem mem_next {i j : ℕ} : j ∈ b.next i ↔ b.Step i j := by
  unfold next Step
  cases b.successors i with
  | error c => simp [Except.toOption]
  | ok found => simp [Except.toOption]

theorem successors_eq_ok {i : ℕ} (h : ∃ next, b.successors i = .ok next) :
    b.successors i = .ok (b.next i) := by
  obtain ⟨found, hfound⟩ := h
  rw [next, hfound]
  rfl

/-- The transitions out of `positions`, one position after another. -/
def leaving (b : Bytecode) (positions : List ℕ) : List (ℕ × ℕ) :=
  positions.flatMap fun i => (b.next i).map (i, ·)

theorem mem_leaving {positions : List ℕ} {t : ℕ × ℕ} :
    t ∈ b.leaving positions ↔ t.1 ∈ positions ∧ b.Step t.1 t.2 := by
  rw [leaving, List.mem_flatMap]
  constructor
  · rintro ⟨i, hi, ht⟩
    obtain ⟨j, hj, rfl⟩ := List.mem_map.1 ht
    exact ⟨hi, mem_next.1 hj⟩
  · intro ht
    exact ⟨t.1, ht.1, List.mem_map.2 ⟨t.2, mem_next.2 ht.2, rfl⟩⟩

/-- **What is followed from a frontier**, given by the positions `unseen` and `pending`: all that is
pending, and with a position all that it leads to, as far as the frontier goes. -/
structure Followed (b : Bytecode) (unseen pending followed : List ℕ) : Prop where
  resolves : ∀ i ∈ followed, ∃ next, b.successors i = .ok next
  reached : ∀ i ∈ followed, ∃ s ∈ pending, ReflTransGen b.Step s i
  starts : pending ⊆ followed
  closed : ∀ i ∈ followed, ∀ j, b.Step i j → j ∈ unseen ++ pending → j ∈ followed
  within : followed ⊆ unseen ++ pending
  /-- No position is followed twice. -/
  once : (unseen ++ pending).Nodup → followed.Nodup

/-- What is reached from the frontier after `i` was followed is reached from the one before. -/
theorem reach_of_mem_find {unseen pending : List ℕ} {i s j : ℕ}
    (hs : s ∈ ((b.next i).foldl Frontier.find (unseen, pending)).2)
    (hreach : ReflTransGen b.Step s j) :
    ∃ s' ∈ i :: pending, ReflTransGen b.Step s' j := by
  rcases Frontier.mem_foldl_find.1 hs with hs | ⟨hs, -⟩
  · exact ⟨s, List.mem_cons_of_mem i hs, hreach⟩
  · exact ⟨i, List.mem_cons_self, hreach.head (mem_next.1 hs)⟩

/-- **One step of `explore`**: `i` is followed, and then what the frontier has become. -/
theorem Followed.cons {unseen pending followed : List ℕ} {i : ℕ}
    (hnext : ∃ next, b.successors i = .ok next)
    (h : b.Followed ((b.next i).foldl Frontier.find (unseen, pending)).1
      ((b.next i).foldl Frontier.find (unseen, pending)).2 followed) :
    b.Followed unseen (i :: pending) (i :: followed) := by
  have hperm := Frontier.perm_foldl_find (b.next i) (unseen, pending)
  have hmiddle : (unseen ++ i :: pending).Perm (i :: (unseen ++ pending)) := List.perm_middle
  -- the frontier afterwards has the positions of the one before, without `i`
  refine ⟨?_, ?_, ?_, ?_, ?_, ?_⟩
  · exact List.forall_mem_cons.2 ⟨hnext, h.resolves⟩
  · intro j hj
    rcases List.mem_cons.1 hj with rfl | hj
    · exact ⟨j, List.mem_cons_self, .refl⟩
    · obtain ⟨s, hs, hreach⟩ := h.reached j hj
      exact reach_of_mem_find hs hreach
  · exact List.cons_subset_cons i fun j hj => h.starts (Frontier.mem_foldl_find.2 (.inl hj))
  · intro a ha j hstep hj
    by_cases hji : j = i
    · exact hji ▸ List.mem_cons_self
    have hj' : j ∈ unseen ++ pending := by simpa [hji] using hj
    refine List.mem_cons_of_mem i ?_
    rcases List.mem_cons.1 ha with rfl | ha
    · -- from `i` itself: what it leads to is pending afterwards, if it was not already
      apply h.starts
      apply Frontier.mem_foldl_find.2
      rcases List.mem_append.1 hj' with hj' | hj'
      · exact .inr ⟨mem_next.2 hstep, hj'⟩
      · exact .inl hj'
    · exact h.closed a ha j hstep (hperm.mem_iff.2 hj')
  · intro j hj
    rw [hmiddle.mem_iff]
    rcases List.mem_cons.1 hj with rfl | hj
    · exact List.mem_cons_self
    · exact List.mem_cons_of_mem i (hperm.mem_iff.1 (h.within hj))
  · -- the position left the frontier, so it does not come up again
    intro hnodup
    obtain ⟨hi, hrest⟩ := List.nodup_cons.1 (hmiddle.nodup_iff.1 hnodup)
    refine List.nodup_cons.2 ⟨fun hmem => hi ?_, h.once (hperm.nodup_iff.2 hrest)⟩
    exact hperm.mem_iff.1 (h.within hmem)

/-- **`explore`** either follows a frontier to the end, or fails as `successors` does at some
position that control comes to. -/
theorem explore_spec (unseen pending : List ℕ) :
    Ensures (b.explore unseen pending)
      (fun r => ∃ followed, r.1 = b.leaving followed ∧ b.Followed unseen pending followed)
      fun c => ∃ s ∈ pending, ∃ i, ReflTransGen b.Step s i ∧ b.successors i = .error c := by
  -- along the recursion of `explore`, which ends when nothing is pending
  induction unseen, pending using explore.induct with
  | case1 unseen =>
    rw [explore]
    exact ⟨[], rfl, nofun, nofun, List.Subset.refl _, nofun, List.nil_subset _,
      fun _ => List.nodup_nil⟩
  | case2 unseen i pending ih =>
    rw [explore]
    cases hnext : b.successors i with
    | error c => exact ⟨i, List.mem_cons_self, i, .refl, hnext⟩
    | ok next =>
      obtain rfl : next = b.next i := by
        rw [Bytecode.next, hnext]
        rfl
      rw [ok_bind]
      refine Ensures.bind ((ih (b.next i)).imp (fun r hr => hr) ?_) ?_
      · rintro c ⟨s, hs, j, hreach, hc⟩
        obtain ⟨s', hs', hreach'⟩ := reach_of_mem_find hs hreach
        exact ⟨s', hs', j, hreach', hc⟩
      · rintro ⟨found, count⟩ ⟨followed, rfl, h⟩
        exact ⟨i :: followed, rfl, h.cons ⟨_, hnext⟩⟩

/-- **`reachable`** gives the transitions out of the positions that control can come to, each of
which is followed once; and where it fails, it is because of such a position. -/
theorem reachable_spec (b : Bytecode) :
    Ensures b.reachable
      (fun r => ∃ followed : List ℕ, followed.Nodup ∧ (∀ i, i ∈ followed ↔ b.Reached i) ∧
        (∀ i ∈ followed, ∃ next, b.successors i = .ok next) ∧
        r.1 = (b.leaving followed).mergeSort transitionLe)
      fun c => ∃ i, b.Reached i ∧ b.successors i = .error c := by
  unfold reachable
  refine Ensures.bind ((explore_spec _ _).imp (fun r hr => hr) ?_) ?_
  · rintro c ⟨s, hs, i, hreach, hc⟩
    obtain rfl := List.mem_singleton.1 hs
    exact ⟨i, hreach, hc⟩
  · rintro ⟨found, unseen⟩ ⟨followed, rfl, h⟩
    refine ⟨followed, h.once ?_, fun i => ⟨fun hi => ?_, fun hreach => ?_⟩, h.resolves, rfl⟩
    · -- at the start only the first position is pending, and it is not unseen
      refine List.nodup_append.2 ⟨List.nodup_range.erase 0, List.nodup_singleton 0, ?_⟩
      intro i hi j hj heq
      obtain rfl := List.mem_singleton.1 hj
      exact List.nodup_range.not_mem_erase (heq ▸ hi)
    · obtain ⟨s, hs, hreach⟩ := h.reached i hi
      obtain rfl := List.mem_singleton.1 hs
      exact hreach
    · -- along the way to the position: the first one is followed, and each one after it
      induction hreach with
      | refl => exact h.starts List.mem_cons_self
      | @tail j k _ hstep ih =>
        refine h.closed j ih k hstep ?_
        by_cases hk : k = 0
        · simp [hk]
        · exact List.mem_append_left _ ((List.mem_erase_of_ne hk).2 (List.mem_range.2 hstep.lt.2))

/-- `reachable` succeeds where `successors` does at every position that control comes to. -/
theorem mem_reachable (h : ∀ i, b.Reached i → ∃ next, b.successors i = .ok next) :
    ∃ found count, b.reachable = .ok (found, count) ∧
      ∀ t, t ∈ found ↔ b.Reached t.1 ∧ b.Step t.1 t.2 := by
  have hspec := b.reachable_spec
  cases hreachable : b.reachable with
  | error c =>
    rw [hreachable] at hspec
    obtain ⟨i, hi, hc⟩ := hspec
    obtain ⟨next, hnext⟩ := h i hi
    cases hc.symm.trans hnext
  | ok r =>
    rw [hreachable] at hspec
    obtain ⟨followed, -, hfollowed, -, hfound⟩ := hspec
    refine ⟨r.1, r.2, rfl, fun t => ?_⟩
    rw [hfound, List.mem_mergeSort, mem_leaving, hfollowed]

/-! ### Instructions -/

/-- The instruction at a position is made from the operation there. -/
theorem getElem?_instructions (b : Bytecode) (i : ℕ) :
    b.instructions[i]? = b.operations[i]?.map (·.instruction (b.firstIdent + i)) := by
  simp only [instructions, List.getElem?_map, List.getElem?_zipIdx, Option.map_map, Nat.zero_add]
  rfl

/-- No two instructions are the same: their `ident`s are in a row. -/
theorem nodup_instructions (b : Bytecode) : b.instructions.Nodup := by
  apply List.Nodup.of_map Instruction.ident
  have hidents : b.instructions.map Instruction.ident =
      (b.operations.zipIdx.map Prod.snd).map (b.firstIdent + ·) := by
    simp only [instructions, List.map_map]
    rfl
  rw [hidents, List.zipIdx_map_snd]
  exact (List.nodup_range').map fun i j hij => Nat.add_left_cancel hij

/-- `operationOf` finds the operation that an instruction was made from. -/
theorem operationOf_eq_ok {i : ℕ} {o : Operation} (ho : b.operations[i]? = some o) :
    operationOf b.name (b.instructions.zip b.operations)
      (some (o.instruction (b.firstIdent + i))) = .ok o := by
  have hinstruction : b.instructions[i]? = some (o.instruction (b.firstIdent + i)) := by
    rw [getElem?_instructions, ho, Option.map_some]
  have hmem : (o.instruction (b.firstIdent + i), o) ∈ b.instructions.zip b.operations :=
    List.mem_of_getElem? (List.getElem?_zip_eq_some.2 ⟨hinstruction, ho⟩)
  unfold operationOf
  cases hfind : (b.instructions.zip b.operations).find? fun x =>
      some x.1 == some (o.instruction (b.firstIdent + i)) with
  | none =>
    have hnone := List.find?_eq_none.1 hfind _ hmem
    exact absurd BEq.rfl hnone
  | some x =>
    -- what was found has the same instruction, so it stands at the same position
    have hbeq : (some x.1 == some (o.instruction (b.firstIdent + i))) = true := by
      simpa using List.find?_some hfind
    have hx : x.1 = o.instruction (b.firstIdent + i) := Option.some.inj (eq_of_beq hbeq)
    obtain ⟨j, hj⟩ := List.mem_iff_getElem?.1 (List.mem_of_find?_eq_some hfind)
    obtain ⟨hj₁, hj₂⟩ := List.getElem?_zip_eq_some.1 hj
    rw [hx] at hj₁
    have hij : i = j := (List.getElem?_inj (List.getElem?_eq_some_iff.1 hinstruction).1
      b.nodup_instructions).1 (hinstruction.trans hj₁.symm)
    subst hij
    rw [ho] at hj₂
    cases hj₂
    rfl

/-- What `b.method` answers when it is asked for the variables of an instruction in a role. -/
def ask (b : Bytecode) (role : Bool) (i : Option Instruction) : Except Error ValueSet :=
  liftM (operationOf b.name (b.instructions.zip b.operations) i >>=
    fun o => o.inRole (Operation.single role) role)

/-- `ask` gives the variables that the operation at a position names. -/
theorem ask_spec (h : b.Proper) (role : Bool) {i : ℕ} {o : Operation} (hi : b.Reached i)
    (ho : b.operations[i]? = some o) :
    ∃ s, b.ask role (some (o.instruction (b.firstIdent + i))) = .ok s ∧
      ∀ v, s.contains v = true ↔ b.Names role i v := by
  have hmem := List.mem_of_getElem? ho
  obtain ⟨s, hs, hiff⟩ := Operation.inRole_spec (fun hpair => (h.pairs o hmem hpair).2)
    (h.hashable i hi o ho role)
  refine ⟨s, by rw [ask, operationOf_eq_ok ho, ok_bind, hs]; rfl, fun v => ?_⟩
  rw [hiff, names_iff_exists ho]

/-! ### The flow graph -/

/-- The stream that `b.method` hands out. -/
def stream (b : Bytecode) : List (Option Instruction) := b.instructions.map some

theorem length_stream (b : Bytecode) : b.stream.length = b.operations.length := by
  simp [stream, instructions]

/-- **`discover` on bytecode** gives its stream, and the steps from where control can come to. -/
theorem exists_discover (h : ∀ i, b.Reached i → ∃ next, b.successors i = .ok next) :
    ∃ found : List (ℕ × ℕ), b.method.discover.result =
        .ok (b.stream, found.map fun t => (.int t.1, .int t.2)) ∧
      ∀ t, t ∈ found ↔ b.Reached t.1 ∧ b.Step t.1 t.2 := by
  -- transitions are written as pairs of whole numbers, and so can be read
  have hpairs : ∀ found : List (ℕ × ℕ), (found.map transitionValue).mapM
      (fun v => (liftM v.pair : Except Error (Value × Value))) =
        .ok (found.map fun t => (.int t.1, .int t.2)) := by
    intro found
    rw [List.mapM_map]
    exact List.mapM_pure
  by_cases hempty : b.operations = []
  · -- nothing is explored, and there is no step
    refine ⟨[], ?_, fun t => ?_⟩
    · simp only [Method.discover, method, transitions, hempty]
      rfl
    · refine iff_of_false List.not_mem_nil fun ht => ?_
      have hlt := ht.2.lt.1
      rw [hempty] at hlt
      cases hlt
  · obtain ⟨found, count, hreachable, hfound⟩ := mem_reachable h
    refine ⟨found, ?_, hfound⟩
    simp only [Method.discover, method, transitions, List.isEmpty_iff, hempty, hreachable,
      if_false, Transitions.pairs, Outcome.result_bind, Outcome.result_liftM, ok_bind, hpairs]
    rfl

/-- **The flow graph of bytecode**: it has the outline of the steps from where control can come
to. -/
structure FlowOutline (b : Bytecode) (found : List (ℕ × ℕ)) (f : FlowGraph) : Prop extends
    FlowGraph.Outline b.stream found f where
  mem_found : ∀ t, t ∈ found ↔ b.Reached t.1 ∧ b.Step t.1 t.2

/-- `build` succeeds on bytecode where `successors` does, and gives a `FlowOutline`. -/
theorem exists_flowOutline (h : ∀ i, b.Reached i → ∃ next, b.successors i = .ok next) (table : ℕ)
    (given : Value) :
    ∃ f found, (FlowGraph.build b.method table given).result = .ok f ∧ b.FlowOutline found f := by
  obtain ⟨found, hdiscover, hfound⟩ := exists_discover h
  have hrange : ∀ t ∈ found, t.1 < b.stream.length ∧ t.2 < b.stream.length := fun t ht => by
    rw [length_stream]
    exact ((hfound t).1 ht).2.lt
  have hends := FlowGraph.endpoints_int hrange
  obtain ⟨f, hbuild⟩ := FlowGraph.exists_build table given hdiscover hends
  have hdistinct : b.stream.Nodup := b.nodup_instructions.map (Option.some_injective _)
  have houtline := FlowGraph.outline_of_build hbuild hdiscover hends hdistinct
  exact ⟨f, found, hbuild, houtline, hfound⟩

namespace FlowOutline

variable {f : FlowGraph} {found : List (ℕ × ℕ)} (h : b.FlowOutline found f)

include h

/-- The positions that have a node are those that control can come to. -/
theorem mem_mentions {i : ℕ} :
    i ∈ FlowGraph.mentions b.stream found ↔ b.Reached i ∧ i < b.operations.length := by
  have hempty : b.stream = [] ↔ b.operations = [] := by
    rw [← List.length_eq_zero_iff, length_stream, List.length_eq_zero_iff]
  simp only [FlowGraph.mentions, FlowGraph.positionsOf, List.mem_append, List.mem_flatMap,
    List.isEmpty_iff, hempty]
  constructor
  · rintro (hi | ⟨t, ht, hi⟩)
    · split at hi
      · cases hi
      · rename_i hne
        obtain rfl := List.mem_singleton.1 hi
        exact ⟨.refl, List.length_pos_of_ne_nil hne⟩
    · obtain ⟨hreached, hstep⟩ := (h.mem_found t).1 ht
      rcases List.mem_cons.1 hi with rfl | hi
      · exact ⟨hreached, hstep.lt.1⟩
      · obtain rfl := List.mem_singleton.1 hi
        exact ⟨hreached.tail hstep, hstep.lt.2⟩
  · rintro ⟨hreached, hlt⟩
    cases hreached with
    | refl =>
      left
      rw [if_neg (List.ne_nil_of_length_pos hlt)]
      exact List.mem_singleton_self 0
    | @tail j _ hreached hstep =>
      -- the step by which control comes here was found
      exact .inr ⟨(j, i), (h.mem_found (j, i)).2 ⟨hreached, hstep⟩, by simp⟩

/-- Every position that control can come to has a node. -/
theorem exists_node {i : ℕ} (hreached : b.Reached i) (hlt : i < b.operations.length) :
    ∃ n ∈ f.nodes, n.point = .position i :=
  h.exists_point (h.mem_mentions.2 ⟨hreached, hlt⟩)

/-- A node at a position has the instruction there, and control can come to it. -/
theorem exists_instruction {n : Node} {i : ℕ} (hn : n ∈ f.nodes) (hi : n.point = .position i) :
    b.Reached i ∧ ∃ o, b.operations[i]? = some o ∧
      n.instruction? = some (o.instruction (b.firstIdent + i)) := by
  have hmentioned : i ∈ FlowGraph.mentions b.stream found := by
    obtain hpoint | hpoint | ⟨j, hj, hpoint⟩ := (h.mem_points n.point).1 (List.mem_map_of_mem hn)
    · cases hi.symm.trans hpoint
    · cases hi.symm.trans hpoint
    · cases hi.symm.trans hpoint
      exact hj
  obtain ⟨hreached, hlt⟩ := h.mem_mentions.1 hmentioned
  refine ⟨hreached, b.operations[i], List.getElem?_eq_getElem hlt, ?_⟩
  rw [Node.instruction?, h.content n hn i hi]
  simp only [FlowGraph.instructionAt, stream, List.getElem?_map, getElem?_instructions,
    List.getElem?_eq_getElem hlt, Option.map_some, Option.getD_some]

/-- `Flows` between nodes is `Step` between their positions. -/
theorem flows_iff {a c : Node} {i j : ℕ} (ha : a ∈ f.nodes) (hc : c ∈ f.nodes)
    (hi : a.point = .position i) (hj : c.point = .position j) : f.Flows a c ↔ b.Step i j := by
  rw [FlowGraph.Flows, h.mem_successors_iff ha hc, hi, hj]
  show 0 < found.count (i, j) ↔ b.Step i j
  rw [List.count_pos_iff, h.mem_found]
  exact and_iff_right (h.exists_instruction ha hi).1

/-! ### Definitions and uses -/

/-- A node names the variables that the operation at its position names. -/
theorem names_iff (hb : b.Proper) (role : Bool) {n : Node} {i : ℕ} (hn : n ∈ f.nodes)
    (hi : n.point = .position i) (v : Value) : n.Names (b.ask role) v ↔ b.Names role i v := by
  obtain ⟨hreached, o, ho, hinstruction⟩ := h.exists_instruction hn hi
  obtain ⟨s, hs, hiff⟩ := ask_spec hb role hreached ho
  rw [← hiff, Node.Names, hinstruction]
  constructor
  · rintro ⟨_, s', heq, hs', hv⟩
    cases heq
    cases hs.symm.trans hs'
    exact hv
  · exact fun hv => ⟨_, s, rfl, hs, hv⟩

/-- No look-up fails on the flow graph of proper bytecode. -/
theorem answers (hb : b.Proper) : b.method.toDefUse.Answers f := by
  intro n hn instruction hinstruction
  obtain ⟨i, hi⟩ := n.exists_position (by rw [hinstruction]; nofun)
  obtain ⟨hreached, o, ho, heq⟩ := h.exists_instruction hn hi
  cases hinstruction.symm.trans heq
  obtain ⟨s, hs, -⟩ := ask_spec hb true hreached ho
  obtain ⟨s', hs', -⟩ := ask_spec hb false hreached ho
  exact ⟨⟨s, hs⟩, s', hs'⟩

/-- A variable passes a node just if the operation there does not define it. -/
theorem passes_iff (hb : b.Proper) {n : Node} {i : ℕ} (hn : n ∈ f.nodes)
    (hi : n.point = .position i) (v : Value) :
    FlowGraph.Passes b.method.toDefUse v n ↔ ¬ b.Defines i v := by
  obtain ⟨-, o, -, hinstruction⟩ := h.exists_instruction hn hi
  rw [FlowGraph.Passes, hinstruction]
  exact (and_iff_right (Option.some_ne_none _)).trans (not_congr (h.names_iff hb true hn hi v))

/-- A way `upstream` is control that keeps the variable, walked backward. -/
theorem keeps_of_upstream (hb : b.Proper) {v : Value} {d q : Node} {i : ℕ} (hd : d ∈ f.nodes)
    (hi : d.point = .position i)
    (hway : ReflTransGen (fun a c => c ∈ f.upstream (FlowGraph.Passes b.method.toDefUse v) a) q d) :
    q ∈ f.nodes ∧ ∃ k, q.point = .position k ∧ b.Keeps v i k := by
  induction hway using ReflTransGen.head_induction_on with
  | refl => exact ⟨hd, i, hi, .refl⟩
  | @head q q' hstep _ ih =>
    -- the search went from `q` back to `q'`, so control goes from `q'` on to `q`
    obtain ⟨hq', k', hk', hkeeps⟩ := ih
    obtain ⟨hpass, hflow⟩ := FlowGraph.mem_upstream.1 hstep
    have hq := (Graph.mem_nodes_of_mem_successors hflow).2
    obtain ⟨k, hk⟩ := q.exists_position hpass.1
    exact ⟨hq, k, hk, hkeeps.tail
      ⟨(h.flows_iff hq' hq hk' hk).1 hflow, (h.passes_iff hb hq hk v).1 hpass⟩⟩

/-- Control that keeps the variable is a way `upstream`, walked backward. -/
theorem upstream_of_keeps (hb : b.Proper) {v : Value} {d : Node} {i k : ℕ} (hd : d ∈ f.nodes)
    (hi : d.point = .position i) (hkeeps : b.Keeps v i k) :
    ∃ q ∈ f.nodes, q.point = .position k ∧
      ReflTransGen (fun a c => c ∈ f.upstream (FlowGraph.Passes b.method.toDefUse v) a) q d := by
  induction hkeeps with
  | refl => exact ⟨d, hd, hi, .refl⟩
  | @tail k k' _ hstep ih =>
    obtain ⟨q, hq, hk, hway⟩ := ih
    -- control comes to the next position too, so it has a node
    have hreached := (h.exists_instruction hq hk).1
    obtain ⟨q', hq', hk'⟩ := h.exists_node (hreached.tail hstep.1) hstep.1.lt.2
    have hup : q ∈ f.upstream (FlowGraph.Passes b.method.toDefUse v) q' := FlowGraph.mem_upstream.2
      ⟨(h.passes_iff hb hq' hk' v).2 hstep.2, (h.flows_iff hq hq' hk hk').2 hstep.1⟩
    exact ⟨q', hq', hk', .head hup hway⟩

/-- **`Supplies` between nodes** is `Supplies` between their positions. -/
theorem supplies_iff (hb : b.Proper) {d n : Node} {i j : ℕ} (hd : d ∈ f.nodes) (hn : n ∈ f.nodes)
    (hi : d.point = .position i) (hj : n.point = .position j) (v : Value) :
    f.Supplies b.method.toDefUse d n v ↔ b.Supplies i j v := by
  -- the last step is not part of `Keeps`, since `n` itself may define the variable
  have hcarries : f.Carries b.method.toDefUse v d n ↔ ∃ k, b.Keeps v i k ∧ b.Step k j := by
    rw [FlowGraph.Carries, ← FlowGraph.exists_upstream_iff]
    constructor
    · rintro ⟨q, hq, hway⟩
      obtain ⟨hqmem, k, hk, hkeeps⟩ := h.keeps_of_upstream hb hd hi hway
      exact ⟨k, hkeeps, (h.flows_iff hqmem hn hk hj).1 (Graph.mem_predecessors_iff.1 hq)⟩
    · rintro ⟨k, hkeeps, hstep⟩
      obtain ⟨q, hq, hk, hway⟩ := h.upstream_of_keeps hb hd hi hkeeps
      exact ⟨q, Graph.mem_predecessors_iff.2 ((h.flows_iff hq hn hk hj).2 hstep), hway⟩
  rw [Bytecode.Supplies, and_iff_right (h.exists_instruction hd hi).1]
  exact and_congr (h.names_iff hb true hd hi v) (and_congr (h.names_iff hb false hn hj v) hcarries)

end FlowOutline

/-! ### The data dependence graph -/

/-- `Supplies` is between positions that control can come to. -/
theorem Supplies.reached {i j : ℕ} {v : Value} (h : b.Supplies i j v) :
    (b.Reached i ∧ i < b.operations.length) ∧ b.Reached j ∧ j < b.operations.length := by
  obtain ⟨hi, ⟨o, ho, -⟩, -, k, hkeeps, hstep⟩ := h
  have hway : ReflTransGen b.Step i k := ReflTransGen.mono (fun _ _ hstep => hstep.1) _ _ hkeeps
  have hk : b.Reached k := hi.trans hway
  exact ⟨⟨hi, (List.getElem?_eq_some_iff.1 ho).1⟩, hk.tail hstep, hstep.lt.2⟩

end Bytecode

/-- `g` relates `i` and `j`: it has an edge from the one to the other. -/
def Graph.Links (g : Graph Node) (i j : ℕ) : Prop :=
  ∃ e ∈ g.edges, e.points = (.position i, .position j)

/-- `g` relates `i` and `j` with `v`: an edge from the one to the other has `v` in its label. -/
def Graph.Relates (g : Graph Node) (i j : ℕ) (v : Value) : Prop :=
  ∃ e ∈ g.edges, e.points = (.position i, .position j) ∧
    ∃ vars, e.attributes.find? "variables" = some (.names vars) ∧ vars.contains v = true

namespace Bytecode

variable {b : Bytecode}

/-- **Data dependence between the operations of bytecode.** The graph can be made, and it relates
two positions exactly if they are different and the one supplies the other. -/
theorem exists_relates_iff (hb : b.Proper) (table : ℕ) (given : Value) :
    ∃ f g, (FlowGraph.build b.method table given).result = .ok f ∧
      (f.dataDependence b.method.toDefUse).result = .ok g ∧
      (∀ i j, g.Links i j ↔ i ≠ j ∧ ∃ v, b.Supplies i j v) ∧
      ∀ i j v, g.Relates i j v ↔ i ≠ j ∧ b.Supplies i j v := by
  obtain ⟨f, found, hbuild, h⟩ := exists_flowOutline hb.resolves table given
  obtain ⟨g, hg, hnodes, -, hedges, hlabels⟩ := FlowGraph.dataDependence_spec (h.answers hb)
  have hmem : ∀ e ∈ g.edges, e.source ∈ f.nodes ∧ e.target ∈ f.nodes := fun e he => by
    rw [← hnodes]
    exact g.ends e he
  -- nodes are known by their positions, so different nodes have different ones
  have hne : ∀ e ∈ g.edges, ∀ i j, e.points = (.position i, .position j) → i ≠ j := by
    rintro e he i _ hpoints rfl
    obtain ⟨hi, hj⟩ := Prod.mk.inj hpoints
    have hsuccessor := (hedges e.source e.target).1 (Graph.mem_successors.2 ⟨e, he, rfl, rfl⟩)
    exact hsuccessor.1 (h.point_inj (hmem e he).1 (hmem e he).2 (hi.trans hj.symm))
  have hsupplies : ∀ e ∈ g.edges, ∀ i j, e.points = (.position i, .position j) → ∀ v,
      f.Supplies b.method.toDefUse e.source e.target v ↔ b.Supplies i j v := by
    intro e he i j hpoints v
    obtain ⟨hi, hj⟩ := Prod.mk.inj hpoints
    exact h.supplies_iff hb (hmem e he).1 (hmem e he).2 hi hj v
  -- where a position supplies another, both have nodes, and the graph joins these
  have hexists : ∀ i j v, i ≠ j → b.Supplies i j v →
      ∃ e ∈ g.edges, e.points = (.position i, .position j) := by
    intro i j v hij hsup
    obtain ⟨⟨hi, hilt⟩, hj, hjlt⟩ := hsup.reached
    obtain ⟨d, hd, hdi⟩ := h.exists_node hi hilt
    obtain ⟨n, hn, hnj⟩ := h.exists_node hj hjlt
    have hdn : d ≠ n := by
      rintro rfl
      exact hij (ProgramPoint.position.inj (hdi.symm.trans hnj))
    obtain ⟨e, he, rfl, rfl⟩ := Graph.mem_successors.1
      ((hedges d n).2 ⟨hdn, v, (h.supplies_iff hb hd hn hdi hnj v).2 hsup⟩)
    exact ⟨e, he, Prod.ext hdi hnj⟩
  refine ⟨f, g, hbuild, hg, fun i j => ⟨?_, ?_⟩, fun i j v => ⟨?_, ?_⟩⟩
  · rintro ⟨e, he, hpoints⟩
    obtain ⟨-, v, hsup⟩ := (hedges e.source e.target).1 (Graph.mem_successors.2 ⟨e, he, rfl, rfl⟩)
    exact ⟨hne e he i j hpoints, v, (hsupplies e he i j hpoints v).1 hsup⟩
  · rintro ⟨hij, v, hsup⟩
    exact hexists i j v hij hsup
  · rintro ⟨e, he, hpoints, vars, hvars, hv⟩
    obtain ⟨vars', hattributes, hiff⟩ := hlabels e he
    rw [hattributes] at hvars
    cases hvars
    exact ⟨hne e he i j hpoints, (hsupplies e he i j hpoints v).1 ((hiff v).1 hv)⟩
  · rintro ⟨hij, hsup⟩
    obtain ⟨e, he, hpoints⟩ := hexists i j v hij hsup
    obtain ⟨vars, hattributes, hiff⟩ := hlabels e he
    refine ⟨e, he, hpoints, vars, by rw [hattributes]; rfl, ?_⟩
    exact (hiff v).2 ((hsupplies e he i j hpoints v).2 hsup)

end Bytecode

end Dependence
