import Dependence.Proofs.Method.Bytecode

/-!
# Operations on two variables and their halves

An operation on two variables stands for two operations on one variable each, one after the other.
`Bytecode.expand` replaces every such operation by its halves: the first one keeps the offset, and
the second one gets an offset that no jump leads to (`Bytecode.Untargeted`). This module compares
the data dependence of bytecode with that of its expansion.

The halves of the operation at position `i` stand at `Bytecode.first` and `Bytecode.last`, which are
the same for an operation on one variable. Control passes from the last half of `i` to the first
half of `j` where it passes from `i` to `j`, and otherwise only from one half to the other
(`Bytecode.step_last_iff`, `Bytecode.step_first_iff`). So a variable is carried between halves
as it is between operations (`Bytecode.Keeps.expand`). Backward, a variable that has come to a half
has come through the operations before it, and perhaps to the first half of one only
(`Bytecode.Holds.run`).

The order of the two halves is what an operation does not tell: it gives the set of names that it
defines and the set of those that it uses. The order matters to one kind of operation only, the one
that stores a variable and loads the same variable: its load is supplied by its own store and by
nothing else (`Bytecode.FeedsItself`), but as one operation it has the variable supplied from
elsewhere.

* `Bytecode.supplies_expand_iff` — a position supplies another, which does not feed itself, exactly
  if some half of the one supplies some half of the other;
* `Bytecode.relates_expand` — and so the data dependence graphs relate the same positions with the
  same variables, those that feed themselves apart.
-/

namespace Dependence

open Relation

namespace Operation

/-! ### Halves -/

/-- An operation on the one variable `name`, which it defines or uses as `role` says, given the
number that it has in either role. -/
def part (code : Bool → ℤ) (role : Bool) (name : Value) (offset : ℤ) : Operation :=
  { name := if role then "STORE_FAST" else "LOAD_FAST", code := code role, argument := name,
    offset }

/-- **The halves of an operation.** An operation on two variables with two names has a half for each
of them, the second at an offset of its own; any other operation is left as it is. -/
def halves (o : Operation) (code : Bool → ℤ) (offset : ℤ) : List Operation :=
  match paired.lookup o.name, o.argument.parts? with
  | some [r₁, r₂], some [x, y] => [part code r₁ x o.offset, part code r₂ y offset]
  | _, _ => [o]

/-- **The operation `o`, its first half and its last half.** -/
inductive Split (code : Bool → ℤ) (o : Operation) : Operation → Operation → Prop
  | whole (hpair : o.isPair = false) : Split code o o o
  | pair {r₁ r₂ : Bool} {x y : Value} (hroles : paired.lookup o.name = some [r₁, r₂])
      (hparts : o.argument.parts? = some [x, y]) (offset : ℤ) :
      Split code o (part code r₁ x o.offset) (part code r₂ y offset)

/-- What the operations of `paired` have in common. -/
theorem of_mem_paired {name : String} {roles : List Bool} (h : paired.lookup name = some roles) :
    (name ∉ definers ∧ name ∉ users) ∧ (name ∉ unconditionalJumps ∧ name ∉ frameExits) ∧
      ∃ r₁ r₂, roles = [r₁, r₂] := by
  -- seen from the table, entry by entry
  have hall : ∀ e ∈ paired, (e.1 ∉ definers ∧ e.1 ∉ users) ∧
      (e.1 ∉ unconditionalJumps ∧ e.1 ∉ frameExits) ∧ ∃ r₁ r₂, e.2 = [r₁, r₂] := by
    decide
  obtain ⟨l₁, l₂, heq, -⟩ := List.lookup_eq_some_iff.1 h
  exact hall (name, roles) (by rw [heq]; simp)

/-- Of the operations of `paired` one defines the first variable and uses the second. -/
theorem lookup_paired_iff {name : String} :
    paired.lookup name = some [true, false] ↔ name = "STORE_FAST_LOAD_FAST" := by
  constructor
  · intro h
    have hall : ∀ e ∈ paired, e.2 = [true, false] → e.1 = "STORE_FAST_LOAD_FAST" := by decide
    obtain ⟨l₁, l₂, heq, -⟩ := List.lookup_eq_some_iff.1 h
    exact hall (name, [true, false]) (by rw [heq]; simp) rfl
  · rintro rfl
    decide

section Part

variable (code : Bool → ℤ) (r : Bool) (x : Value) (offset : ℤ)

theorem names_part (role : Bool) :
    (part code r x offset).names role = if r = role then [x] else [] := by
  cases r <;> cases role <;> rfl

theorem fallsThrough_part : (part code r x offset).fallsThrough = true := by
  cases r <;> rfl

theorem isPair_part : (part code r x offset).isPair = false := by
  cases r <;> rfl

theorem jumps_part {jumpCodes : List ℤ} (hcode : ∀ role, jumpCodes.contains (code role) = false) :
    (part code r x offset).jumps jumpCodes = false := hcode r

end Part

/-- An operation on two variables has the names of both halves. -/
theorem names_of_pair {o : Operation} {r₁ r₂ : Bool} {x y : Value}
    (hroles : paired.lookup o.name = some [r₁, r₂]) (hparts : o.argument.parts? = some [x, y])
    (role : Bool) :
    o.names role = (if r₁ = role then [x] else []) ++ if r₂ = role then [y] else [] := by
  obtain ⟨⟨hdefiner, huser⟩, -⟩ := of_mem_paired hroles
  -- the lists of operations on one variable come first, but do not have it
  have hsingle : (single role).contains o.name = false := by
    cases role <;> simpa [single]
  simp only [names, hsingle, Bool.false_eq_true, if_false, hroles, hparts, Option.getD_some,
    List.zip_cons_cons, List.zip_nil_left]
  cases r₁ <;> cases r₂ <;> cases role <;> rfl

/-- `halves`: the first half keeps the offset. -/
theorem offsets_halves (o : Operation) (code : Bool → ℤ) (fresh : ℤ) :
    (o.halves code fresh).map offset = [o.offset] ∨
      (o.halves code fresh).map offset = [o.offset, fresh] := by
  unfold halves
  split
  · exact .inr rfl
  · exact .inl rfl

/-- **Every operation is split** by `halves`. -/
theorem exists_split {o : Operation}
    (hpair : o.isPair = true → ∃ x y, o.argument.parts? = some [x, y]) (code : Bool → ℤ)
    (fresh : ℤ) :
    (o.isPair = false ∧ o.halves code fresh = [o]) ∨
      o.isPair = true ∧ ∃ h₁ h₂, o.halves code fresh = [h₁, h₂] ∧ Split code o h₁ h₂ := by
  cases hroles : paired.lookup o.name with
  | none => exact .inl ⟨by rw [isPair, hroles]; rfl, by rw [halves, hroles]⟩
  | some roles =>
    have htrue : o.isPair = true := by rw [isPair, hroles]; rfl
    -- `paired` gives two roles and `hpair` gives two names, so `halves` makes two operations
    obtain ⟨-, -, r₁, r₂, rfl⟩ := of_mem_paired hroles
    obtain ⟨x, y, hparts⟩ := hpair htrue
    exact .inr ⟨htrue, _, _, by rw [halves, hroles, hparts], .pair hroles hparts fresh⟩

namespace Split

variable {code : Bool → ℤ} {o h₁ h₂ : Operation} (h : Split code o h₁ h₂)

include h

/-- The names in `o` are those in its halves. -/
theorem mem_names (role : Bool) (x : Value) :
    x ∈ o.names role ↔ x ∈ h₁.names role ∨ x ∈ h₂.names role := by
  cases h with
  | whole _ => exact (or_self_iff).symm
  | pair hroles hparts _ =>
    rw [names_of_pair hroles hparts, names_part, names_part, List.mem_append]

/-- Control leaves `o` as it leaves the last half. -/
theorem fallsThrough_eq : h₂.fallsThrough = o.fallsThrough := by
  cases h with
  | whole _ => rfl
  | pair hroles _ _ =>
    obtain ⟨-, ⟨hjump, hexit⟩, -⟩ := of_mem_paired hroles
    rw [fallsThrough_part, fallsThrough]
    simp [hjump, hexit]

theorem isPair_eq_false : h₁.isPair = false ∧ h₂.isPair = false := by
  cases h with
  | whole hpair => exact ⟨hpair, hpair⟩
  | pair _ _ _ => exact ⟨isPair_part _ _ _ _, isPair_part _ _ _ _⟩

section Jumps

variable {jumpCodes : List ℤ} (hcode : ∀ role, jumpCodes.contains (code role) = false)

include hcode

/-- The first half of two leads to the second one. -/
theorem straight (hpair : o.isPair = true) :
    h₁.fallsThrough = true ∧ h₁.jumps jumpCodes = false := by
  cases h with
  | whole hpair' => exact absurd (hpair'.symm.trans hpair) Bool.false_ne_true
  | pair _ _ _ => exact ⟨fallsThrough_part _ _ _ _, jumps_part _ _ _ _ hcode⟩

/-- A half that jumps is the operation itself. -/
theorem eq_of_jumps :
    (h₁.jumps jumpCodes = true → h₁ = o) ∧ (h₂.jumps jumpCodes = true → h₂ = o) := by
  cases h with
  | whole _ => exact ⟨fun _ => rfl, fun _ => rfl⟩
  | pair _ _ _ =>
    rw [jumps_part _ _ _ _ hcode, jumps_part _ _ _ _ hcode]
    exact ⟨nofun, nofun⟩

theorem jumps_eq (hpair : o.isPair = true → o.jumps jumpCodes = false) :
    h₂.jumps jumpCodes = o.jumps jumpCodes := by
  cases h with
  | whole _ => rfl
  | pair hroles _ _ =>
    have hjumps : o.jumps jumpCodes = false := hpair (by rw [isPair, hroles]; rfl)
    rw [jumps_part _ _ _ _ hcode, hjumps]

end Jumps

end Split

end Operation

namespace Bytecode

open Operation (Split)

/-! ### The expansion -/

/-- What halves are given: the number of an operation that defines one variable and of one that uses
one, and the offset of the second half of the operation at each position. -/
structure Fresh where
  code : Bool → ℤ
  offset : ℕ → ℤ

/-- The halves of `o`, which stands at position `i`. -/
def halvesAt (fresh : Fresh) (o : Operation) (i : ℕ) : List Operation :=
  o.halves fresh.code (fresh.offset i)

/-- The halves of all operations in order, each with the position that it comes from. -/
def pieces (fresh : Fresh) (operations : List Operation) : List (ℕ × Operation) :=
  operations.zipIdx.flatMap fun o => (halvesAt fresh o.1 o.2).map (o.2, ·)

/-- **The expansion of bytecode**: operations on two variables are replaced by their halves. -/
def expand (b : Bytecode) (fresh : Fresh) : Bytecode :=
  { b with operations := (pieces fresh b.operations).map (·.2) }

/-- The position that the half at position `c` of the expansion comes from. -/
def origin? (b : Bytecode) (fresh : Fresh) (c : ℕ) : Option ℕ :=
  (pieces fresh b.operations)[c]?.map (·.1)

/-- No half of an operation on two variables jumps, and no jump leads to a second half. -/
structure Untargeted (b : Bytecode) (fresh : Fresh) : Prop where
  code : ∀ role, b.jumpCodes.contains (fresh.code role) = false
  offset : ∀ o ∈ b.operations, o.jumps b.jumpCodes = true →
    ∀ i, (Value.int (fresh.offset i) == o.argument) = false

/-- The operation at position `i` stores a variable and loads the same variable. -/
def FeedsItself (b : Bytecode) (i : ℕ) : Prop :=
  ∃ o x y, b.operations[i]? = some o ∧ o.name = "STORE_FAST_LOAD_FAST" ∧
    o.argument.parts? = some [x, y] ∧ (x == y) = true

/-- Where the halves of the operation at position `i` start. -/
def first (b : Bytecode) (fresh : Fresh) (i : ℕ) : ℕ :=
  (pieces fresh (b.operations.take i)).length

/-- Where the halves of the operation at position `i` end. -/
def last (b : Bytecode) (fresh : Fresh) (i : ℕ) : ℕ := b.first fresh (i + 1) - 1

theorem pieces_append (fresh : Fresh) (l m : List Operation) :
    pieces fresh (l ++ m) = pieces fresh l ++
      (m.zipIdx l.length).flatMap fun o => (halvesAt fresh o.1 o.2).map (o.2, ·) := by
  rw [pieces, pieces, List.zipIdx_append, List.flatMap_append, Nat.zero_add]

theorem pieces_snoc (fresh : Fresh) (l : List Operation) (o : Operation) :
    pieces fresh (l ++ [o]) = pieces fresh l ++ (halvesAt fresh o l.length).map (l.length, ·) := by
  rw [pieces_append]
  simp

section Layout

variable {b : Bytecode} {fresh : Fresh}

theorem first_of_le {i : ℕ} (h : b.operations.length ≤ i) :
    b.first fresh i = (b.expand fresh).operations.length := by
  rw [first, List.take_of_length_le h, expand, List.length_map]

theorem first_succ (fresh : Fresh) {i : ℕ} {o : Operation} (ho : b.operations[i]? = some o) :
    b.first fresh (i + 1) = b.first fresh i + (halvesAt fresh o i).length := by
  have hlt := (List.getElem?_eq_some_iff.1 ho).1
  rw [first, List.take_add_one, ho, Option.toList_some, pieces_snoc, List.length_append,
    List.length_map, List.length_take, min_eq_left hlt.le, first]

/-- The halves of the operation at position `i` stand in a row, from `first` on. -/
theorem getElem?_half (fresh : Fresh) {i k : ℕ} {o h : Operation} (ho : b.operations[i]? = some o)
    (hk : (halvesAt fresh o i)[k]? = some h) :
    (b.expand fresh).operations[b.first fresh i + k]? = some h ∧
      b.origin? fresh (b.first fresh i + k) = some i := by
  have hlt := (List.getElem?_eq_some_iff.1 ho).1
  have hlength : (b.operations.take i).length = i := by
    rw [List.length_take, min_eq_left hlt.le]
  -- the pieces before, the halves, and the pieces after
  obtain ⟨rest, hrest⟩ : ∃ rest, pieces fresh b.operations =
      pieces fresh (b.operations.take i) ++ ((halvesAt fresh o i).map (i, ·) ++ rest) := by
    have happend := pieces_append fresh (b.operations.take (i + 1)) (b.operations.drop (i + 1))
    rw [List.take_append_drop, List.take_add_one, ho, Option.toList_some, pieces_snoc, hlength,
      List.append_assoc] at happend
    exact ⟨_, happend⟩
  have hk' : k < ((halvesAt fresh o i).map ((i, ·) : Operation → ℕ × Operation)).length := by
    rw [List.length_map]
    exact (List.getElem?_eq_some_iff.1 hk).1
  have hpiece : (pieces fresh b.operations)[b.first fresh i + k]? = some (i, h) := by
    rw [hrest, first, List.getElem?_append_right (Nat.le_add_right _ k), Nat.add_sub_cancel_left,
      List.getElem?_append_left hk', List.getElem?_map, hk, Option.map_some]
  constructor
  · rw [expand, List.getElem?_map, hpiece]
    rfl
  · rw [origin?, hpiece]
    rfl

/-- Every one of the `pieces` is a half of the operation that it comes from. -/
theorem exists_of_getElem?_pieces {c i : ℕ} {h : Operation}
    (hc : (pieces fresh b.operations)[c]? = some (i, h)) :
    ∃ o k, b.operations[i]? = some o ∧ (halvesAt fresh o i)[k]? = some h ∧
      c = b.first fresh i + k := by
  unfold first
  generalize b.operations = l at hc ⊢
  -- from the end: the piece is a half of the last operation, or stands before these
  induction l using List.reverseRecOn generalizing c i h with
  | nil => cases hc
  | append_singleton l o ih =>
    rw [pieces_snoc] at hc
    by_cases hlt : c < (pieces fresh l).length
    · rw [List.getElem?_append_left hlt] at hc
      obtain ⟨o', k, ho', hk, rfl⟩ := ih hc
      have hi := (List.getElem?_eq_some_iff.1 ho').1
      refine ⟨o', k, by rw [List.getElem?_append_left hi, ho'], hk, ?_⟩
      rw [List.take_append_of_le_length hi.le]
    · rw [List.getElem?_append_right (not_lt.1 hlt), List.getElem?_map] at hc
      obtain ⟨h', hk, heq⟩ := Option.map_eq_some_iff.1 hc
      cases heq
      refine ⟨o, c - (pieces fresh l).length, by simp, hk, ?_⟩
      rw [List.take_left]
      omega

/-- **The halves `h₁` and `h₂` of the operation `o` at position `i`**, where they stand in the
expansion. -/
structure Halved (b : Bytecode) (fresh : Fresh) (i : ℕ) (o h₁ h₂ : Operation) : Prop where
  split : Split fresh.code o h₁ h₂
  first : (b.expand fresh).operations[b.first fresh i]? = some h₁
  last : (b.expand fresh).operations[b.last fresh i]? = some h₂
  origin_first : b.origin? fresh (b.first fresh i) = some i
  origin_last : b.origin? fresh (b.last fresh i) = some i
  first_succ : b.first fresh (i + 1) = b.last fresh i + 1
  last_eq : b.last fresh i = b.first fresh i + if o.isPair then 1 else 0

theorem Halved.last_of_pair {i : ℕ} {o h₁ h₂ : Operation} (h : b.Halved fresh i o h₁ h₂)
    (hpair : o.isPair = true) : b.last fresh i = b.first fresh i + 1 := by
  rw [h.last_eq, if_pos hpair]

theorem Halved.last_of_whole {i : ℕ} {o h₁ h₂ : Operation} (h : b.Halved fresh i o h₁ h₂)
    (hpair : o.isPair = false) : b.last fresh i = b.first fresh i := by
  rw [h.last_eq, hpair]
  rfl

theorem halved_of_halves {i k : ℕ} {o h₁ h₂ : Operation} {halves : List Operation}
    (ho : b.operations[i]? = some o) (hsplit : Split fresh.code o h₁ h₂)
    (hhalves : halvesAt fresh o i = halves) (hfirst : halves[0]? = some h₁)
    (hlast : halves[k]? = some h₂) (hlength : halves.length = k + 1)
    (hk : k = if o.isPair then 1 else 0) : b.Halved fresh i o h₁ h₂ := by
  subst hhalves
  -- the first half stands at `first`, and the last one `k` further on
  obtain ⟨hget, horigin⟩ := getElem?_half fresh ho hfirst
  obtain ⟨hget', horigin'⟩ := getElem?_half fresh ho hlast
  have hsucc : b.first fresh (i + 1) = b.first fresh i + k + 1 := by
    rw [first_succ fresh ho, hlength]
    rfl
  have heq : b.last fresh i = b.first fresh i + k := by
    rw [last, hsucc, Nat.add_sub_cancel]
  rw [← heq] at hget' horigin' hsucc
  exact ⟨hsplit, hget, hget', horigin, horigin', hsucc, by rw [heq, hk]⟩

theorem exists_halved (fresh : Fresh) (hb : b.Proper) {i : ℕ} {o : Operation}
    (ho : b.operations[i]? = some o) : ∃ h₁ h₂, b.Halved fresh i o h₁ h₂ := by
  obtain ⟨hpair, hhalves⟩ | ⟨hpair, h₁, h₂, hhalves, hsplit⟩ :=
    Operation.exists_split (fun hpair => (hb.pairs o (List.mem_of_getElem? ho) hpair).2)
      fresh.code (fresh.offset i)
  · exact ⟨o, o, halved_of_halves ho (.whole hpair) hhalves rfl rfl rfl (by simp [hpair])⟩
  · exact ⟨h₁, h₂, halved_of_halves ho hsplit hhalves rfl rfl rfl (by simp [hpair])⟩

/-- Every position of the expansion is that of a first or of a last half. -/
theorem exists_of_origin? (hb : b.Proper) {c i : ℕ} (hc : b.origin? fresh c = some i) :
    ∃ o, b.operations[i]? = some o ∧ (c = b.first fresh i ∨ c = b.last fresh i) := by
  obtain ⟨⟨j, h⟩, hpiece, hj⟩ := Option.map_eq_some_iff.1 hc
  obtain rfl : j = i := hj
  obtain ⟨o, k, ho, hk, rfl⟩ := exists_of_getElem?_pieces hpiece
  refine ⟨o, ho, ?_⟩
  -- there are one or two halves, so `k` is that of the first or of the last
  obtain ⟨h₁, h₂, hhalved⟩ := exists_halved fresh hb ho
  have hlt : k < (halvesAt fresh o j).length := (List.getElem?_eq_some_iff.1 hk).1
  have hsucc := first_succ fresh ho
  have hsucc' := hhalved.first_succ
  have hlast := hhalved.last_eq
  split at hlast <;> omega

/-! ### Control -/

theorem exists_of_first_lt {i : ℕ} (h : b.first fresh i < (b.expand fresh).operations.length) :
    ∃ o, b.operations[i]? = some o := by
  by_contra hnone
  have hle : b.operations.length ≤ i := by
    by_contra hlt
    exact hnone ⟨_, List.getElem?_eq_getElem (not_le.1 hlt)⟩
  rw [first_of_le hle] at h
  exact lt_irrefl _ h

/-- **Offsets in the expansion**: the last operation at an offset becomes a first half, where no
second half stands. -/
theorem positionAt?_expand {v : Value} (hv : ∀ i, (Value.int (fresh.offset i) == v) = false) :
    (b.expand fresh).positionAt? v = (b.positionAt? v).map (b.first fresh) := by
  suffices hlist : ∀ l : List Operation,
      ({ b with operations := (pieces fresh l).map (·.2) } : Bytecode).positionAt? v =
        (({ b with operations := l } : Bytecode).positionAt? v).map
          fun i => (pieces fresh (l.take i)).length from hlist b.operations
  intro l
  -- from the end, as the last operation at an offset counts
  induction l using List.reverseRecOn with
  | nil => rfl
  | append_singleton l o ih =>
    -- where the operation is not at the offset, it is of no account
    have hbefore : (({ b with operations := l } : Bytecode).positionAt? v).map
        (fun i => (pieces fresh ((l ++ [o]).take i)).length) =
          ({ b with operations := (pieces fresh l).map (·.2) } : Bytecode).positionAt? v := by
      rw [ih]
      refine Option.map_congr fun i hi => ?_
      rw [List.take_append_of_le_length (positionAt?_lt hi).le]
    rw [pieces_snoc, List.map_append, List.map_map, positionAt?_snoc b l o v, apply_ite
      (Option.map _), hbefore, Option.map_some, List.take_left]
    obtain hoffsets | hoffsets := o.offsets_halves fresh.code (fresh.offset l.length)
    · obtain ⟨h, hhalves, hoffset⟩ := List.map_eq_singleton_iff.1 hoffsets
      rw [halvesAt, hhalves]
      show ({ b with operations := (pieces fresh l).map (·.2) ++ [h] } : Bytecode).positionAt? v = _
      rw [positionAt?_snoc, hoffset, List.length_map]
    · obtain ⟨h₁, rest, hhalves, hoffset₁, hrest⟩ := List.map_eq_cons_iff.1 hoffsets
      obtain ⟨h₂, rfl, hoffset₂⟩ := List.map_eq_singleton_iff.1 hrest
      rw [halvesAt, hhalves]
      show ({ b with operations := (pieces fresh l).map (·.2) ++ [h₁, h₂] } :
        Bytecode).positionAt? v = _
      rw [List.append_cons, positionAt?_snoc, positionAt?_snoc, hoffset₁, hoffset₂, hv,
        List.length_map]
      rfl

theorem jumpTarget_expand (hfresh : b.Untargeted fresh) {o : Operation} (ho : o ∈ b.operations)
    (hjumps : o.jumps b.jumpCodes = true) {p : ℕ} :
    (b.expand fresh).jumpTarget o = .ok p ↔ ∃ q, b.jumpTarget o = .ok q ∧ p = b.first fresh q := by
  simp only [jumpTarget_eq_ok, positionAt?_expand (hfresh.offset o ho hjumps),
    Option.map_eq_some_iff, and_assoc, exists_and_left, eq_comm (a := p)]

/-- `following` the last half comes the first half of the next operation. -/
theorem mem_following_expand (hb : b.Proper) {i e : ℕ} {o h₁ h₂ : Operation}
    (h : b.Halved fresh i o h₁ h₂) :
    e ∈ (b.expand fresh).following h₂ (b.last fresh i) ↔
      ∃ j, j ∈ b.following o i ∧ e = b.first fresh j := by
  simp only [mem_following, h.split.fallsThrough_eq, ← h.first_succ]
  constructor
  · rintro ⟨hfalls, rfl, hlt⟩
    obtain ⟨o', ho'⟩ := exists_of_first_lt hlt
    exact ⟨i + 1, ⟨hfalls, rfl, (List.getElem?_eq_some_iff.1 ho').1⟩, rfl⟩
  · rintro ⟨_, ⟨hfalls, rfl, hlt⟩, rfl⟩
    obtain ⟨_, _, hnext⟩ := exists_halved fresh hb (List.getElem?_eq_getElem hlt)
    exact ⟨hfalls, rfl, (List.getElem?_eq_some_iff.1 hnext.first).1⟩

/-- **Control within an operation**: from the first of two halves to the last. -/
theorem step_first_iff (hb : b.Proper) (hfresh : b.Untargeted fresh) {i e : ℕ} {o : Operation}
    (ho : b.operations[i]? = some o) (hpair : o.isPair = true) :
    (b.expand fresh).Step (b.first fresh i) e ↔ e = b.last fresh i := by
  obtain ⟨h₁, h₂, h⟩ := exists_halved fresh hb ho
  obtain ⟨hfalls, hjumps⟩ := h.split.straight hfresh.code hpair
  rw [step_of_not_jumps h.first hjumps, mem_following, ← h.last_of_pair hpair]
  constructor
  · exact fun he => he.2.1
  · rintro rfl
    exact ⟨hfalls, rfl, (List.getElem?_eq_some_iff.1 h.last).1⟩

/-- **Control between operations**: from the last half of the one to the first half of the
other. -/
theorem step_last_iff (hb : b.Proper) (hfresh : b.Untargeted fresh) {i e : ℕ} {o : Operation}
    (ho : b.operations[i]? = some o) :
    (b.expand fresh).Step (b.last fresh i) e ↔ ∃ j, b.Step i j ∧ e = b.first fresh j := by
  have hmem := List.mem_of_getElem? ho
  obtain ⟨h₁, h₂, h⟩ := exists_halved fresh hb ho
  have hjumps' := h.split.jumps_eq hfresh.code fun hpair => (hb.pairs o hmem hpair).1
  cases hjumps : o.jumps b.jumpCodes with
  | false =>
    rw [step_of_not_jumps h.last (hjumps'.trans hjumps), mem_following_expand hb h]
    simp only [step_of_not_jumps ho hjumps]
  | true =>
    -- an operation that jumps is its own last half, and its target is a first half
    obtain rfl := (h.split.eq_of_jumps hfresh.code).2 (hjumps'.trans hjumps)
    rw [step_of_jumps h.last hjumps]
    simp only [step_of_jumps ho hjumps, mem_following_expand hb h,
      jumpTarget_expand hfresh hmem hjumps]
    constructor
    · rintro ⟨_, ⟨q, hq, rfl⟩, ⟨j, hj, rfl⟩ | rfl⟩
      · exact ⟨j, ⟨q, hq, .inl hj⟩, rfl⟩
      · exact ⟨q, ⟨q, hq, .inr rfl⟩, rfl⟩
    · rintro ⟨j, ⟨q, hq, hj | rfl⟩, rfl⟩
      · exact ⟨_, ⟨q, hq, rfl⟩, .inl ⟨j, hj, rfl⟩⟩
      · exact ⟨_, ⟨j, hq, rfl⟩, .inr rfl⟩

/-- Of one operation, control comes from `first` to `last`. -/
theorem reach_last (fresh : Fresh) (hb : b.Proper) {i : ℕ} {o : Operation}
    (ho : b.operations[i]? = some o) {r : ℕ → ℕ → Prop}
    (hr : o.isPair = true → r (b.first fresh i) (b.last fresh i)) :
    ReflTransGen r (b.first fresh i) (b.last fresh i) := by
  obtain ⟨h₁, h₂, h⟩ := exists_halved fresh hb ho
  cases hpair : o.isPair with
  | false => rw [h.last_of_whole hpair]
  | true => exact .single (hr hpair)

/-- **Control comes to the halves** of an operation that it comes to: to the first one, and from
there to the last. -/
theorem Reached.expand (hb : b.Proper) (hfresh : b.Untargeted fresh) {i : ℕ} (h : b.Reached i) :
    (b.expand fresh).Reached (b.first fresh i) := by
  induction h with
  | refl => exact .refl
  | @tail i j _ hstep ih =>
    have ho := List.getElem?_eq_getElem hstep.lt.1
    have hlast := reach_last fresh hb ho fun hpair => (step_first_iff hb hfresh ho hpair).2 rfl
    exact (ih.trans hlast).tail ((step_last_iff hb hfresh ho).2 ⟨j, hstep, rfl⟩)

/-- **A step in the expansion** stays in an operation, or it leaves the last half of the one for the
first half of another. -/
theorem cases_step (hb : b.Proper) (hfresh : b.Untargeted fresh) {i c e : ℕ} {o : Operation}
    (ho : b.operations[i]? = some o) (hc : c = b.first fresh i ∨ c = b.last fresh i)
    (hstep : (b.expand fresh).Step c e) :
    (o.isPair = true ∧ c = b.first fresh i ∧ e = b.last fresh i) ∨
      c = b.last fresh i ∧ ∃ j, b.Step i j ∧ e = b.first fresh j := by
  obtain ⟨h₁, h₂, h⟩ := exists_halved fresh hb ho
  -- only the first of two halves does not leave the operation
  by_cases hwithin : o.isPair = true ∧ c = b.first fresh i
  · obtain ⟨hpair, rfl⟩ := hwithin
    exact .inl ⟨hpair, rfl, (step_first_iff hb hfresh ho hpair).1 hstep⟩
  · have hlast : c = b.last fresh i := by
      obtain rfl | hc := hc
      · have hwhole : o.isPair = false := eq_false_of_ne_true fun hpair => hwithin ⟨hpair, rfl⟩
        exact (h.last_of_whole hwhole).symm
      · exact hc
    rw [hlast] at hstep
    exact .inr ⟨hlast, (step_last_iff hb hfresh ho).1 hstep⟩

/-- Control comes to the halves of operations that it comes to, and to no others. -/
theorem reached_of_expand (hb : b.Proper) (hfresh : b.Untargeted fresh) {c : ℕ}
    (h : (b.expand fresh).Reached c) (hlt : c < (b.expand fresh).operations.length) :
    ∃ i o, b.Reached i ∧ b.operations[i]? = some o ∧
      (c = b.first fresh i ∨ c = b.last fresh i) := by
  induction h with
  | refl =>
    obtain ⟨o, ho⟩ := exists_of_first_lt (i := 0) hlt
    exact ⟨0, o, .refl, ho, .inl rfl⟩
  | @tail c e _ hstep ih =>
    -- within the operation that control has come to, or on to the next one
    obtain ⟨i, o, hi, ho, hc⟩ := ih hstep.lt.1
    obtain ⟨-, -, rfl⟩ | ⟨-, j, hij, rfl⟩ := cases_step hb hfresh ho hc hstep
    · exact ⟨i, o, hi, ho, .inr rfl⟩
    · obtain ⟨o', ho'⟩ := exists_of_first_lt hlt
      exact ⟨j, o', hi.tail hij, ho', .inl rfl⟩

/-- The operations of the expansion are halves. -/
theorem eq_or_eq_of_getElem? {i c : ℕ} {o h h₁ h₂ : Operation} (hhalved : b.Halved fresh i o h₁ h₂)
    (hc : c = b.first fresh i ∨ c = b.last fresh i)
    (hop : (b.expand fresh).operations[c]? = some h) : h = h₁ ∨ h = h₂ := by
  obtain rfl | rfl := hc
  · exact .inl (Option.some.inj (hop.symm.trans hhalved.first))
  · exact .inr (Option.some.inj (hop.symm.trans hhalved.last))

/-- `successors` does not fail in the expansion: every jump that control comes to has a target. -/
theorem resolves_expand (hb : b.Proper) (hfresh : b.Untargeted fresh) {c : ℕ}
    (hc : (b.expand fresh).Reached c) : ∃ next, (b.expand fresh).successors c = .ok next := by
  cases hop : (b.expand fresh).operations[c]? with
  | none => exact ⟨_, successors_of_none hop⟩
  | some h =>
    cases hjumps : h.jumps b.jumpCodes with
    | false => exact ⟨_, successors_of_not_jumps hop hjumps⟩
    | true =>
      -- a half that jumps is an operation, and its target is known
      obtain ⟨i, o, hi, ho, hc'⟩ :=
        reached_of_expand hb hfresh hc (List.getElem?_eq_some_iff.1 hop).1
      obtain ⟨h₁, h₂, hhalved⟩ := exists_halved fresh hb ho
      obtain rfl : h = o := by
        obtain rfl | rfl := eq_or_eq_of_getElem? hhalved hc' hop
        · exact (hhalved.split.eq_of_jumps hfresh.code).1 hjumps
        · exact (hhalved.split.eq_of_jumps hfresh.code).2 hjumps
      obtain ⟨next, hnext⟩ := hb.resolves i hi
      rw [successors_of_jumps ho hjumps] at hnext
      obtain ⟨q, hq, -⟩ := map_eq_ok.1 hnext
      have htarget := (jumpTarget_expand hfresh (List.mem_of_getElem? ho) hjumps).2 ⟨q, hq, rfl⟩
      exact ⟨_, by rw [successors_of_jumps hop hjumps, htarget]; rfl⟩

/-- **The expansion is in order** if the bytecode is. -/
theorem Proper.expand (hb : b.Proper) (hfresh : b.Untargeted fresh) : (b.expand fresh).Proper := by
  refine ⟨fun c hc h hop role x hx => ?_, fun h hmem hpair => ?_, fun c hc => ?_⟩
  · obtain ⟨i, o, hi, ho, hc'⟩ :=
      reached_of_expand hb hfresh hc (List.getElem?_eq_some_iff.1 hop).1
    obtain ⟨h₁, h₂, hhalved⟩ := exists_halved fresh hb ho
    refine hb.hashable i hi o ho role x ?_
    rw [hhalved.split.mem_names]
    obtain rfl | rfl := eq_or_eq_of_getElem? hhalved hc' hop
    · exact .inl hx
    · exact .inr hx
  · -- no half is an operation on two variables
    obtain ⟨c, hop⟩ := List.mem_iff_getElem?.1 hmem
    obtain ⟨i, hi⟩ : ∃ i, b.origin? fresh c = some i := by
      rw [Bytecode.expand, List.getElem?_map] at hop
      obtain ⟨piece, hpiece, -⟩ := Option.map_eq_some_iff.1 hop
      exact ⟨piece.1, by rw [origin?, hpiece]; rfl⟩
    obtain ⟨o, ho, hc⟩ := exists_of_origin? hb hi
    obtain ⟨h₁, h₂, hhalved⟩ := exists_halved fresh hb ho
    obtain ⟨hfirst, hlast⟩ := hhalved.split.isPair_eq_false
    obtain rfl | rfl := eq_or_eq_of_getElem? hhalved hc hop
    · exact absurd (hfirst.symm.trans hpair) Bool.false_ne_true
    · exact absurd (hlast.symm.trans hpair) Bool.false_ne_true
  · exact resolves_expand hb hfresh hc

/-! ### Names -/

/-- The names at position `i` are those at its halves. -/
theorem names_expand (fresh : Fresh) (hb : b.Proper) {i : ℕ} {o : Operation}
    (ho : b.operations[i]? = some o) (role : Bool) (v : Value) :
    b.Names role i v ↔ (b.expand fresh).Names role (b.first fresh i) v ∨
      (b.expand fresh).Names role (b.last fresh i) v := by
  obtain ⟨h₁, h₂, h⟩ := exists_halved fresh hb ho
  rw [names_iff_exists ho, names_iff_exists h.first, names_iff_exists h.last]
  simp only [h.split.mem_names, or_and_right, exists_or]

theorem names_of_half (hb : b.Proper) {role : Bool} {i c : ℕ} {o : Operation} {v : Value}
    (ho : b.operations[i]? = some o) (hc : c = b.first fresh i ∨ c = b.last fresh i)
    (h : (b.expand fresh).Names role c v) : b.Names role i v := by
  obtain rfl | rfl := hc
  · exact (names_expand fresh hb ho role v).2 (.inl h)
  · exact (names_expand fresh hb ho role v).2 (.inr h)

/-- The load of an operation that feeds itself is not its first half, and what it uses its store
defines. -/
theorem FeedsItself.defines (fresh : Fresh) (hb : b.Proper) {i : ℕ} (h : b.FeedsItself i)
    (v : Value) :
    ¬ (b.expand fresh).Uses (b.first fresh i) v ∧
      ((b.expand fresh).Uses (b.last fresh i) v →
        (b.expand fresh).Defines (b.first fresh i) v) := by
  obtain ⟨o, x, y, ho, hname, hparts, hxy⟩ := h
  have hroles := Operation.lookup_paired_iff.2 hname
  obtain ⟨h₁, h₂, h⟩ := exists_halved fresh hb ho
  simp only [Uses, Defines, names_iff_exists h.first, names_iff_exists h.last]
  cases h.split with
  | whole hpair =>
    rw [Operation.isPair, hroles] at hpair
    cases hpair
  | pair hroles' hparts' _ =>
    -- the first half only stores, and the last one only loads
    cases hroles.symm.trans hroles'
    cases hparts.symm.trans hparts'
    simp only [Operation.names_part]
    simpa using fun hy => BEq.trans hxy hy

/-- An operation whose first half defines what its last half uses feeds itself. -/
theorem feedsItself_of_names (hb : b.Proper) {i : ℕ} {o : Operation}
    (ho : b.operations[i]? = some o) (hpair : o.isPair = true) {v : Value}
    (hdefines : (b.expand fresh).Defines (b.first fresh i) v)
    (huses : (b.expand fresh).Uses (b.last fresh i) v) : b.FeedsItself i := by
  obtain ⟨h₁, h₂, h⟩ := exists_halved fresh hb ho
  rw [Defines, names_iff_exists h.first] at hdefines
  rw [Uses, names_iff_exists h.last] at huses
  cases h.split with
  | whole hpair' => exact absurd (hpair'.symm.trans hpair) Bool.false_ne_true
  | @pair r₁ r₂ x y hroles hparts _ =>
    -- a half names its variable in its own role, so the first one stores and the last one loads
    rw [Operation.names_part] at hdefines huses
    obtain ⟨_, hx, hxv⟩ := hdefines
    obtain ⟨_, hy, hyv⟩ := huses
    obtain ⟨rfl, rfl⟩ : r₁ = true ∧ _ = x := by simpa using hx
    obtain ⟨rfl, rfl⟩ : r₂ = false ∧ _ = y := by simpa using hy
    exact ⟨o, _, _, ho, Operation.lookup_paired_iff.1 hroles, hparts, BEq.trans hxv (BEq.symm hyv)⟩

/-! ### What is carried -/

/-- **What is kept between operations is kept between their last halves.** -/
theorem Keeps.expand (hb : b.Proper) (hfresh : b.Untargeted fresh) {v : Value} {i k : ℕ}
    (h : b.Keeps v i k) : (b.expand fresh).Keeps v (b.last fresh i) (b.last fresh k) := by
  induction h with
  | refl => exact .refl
  | @tail j k _ hstep ih =>
    obtain ⟨hstep, hdefines⟩ := hstep
    have hj := List.getElem?_eq_getElem hstep.lt.1
    have hk := List.getElem?_eq_getElem hstep.lt.2
    rw [Defines, names_expand fresh hb hk, not_or] at hdefines
    -- into the first half of the next operation, and on to its last: neither defines the variable
    have hfirst : (b.expand fresh).Keeps v (b.last fresh j) (b.first fresh k) :=
      .single ⟨(step_last_iff hb hfresh hj).2 ⟨k, hstep, rfl⟩, hdefines.1⟩
    have hlast : (b.expand fresh).Keeps v (b.first fresh k) (b.last fresh k) :=
      reach_last fresh hb hk fun hpair => ⟨(step_first_iff hb hfresh hk hpair).2 rfl, hdefines.2⟩
    exact (ih.trans hfirst).trans hlast

/-- **What a variable has come through** when it is kept from a half of `d` to position `c` of the
expansion, a half of `u`: it has come through all of `u`, or only to the first half. -/
inductive Holds (b : Bytecode) (fresh : Fresh) (v : Value) (d : ℕ) : ℕ → ℕ → Prop
  | last {u : ℕ} (hkeeps : b.Keeps v d u) : Holds b fresh v d u (b.last fresh u)
  | source : Holds b fresh v d d (b.first fresh d)
  | first {k u : ℕ} (hkeeps : b.Keeps v d k) (hstep : b.Step k u)
      (hdefines : ¬ (b.expand fresh).Defines (b.first fresh u) v) :
      Holds b fresh v d u (b.first fresh u)

namespace Holds

variable {v : Value} {d u c : ℕ}

theorem eq_or_eq (h : b.Holds fresh v d u c) : c = b.first fresh u ∨ c = b.last fresh u := by
  cases h with
  | last _ => exact .inr rfl
  | source => exact .inl rfl
  | first _ _ _ => exact .inl rfl

/-- At the last half, or before one that does not define `v`, the variable has come through. -/
theorem keeps (hb : b.Proper) {o : Operation} (ho : b.operations[u]? = some o)
    (h : b.Holds fresh v d u c)
    (hlast : c = b.last fresh u ∨ ¬ (b.expand fresh).Defines (b.last fresh u) v) :
    b.Keeps v d u := by
  cases h with
  | last hkeeps => exact hkeeps
  | source => exact .refl
  | first hkeeps hstep hdefines =>
    refine hkeeps.tail ⟨hstep, ?_⟩
    rw [Defines, names_expand fresh hb ho, not_or]
    refine ⟨hdefines, ?_⟩
    obtain heq | hlast := hlast
    · rw [← heq]
      exact hdefines
    · exact hlast

/-- One step further, to a half `e` that does not define `v`. -/
theorem step (hb : b.Proper) (hfresh : b.Untargeted fresh) {o : Operation} {e : ℕ}
    (ho : b.operations[u]? = some o) (h : b.Holds fresh v d u c)
    (hstep : (b.expand fresh).Step c e) (hdefines : ¬ (b.expand fresh).Defines e v) :
    ∃ w o', b.operations[w]? = some o' ∧ b.Holds fresh v d w e := by
  obtain ⟨-, -, rfl⟩ | ⟨hc, j, hj, rfl⟩ := cases_step hb hfresh ho h.eq_or_eq hstep
  · exact ⟨u, o, ho, .last (h.keeps hb ho (.inr hdefines))⟩
  · exact ⟨j, _, List.getElem?_eq_getElem hj.lt.2, .first (h.keeps hb ho (.inl hc)) hj hdefines⟩

/-- **What is kept in the expansion** has come through the operations on the way, `step` by `step`.
-/
theorem run (hb : b.Proper) (hfresh : b.Untargeted fresh) {o : Operation} {a : ℕ}
    (ho : b.operations[d]? = some o) (ha : b.Holds fresh v d d a)
    (hkeeps : (b.expand fresh).Keeps v a c) :
    ∃ u o', b.operations[u]? = some o' ∧ b.Holds fresh v d u c := by
  induction hkeeps with
  | refl => exact ⟨d, o, ho, ha⟩
  | tail _ hstep ih =>
    obtain ⟨u, o', ho', h⟩ := ih
    exact h.step hb hfresh ho' hstep.1 hstep.2

/-- **Where a variable arrives** in the expansion, it arrives between operations. At a last half
that is not the first, it has passed the first one. -/
theorem arrives (hb : b.Proper) (hfresh : b.Untargeted fresh) {o : Operation} {n e : ℕ}
    (ho : b.operations[u]? = some o) (h : b.Holds fresh v d u c)
    (hstep : (b.expand fresh).Step c e) (he : b.origin? fresh e = some n) (hdn : d ≠ n) :
    (∃ k, b.Keeps v d k ∧ b.Step k n) ∧
      (e = b.first fresh n ∨
        e = b.last fresh n ∧ ¬ (b.expand fresh).Defines (b.first fresh n) v) := by
  obtain ⟨h₁, h₂, hhalved⟩ := exists_halved fresh hb ho
  obtain ⟨hpair, hc, rfl⟩ | ⟨hc, j, hj, rfl⟩ := cases_step hb hfresh ho h.eq_or_eq hstep
  · -- from half to half of the operation where it arrives
    obtain rfl : u = n := Option.some.inj (hhalved.origin_last.symm.trans he)
    cases h with
    | last _ =>
      have hlast := hhalved.last_of_pair hpair
      omega
    | source => exact absurd rfl hdn
    | first hkeeps hentered hdefines => exact ⟨⟨_, hkeeps, hentered⟩, .inr ⟨rfl, hdefines⟩⟩
  · obtain ⟨_, _, hhalved'⟩ := exists_halved fresh hb (List.getElem?_eq_getElem hj.lt.2)
    obtain rfl : j = n := Option.some.inj (hhalved'.origin_first.symm.trans he)
    exact ⟨⟨u, h.keeps hb ho (.inl hc), hj⟩, .inl rfl⟩

end Holds

theorem origin?_eq_some (hb : b.Proper) {i c : ℕ} {o : Operation} (ho : b.operations[i]? = some o)
    (hc : c = b.first fresh i ∨ c = b.last fresh i) : b.origin? fresh c = some i := by
  obtain ⟨h₁, h₂, h⟩ := exists_halved fresh hb ho
  obtain rfl | rfl := hc
  · exact h.origin_first
  · exact h.origin_last

/-- A half that supplies a half of another operation: the one operation supplies the other. -/
theorem supplies_of_expand (hb : b.Proper) (hfresh : b.Untargeted fresh) {p q p' q' : ℕ} {v : Value}
    (hpq : p ≠ q) (hp : b.origin? fresh p' = some p) (hq : b.origin? fresh q' = some q)
    (h : (b.expand fresh).Supplies p' q' v) : b.Supplies p q v ∧ ¬ b.FeedsItself q := by
  obtain ⟨⟨hreached, hlt⟩, -⟩ := h.reached
  obtain ⟨-, hdefines, huses, k', hkeeps, hstep⟩ := h
  obtain ⟨o, ho, hp'⟩ := exists_of_origin? hb hp
  obtain ⟨oq, hoq, hq'⟩ := exists_of_origin? hb hq
  -- the half belongs to one operation only, and control comes to that
  have hreached' : b.Reached p := by
    obtain ⟨i, oi, hi, hoi, hc⟩ := reached_of_expand hb hfresh hreached hlt
    obtain rfl : p = i := Option.some.inj (hp.symm.trans (origin?_eq_some hb hoi hc))
    exact hi
  have hstart : b.Holds fresh v p p p' := by
    obtain rfl | rfl := hp'
    · exact .source
    · exact .last .refl
  obtain ⟨u, ou, hou, hholds⟩ := hstart.run hb hfresh ho hkeeps
  obtain ⟨hcarried, harrives⟩ := hholds.arrives hb hfresh hou hstep hq hpq
  refine ⟨⟨hreached', names_of_half hb ho hp' hdefines, names_of_half hb hoq hq' huses, hcarried⟩,
    fun hfeeds => ?_⟩
  -- its store is the first half, which a variable that comes to the load has not passed
  obtain ⟨hfirst, hlast⟩ := hfeeds.defines fresh hb v
  obtain rfl | ⟨rfl, hpassed⟩ := harrives
  · exact hfirst huses
  · exact hpassed (hlast huses)

/-- A definition at position `i` is one in a half, and kept to the end of the operation. -/
theorem exists_source (hb : b.Proper) (hfresh : b.Untargeted fresh) {i : ℕ} {o : Operation}
    (ho : b.operations[i]? = some o) {v : Value} (hdefines : b.Defines i v) :
    ∃ c, (c = b.first fresh i ∨ c = b.last fresh i) ∧ (b.expand fresh).Defines c v ∧
      (b.expand fresh).Keeps v c (b.last fresh i) := by
  -- of two definitions of the variable in one operation, the last one is what leaves it
  by_cases hlast : (b.expand fresh).Defines (b.last fresh i) v
  · exact ⟨_, .inr rfl, hlast, .refl⟩
  · have hfirst := ((names_expand fresh hb ho true v).1 hdefines).resolve_right hlast
    exact ⟨_, .inl rfl, hfirst,
      reach_last fresh hb ho fun hpair => ⟨(step_first_iff hb hfresh ho hpair).2 rfl, hlast⟩⟩

/-- A use in an operation that does not feed itself is one in a half, to which a variable comes that
comes to the operation. -/
theorem exists_target (hb : b.Proper) (hfresh : b.Untargeted fresh) {i k : ℕ} {o : Operation}
    (ho : b.operations[i]? = some o) {v : Value} (huses : b.Uses i v) (hfeeds : ¬ b.FeedsItself i)
    (hstep : (b.expand fresh).Step k (b.first fresh i)) :
    ∃ c, (c = b.first fresh i ∨ c = b.last fresh i) ∧ (b.expand fresh).Uses c v ∧
      ∃ k', (b.expand fresh).Keeps v k k' ∧ (b.expand fresh).Step k' c := by
  obtain hfirst | hlast := (names_expand fresh hb ho false v).1 huses
  · exact ⟨_, .inl rfl, hfirst, k, .refl, hstep⟩
  · cases hpair : o.isPair with
    | false =>
      obtain ⟨h₁, h₂, h⟩ := exists_halved fresh hb ho
      rw [← h.last_of_whole hpair] at hstep
      exact ⟨_, .inr rfl, hlast, k, .refl, hstep⟩
    | true =>
      -- the first half lets the variable pass, as the operation does not feed itself
      have hdefines : ¬ (b.expand fresh).Defines (b.first fresh i) v := fun hdefines =>
        hfeeds (feedsItself_of_names hb ho hpair hdefines hlast)
      exact ⟨_, .inr rfl, hlast, _, .single ⟨hstep, hdefines⟩,
        (step_first_iff hb hfresh ho hpair).2 rfl⟩

/-- An operation that supplies another, which does not feed itself, has a half that supplies a half
of the other. -/
theorem Supplies.expand (hb : b.Proper) (hfresh : b.Untargeted fresh) {p q : ℕ} {v : Value}
    (h : b.Supplies p q v) (hfeeds : ¬ b.FeedsItself q) :
    ∃ p' q', b.origin? fresh p' = some p ∧ b.origin? fresh q' = some q ∧
      (b.expand fresh).Supplies p' q' v := by
  obtain ⟨⟨-, hp⟩, -, hq⟩ := h.reached
  have hop := List.getElem?_eq_getElem hp
  have hoq := List.getElem?_eq_getElem hq
  obtain ⟨hreached, hdefines, huses, k, hkeeps, hstep⟩ := h
  have hk := List.getElem?_eq_getElem hstep.lt.1
  obtain ⟨p', hp', hdefines', hsource⟩ := exists_source hb hfresh hop hdefines
  obtain ⟨q', hq', huses', k', htarget, hstep'⟩ := exists_target hb hfresh hoq huses hfeeds
    ((step_last_iff hb hfresh hk).2 ⟨q, hstep, rfl⟩)
  have hreached' : (b.expand fresh).Reached p' := by
    have hfirst := hreached.expand hb hfresh
    obtain rfl | rfl := hp'
    · exact hfirst
    · exact hfirst.trans
        (reach_last fresh hb hop fun hpair => (step_first_iff hb hfresh hop hpair).2 rfl)
  refine ⟨p', q', origin?_eq_some hb hop hp', origin?_eq_some hb hoq hq', hreached', hdefines',
    huses', k', ?_, hstep'⟩
  -- to the end of the one operation, on to that of the last one before the other, and into it
  exact (hsource.trans (hkeeps.expand hb hfresh)).trans htarget

/-- **One position supplies another that does not feed itself** exactly if some half of the one
supplies some half of the other. A position that feeds itself has no half that is supplied by
another operation. -/
theorem supplies_expand_iff (hb : b.Proper) (hfresh : b.Untargeted fresh) {p q : ℕ} (hpq : p ≠ q)
    (v : Value) :
    (∃ p' q', b.origin? fresh p' = some p ∧ b.origin? fresh q' = some q ∧ p' ≠ q' ∧
      (b.expand fresh).Supplies p' q' v) ↔ b.Supplies p q v ∧ ¬ b.FeedsItself q := by
  constructor
  · rintro ⟨p', q', hp, hq, -, h⟩
    exact supplies_of_expand hb hfresh hpq hp hq h
  · rintro ⟨h, hfeeds⟩
    obtain ⟨p', q', hp, hq, h'⟩ := h.expand hb hfresh hfeeds
    refine ⟨p', q', hp, hq, ?_, h'⟩
    rintro rfl
    exact hpq (Option.some.inj (hp.symm.trans hq))

end Layout

/-! ### The data dependence graphs -/

/-- **Operations on two variables mean their two halves**, save those that feed themselves. Both
data dependence graphs can be made. Between different positions the one of the bytecode has the
edges of the one of its expansion, each half being taken for the operation that it comes from, and
labels put together; it has further edges only to positions that store a variable and load the same
variable. To these, the graph of the expansion has no edge from another operation. -/
theorem relates_expand {b : Bytecode} {fresh : Fresh} (hb : b.Proper) (hfresh : b.Untargeted fresh)
    (table : ℕ) (given : Value) :
    ∃ f g f' g', (FlowGraph.build b.method table given).result = .ok f ∧
      (f.dataDependence b.method.toDefUse).result = .ok g ∧
      (FlowGraph.build (b.expand fresh).method table given).result = .ok f' ∧
      (f'.dataDependence (b.expand fresh).method.toDefUse).result = .ok g' ∧
      ∀ p q, p ≠ q →
        ((∃ p' q', b.origin? fresh p' = some p ∧ b.origin? fresh q' = some q ∧ g'.Links p' q') ↔
          g.Links p q ∧ ¬ b.FeedsItself q) ∧
        ∀ v, (∃ p' q', b.origin? fresh p' = some p ∧ b.origin? fresh q' = some q ∧
          g'.Relates p' q' v) ↔ g.Relates p q v ∧ ¬ b.FeedsItself q := by
  obtain ⟨f, g, hbuild, hdata, hlinks, hrelates⟩ := exists_relates_iff hb table given
  obtain ⟨f', g', hbuild', hdata', hlinks', hrelates'⟩ :=
    exists_relates_iff (hb.expand hfresh) table given
  refine ⟨f, g, f', g', hbuild, hdata, hbuild', hdata', fun p q hpq => ⟨?_, fun v => ?_⟩⟩
  · -- there is an edge where some variable is supplied
    simp only [hlinks, hlinks', and_iff_right hpq]
    constructor
    · rintro ⟨p', q', hp, hq, hne, v, hsup⟩
      obtain ⟨h, hfeeds⟩ := (supplies_expand_iff hb hfresh hpq v).1 ⟨p', q', hp, hq, hne, hsup⟩
      exact ⟨⟨v, h⟩, hfeeds⟩
    · rintro ⟨⟨v, h⟩, hfeeds⟩
      obtain ⟨p', q', hp, hq, hne, hsup⟩ := (supplies_expand_iff hb hfresh hpq v).2 ⟨h, hfeeds⟩
      exact ⟨p', q', hp, hq, hne, v, hsup⟩
  · simp only [hrelates, hrelates', and_iff_right hpq]
    exact supplies_expand_iff hb hfresh hpq v

/-- Bytecode is `Proper` if it passes checks of its operations one by one. -/
theorem proper_of_check {b : Bytecode}
    (hashable : ∀ o ∈ b.operations, ∀ role, ∀ x ∈ o.names role, x.unhashable? = none)
    (pairs : ∀ o ∈ b.operations, o.isPair = true →
      o.jumps b.jumpCodes = false ∧ o.argument.parts?.map List.length = some 2)
    (resolves : ∀ i < b.operations.length, (b.successors i).toBool = true) : b.Proper := by
  refine ⟨fun i _ o ho => hashable o (List.mem_of_getElem? ho), fun o ho hpair => ?_, fun i _ => ?_⟩
  · obtain ⟨hjumps, hlength⟩ := pairs o ho hpair
    obtain ⟨parts, hparts, hlength⟩ := Option.map_eq_some_iff.1 hlength
    obtain ⟨x, y, rfl⟩ := List.length_eq_two.1 hlength
    exact ⟨hjumps, x, y, hparts⟩
  · by_cases hi : i < b.operations.length
    · have hok := resolves i hi
      cases hnext : b.successors i with
      | error c =>
        rw [hnext] at hok
        cases hok
      | ok next => exact ⟨next, rfl⟩
    · exact ⟨_, successors_of_none (List.getElem?_eq_none (not_lt.1 hi))⟩

/-- A loop of operations on two variables: the first one stores both; the second one stores the one
and loads the other, and the third one jumps back to it; the fourth one loads both. -/
def pairing : Bytecode where
  name := .text "pairing"
  operations :=
    [{ name := "STORE_FAST_STORE_FAST", code := 300, argument := names "x" "y", offset := 0 },
      { name := "STORE_FAST_LOAD_FAST", code := 300, argument := names "x" "y", offset := 2 },
      { name := "POP_JUMP_IF_FALSE", code := 114, argument := .int 2, offset := 4 },
      { name := "LOAD_FAST_LOAD_FAST", code := 300, argument := names "y" "x", offset := 6 },
      { name := "RETURN_VALUE", code := 83, argument := .none, offset := 8 }]
  firstIdent := 0
where names (x y : String) : Value := .tuple [.text x, .text y]

/-- Halves with the usual numbers, the second ones at odd offsets. -/
def oddOffsets : Fresh where
  code role := if role then 125 else 124
  offset i := 2 * i + 1

theorem pairing_proper : pairing.Proper :=
  proper_of_check (by decide) (by decide) (by decide)

theorem pairing_untargeted : pairing.Untargeted oddOffsets := by
  refine ⟨by decide, fun o ho hjumps i => ?_⟩
  have htarget : ∀ o ∈ pairing.operations, o.jumps pairing.jumpCodes = true →
      (o.argument == .int 2) = true := by
    decide
  refine eq_false_of_ne_true fun hbeq => ?_
  have heq : 2 * (i : ℤ) + 1 = 2 := Value.eq_of_int_beq (BEq.trans hbeq (htarget o ho hjumps))
  omega

/-- Nothing in the loop feeds itself, so its expansion has the same dependences. -/
theorem relates_expand_pairing :
    pairing.Proper ∧ pairing.Untargeted oddOffsets ∧
    ∃ f g f' g', (FlowGraph.build pairing.method 0 .none).result = .ok f ∧
      (f.dataDependence pairing.method.toDefUse).result = .ok g ∧
      (FlowGraph.build (pairing.expand oddOffsets).method 0 .none).result = .ok f' ∧
      (f'.dataDependence (pairing.expand oddOffsets).method.toDefUse).result = .ok g' ∧
      ∀ p q, p ≠ q → ∀ v,
        (∃ p' q', pairing.origin? oddOffsets p' = some p ∧
          pairing.origin? oddOffsets q' = some q ∧ g'.Relates p' q' v) ↔
            g.Relates p q v := by
  have hfeeds : ∀ q, ¬ pairing.FeedsItself q := by
    rintro q ⟨o, x, y, ho, hname, hparts, hxy⟩
    have hdiffer : ∀ o ∈ pairing.operations, o.name = "STORE_FAST_LOAD_FAST" →
        (o.argument.parts?.any fun parts => parts.head? == parts.getLast?) = false := by
      decide
    have hfalse := hdiffer o (List.mem_of_getElem? ho) hname
    rw [hparts] at hfalse
    exact Bool.false_ne_true (hfalse.symm.trans hxy)
  obtain ⟨f, g, f', g', hbuild, hdata, hbuild', hdata', h⟩ :=
    relates_expand pairing_proper pairing_untargeted 0 .none
  refine ⟨pairing_proper, pairing_untargeted, f, g, f', g', hbuild, hdata, hbuild', hdata', ?_⟩
  intro p q hpq v
  exact ((h p q hpq).2 v).trans (and_iff_left (hfeeds q))

/-- Bytecode that stores a variable, and then stores it again and loads it in one operation. -/
def restoring : Bytecode where
  name := .text "restoring"
  operations :=
    [{ name := "STORE_FAST", code := 125, argument := .text "x", offset := 0 },
      { name := "STORE_FAST_LOAD_FAST", code := 300,
        argument := .tuple [.text "x", .text "x"], offset := 2 },
      { name := "RETURN_VALUE", code := 83, argument := .none, offset := 4 }]
  firstIdent := 0

theorem restoring_proper : restoring.Proper :=
  proper_of_check (by decide) (by decide) (by decide)

theorem restoring_untargeted : restoring.Untargeted oddOffsets := by
  refine ⟨by decide, fun o ho hjumps => ?_⟩
  have hstraight : ∀ o ∈ restoring.operations, o.jumps restoring.jumpCodes = false := by decide
  exact absurd ((hstraight o ho).symm.trans hjumps) Bool.false_ne_true

/-- **An operation that feeds itself** depends on a store before it as long as it is one operation.
No half of it depends on that store: the load is supplied by the store just before it. -/
theorem restoring_relates_unexpanded :
    restoring.Proper ∧ restoring.Untargeted oddOffsets ∧
    ∃ f g f' g', (FlowGraph.build restoring.method 0 .none).result = .ok f ∧
      (f.dataDependence restoring.method.toDefUse).result = .ok g ∧
      (FlowGraph.build (restoring.expand oddOffsets).method 0 .none).result = .ok f' ∧
      (f'.dataDependence (restoring.expand oddOffsets).method.toDefUse).result = .ok g' ∧
      g.Relates 0 1 (.text "x") ∧
      ¬ ∃ p' q', restoring.origin? oddOffsets p' = some 0 ∧
        restoring.origin? oddOffsets q' = some 1 ∧ g'.Links p' q' := by
  have hb := restoring_proper
  have hfresh := restoring_untargeted
  obtain ⟨f, g, hbuild, hdata, -, hrelates⟩ := exists_relates_iff hb 0 .none
  obtain ⟨f', g', hbuild', hdata', hlinks', -⟩ := exists_relates_iff (hb.expand hfresh) 0 .none
  refine ⟨hb, hfresh, f, g, f', g', hbuild, hdata, hbuild', hdata', (hrelates 0 1 _).2 ?_, ?_⟩
  · have hdefines : restoring.Defines 0 (.text "x") :=
      ⟨_, rfl, .text "x", List.mem_singleton_self _, BEq.rfl⟩
    have huses : restoring.Uses 1 (.text "x") :=
      ⟨_, rfl, .text "x", List.mem_singleton_self _, BEq.rfl⟩
    exact ⟨Nat.zero_ne_one, .refl, hdefines, huses, 0, .refl, [1], rfl, List.mem_singleton_self 1⟩
  · rintro ⟨p', q', hp, hq, hlinks⟩
    obtain ⟨-, v, hsup⟩ := (hlinks' p' q').1 hlinks
    have hfeeds : restoring.FeedsItself 1 := ⟨_, _, _, rfl, rfl, rfl, BEq.rfl⟩
    exact (supplies_of_expand hb hfresh Nat.zero_ne_one hp hq hsup).2 hfeeds

end Bytecode

end Dependence
