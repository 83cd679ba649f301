import Dependence.Dominance.Table
import Mathlib.Logic.Function.Basic
import Mathlib.Tactic.ByContra
import Mathlib.Tactic.Linarith

/-!
# Chains of a dominator table

A table names for each number a smaller one, except at the head, so climbing from a number ends at
the head. The numbers met on the way are its chain (`OnChain`). Chains make the table a tree: two
numbers of one chain lie on one another's chain, in the order of the numbers.

The finger walk is read through chains. What it finds is on both chains, and its own chain is all
that the two have in common (`Table.intersect_spec`); nothing else about the walk is used later.
The same holds of the walk over a whole list of predecessors (`Table.nearest_spec`).

* `Falling` — each step of a climb goes down;
* `onChain_congr` — a chain does not see changes away from it;
* `Table.Ranked` — the tables that come from a numbering;
* `Table.intersect_spec`, `Table.nearest_spec` — nearest common dominators.
-/

namespace Dependence

/-! ### Chains -/

/-- Climbing from a number along `up` meets `a`. -/
inductive OnChain (up : ℕ → ℕ) (a : ℕ) : ℕ → Prop
  | here : OnChain up a a
  | above {i : ℕ} (h : OnChain up a (up i)) : OnChain up a i

/-- Each number leads to a smaller one, except the head, which leads to itself. -/
structure Falling (up : ℕ → ℕ) : Prop where
  head : up 0 = 0
  lt : ∀ i, 0 < i → up i < i

/-- The chain of `i` is `i` itself, and the chain of `up i`. -/
theorem onChain_iff {up : ℕ → ℕ} {a i : ℕ} : OnChain up a i ↔ a = i ∨ OnChain up a (up i) := by
  constructor
  · intro h
    cases h with
    | here => exact .inl rfl
    | above h => exact .inr h
  · rintro (rfl | h)
    · exact .here
    · exact .above h

theorem OnChain.trans {up : ℕ → ℕ} {a b c : ℕ} (hab : OnChain up a b) (hbc : OnChain up b c) :
    OnChain up a c := by
  induction hbc with
  | here => exact hab
  | above _ ih => exact .above ih

section Falling

variable {up : ℕ → ℕ} (hup : Falling up)

include hup

theorem Falling.le (i : ℕ) : up i ≤ i := by
  rcases Nat.eq_zero_or_pos i with rfl | hi
  · exact hup.head.le
  · exact (hup.lt i hi).le

theorem OnChain.le {a i : ℕ} (h : OnChain up a i) : a ≤ i := by
  induction h with
  | here => exact le_rfl
  | above _ ih => exact ih.trans (hup.le _)

/-- The chain of the head is the head. -/
theorem onChain_head_iff {a : ℕ} : OnChain up a 0 ↔ a = 0 :=
  ⟨fun h => Nat.le_zero.1 (h.le hup), fun h => h ▸ .here⟩

/-- **A chain is linear.** Of two numbers on one chain, the smaller is on the chain of the
larger. -/
theorem OnChain.of_le {a b i : ℕ} (ha : OnChain up a i) (hb : OnChain up b i) (hab : a ≤ b) :
    OnChain up a b := by
  -- on the climb from `i` to `b`: `a` is not passed before `b` is
  induction hb with
  | here => exact ha
  | @above i hb ih =>
    rcases onChain_iff.1 ha with rfl | ha
    · -- `a` is the start of the chain, where `b` is only if the two are equal
      obtain rfl : a = b := le_antisymm hab ((OnChain.above hb).le hup)
      exact .here
    · exact ih ha

/-- **Chains and changes.** Whether `a` is on a chain only depends on what the numbers above `a`
lead to, up to the start of the chain. -/
theorem onChain_congr {up' : ℕ → ℕ} (hup' : Falling up') {a i : ℕ}
    (h : ∀ j, a < j → j ≤ i → up j = up' j) : OnChain up a i ↔ OnChain up' a i := by
  -- the two climbs make the same step as long as they are above `a`, and neither comes back
  induction i using Nat.strong_induction_on with
  | _ i ih =>
    by_cases hai : a < i
    · have hi : 0 < i := Nat.zero_lt_of_lt hai
      have hstep : up i = up' i := h i hai le_rfl
      rw [onChain_iff, onChain_iff (i := i), ← hstep,
        ih (up i) (hup.lt i hi) fun j hj hji => h j hj (hji.trans (hup.le i))]
    · -- a chain that starts at or below `a` has `a` just if it starts there
      constructor
      · intro hc
        obtain rfl : a = i := le_antisymm (hc.le hup) (not_lt.1 hai)
        exact .here
      · intro hc
        obtain rfl : a = i := le_antisymm (hc.le hup') (not_lt.1 hai)
        exact .here

end Falling

/-! ### Tables -/

namespace Table

/-- What `i` leads to in `t`; the head where there is no entry. -/
def up (t : Table) (i : ℕ) : ℕ := ((t[i]?.getD none).getD 0).toNat

/-- The tables that come from a numbering: the head leads to itself, and every other entry is a
smaller number that has an entry too. -/
structure Ranked (t : Table) : Prop where
  head : t[0]? = some (some 0)
  entry : ∀ (i : ℕ) (d : ℤ), 0 < i → t[i]? = some (some d) →
    ∃ k : ℕ, d = k ∧ k < i ∧ t.known k = true

theorem known_iff {t : Table} {i : ℕ} : t.known i = true ↔ ∃ d, t[i]? = some (some d) := by
  unfold known
  cases h : t[i]? with
  | none => simp
  | some e => cases e <;> simp

theorem lt_size_of_known {t : Table} {i : ℕ} (h : t.known i = true) : i < t.size := by
  obtain ⟨d, hd⟩ := known_iff.1 h
  exact (Array.getElem?_eq_some_iff.1 hd).1

theorem up_of_not_known {t : Table} {i : ℕ} (h : ¬ t.known i = true) : t.up i = 0 := by
  unfold up
  unfold known at h
  cases hd : t[i]?.getD none with
  | none => rfl
  | some d => simp [hd] at h

namespace Ranked

variable {t : Table} (ht : t.Ranked)

include ht

theorem known_head : t.known 0 = true := known_iff.2 ⟨0, ht.head⟩

/-- The entry of a number that has one. -/
theorem getElem?_of_known {i : ℕ} (h : t.known i = true) : t[i]? = some (some (t.up i : ℤ)) := by
  obtain ⟨d, hd⟩ := known_iff.1 h
  have hup : t.up i = d.toNat := by simp [up, hd]
  rcases Nat.eq_zero_or_pos i with rfl | hi
  · obtain rfl : (0 : ℤ) = d := by simpa [ht.head] using hd
    rw [hd, hup]
    rfl
  · obtain ⟨k, rfl, -, -⟩ := ht.entry i d hi hd
    rw [hd, hup, Int.toNat_natCast]

theorem known_up {i : ℕ} (h : t.known i = true) : t.known (t.up i) = true := by
  rcases Nat.eq_zero_or_pos i with rfl | hi
  · have hup : t.up 0 = 0 := by simp [up, ht.head]
    rw [hup]
    exact ht.known_head
  · obtain ⟨k, hk, -, hknown⟩ := ht.entry i _ hi (ht.getElem?_of_known h)
    rwa [Int.ofNat_inj.1 hk]

theorem falling : Falling t.up where
  head := by simp [up, ht.head]
  lt i hi := by
    by_cases h : t.known i = true
    · obtain ⟨k, hk, hlt, -⟩ := ht.entry i _ hi (ht.getElem?_of_known h)
      rwa [Int.ofNat_inj.1 hk]
    · rwa [up_of_not_known h]

/-- What is on the chain of a number with an entry has an entry. -/
theorem known_of_onChain {a i : ℕ} (h : OnChain t.up a i) (hi : t.known i = true) :
    t.known a = true := by
  induction h with
  | here => exact hi
  | above _ ih => exact ih (ht.known_up hi)

/-- `climb` moves a finger at a number with an entry to that entry. -/
theorem climb_eq {i : ℕ} (h : t.known i = true) : t.climb i = .ok (t.up i : ℤ) := by
  have hentry : t.entry? i = some (some (t.up i : ℤ)) := by
    simp [ entry?, ht.getElem?_of_known h]
  simp only [climb, hentry]

/-! ### The finger walk -/

/-- `meet`: two fingers meet at a number whose chain is what their chains have in common. -/
theorem meet_spec {moves a b : ℕ} (ha : t.known a = true) (hb : t.known b = true)
    (hmoves : a + b < moves) :
    ∃ m : ℕ, t.meet moves a b = .ok (m : ℤ) ∧
      ∀ x, OnChain t.up x m ↔ OnChain t.up x a ∧ OnChain t.up x b := by
  -- every move lowers the sum of the fingers, so the moves do not run out
  induction moves generalizing a b with
  | zero => omega
  | succ moves ih =>
    by_cases hab : a = b
    · subst hab
      exact ⟨a, by simp [meet], fun x => and_self_iff.symm⟩
    have hne : (a : ℤ) ≠ b := fun h => hab (Int.ofNat_inj.1 h)
    by_cases hba : b < a
    · -- the first finger moves; nothing that is lost can be on the chain of the second
      have hlt := ht.falling.lt a (Nat.zero_lt_of_lt hba)
      obtain ⟨m, hm, hx⟩ := ih (ht.known_up ha) hb (by omega)
      refine ⟨m, ?_, fun x => ?_⟩
      · have hcast : (b : ℤ) < a := Int.ofNat_lt.2 hba
        rw [meet, if_neg hne, if_pos hcast, ht.climb_eq ha]
        exact hm
      · rw [hx, onChain_iff (i := a)]
        refine ⟨fun h => ⟨.inr h.1, h.2⟩, fun h => ⟨h.1.resolve_left ?_, h.2⟩⟩
        rintro rfl
        exact absurd (h.2.le ht.falling) (not_le.2 hba)
    · -- the second finger moves, being the larger one
      have hlt := ht.falling.lt b (by omega)
      obtain ⟨m, hm, hx⟩ := ih ha (ht.known_up hb) (by omega)
      refine ⟨m, ?_, fun x => ?_⟩
      · have hcast : ¬ (b : ℤ) < a := fun h => hba (Int.ofNat_lt.1 h)
        rw [meet, if_neg hne, if_neg hcast, ht.climb_eq hb]
        exact hm
      · rw [hx, onChain_iff (i := b)]
        refine ⟨fun h => ⟨h.1, .inr h.2⟩, fun h => ⟨h.1, h.2.resolve_left ?_⟩⟩
        rintro rfl
        exact hba (lt_of_le_of_ne (h.1.le ht.falling) (Ne.symm hab))

/-- **`intersect`**, the nearest common dominator of two numbers: its chain is what the two chains
have in common. -/
theorem intersect_spec {a b : ℕ} (ha : t.known a = true) (hb : t.known b = true) :
    ∃ m : ℕ, t.intersect a b = .ok (m : ℤ) ∧
      ∀ x, OnChain t.up x m ↔ OnChain t.up x a ∧ OnChain t.up x b := by
  -- both numbers are below the size of the table, so the moves are enough
  have hsize_a := lt_size_of_known ha
  have hsize_b := lt_size_of_known hb
  exact ht.meet_spec ha hb (by nlinarith)

/-- `intersect` along a list of predecessors, from the number `first` found so far. -/
theorem foldlM_intersect_spec {ps : List ℕ} {first : ℕ} (hfirst : t.known first = true)
    (hps : ∀ p ∈ ps, t.known p = true) :
    ∃ m : ℕ, ps.foldlM (fun d (p : ℕ) => t.intersect d p) (first : ℤ) = .ok (m : ℤ) ∧
      ∀ x, OnChain t.up x m ↔ OnChain t.up x first ∧ ∀ p ∈ ps, OnChain t.up x p := by
  induction ps generalizing first with
  | nil => exact ⟨first, rfl, fun x => by simp⟩
  | cons p ps ih =>
    obtain ⟨m, hm, hx⟩ := ht.intersect_spec hfirst (hps p List.mem_cons_self)
    -- the number found is on the chain of `first`, so the walk can go on from it
    have hknown : t.known m = true :=
      ht.known_of_onChain ((hx m).1 .here).1 hfirst
    obtain ⟨k, hk, hy⟩ := ih hknown fun q hq => hps q (List.mem_cons_of_mem _ hq)
    refine ⟨k, ?_, fun x => ?_⟩
    · rw [List.foldlM_cons, hm]
      exact hk
    · rw [hy, hx, and_assoc, List.forall_mem_cons]

/-- **`nearest`**, the nearest common dominator of the predecessors that have an entry, if there are
any: its chain is what all their chains have in common. -/
theorem nearest_spec {ps : List ℕ} (h : ∃ p ∈ ps, t.known p = true) :
    ∃ m : ℕ, t.nearest ps = .ok (m : ℤ) ∧
      ∀ x, OnChain t.up x m ↔ ∀ p ∈ ps, t.known p = true → OnChain t.up x p := by
  have hmem : ∀ p, p ∈ ps.filter t.known ↔ p ∈ ps ∧ t.known p = true := fun p => List.mem_filter
  cases hps : ps.filter t.known with
  | nil =>
    -- some predecessor has an entry
    obtain ⟨p, hp, hknown⟩ := h
    have := (hmem p).2 ⟨hp, hknown⟩
    simp [hps] at this
  | cons first rest =>
    rw [hps] at hmem
    have hknown : ∀ p ∈ first :: rest, t.known p = true := fun p hp => ((hmem p).1 hp).2
    obtain ⟨hfirst, hrest⟩ := List.forall_mem_cons.1 hknown
    obtain ⟨m, hm, hx⟩ := ht.foldlM_intersect_spec hfirst hrest
    refine ⟨m, by simpa only [nearest, hps] using hm, fun x => ?_⟩
    rw [hx, ← List.forall_mem_cons (p := fun p => OnChain t.up x p)]
    exact ⟨fun hc p hp hk => hc p ((hmem p).2 ⟨hp, hk⟩),
      fun hc p hp => hc p ((hmem p).1 hp).1 ((hmem p).1 hp).2⟩

end Ranked

end Table

end Dependence
