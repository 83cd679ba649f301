import Dependence.Proofs.Dominance.Chain
import Dependence.Proofs.Path
import Mathlib.Algebra.Order.BigOperators.Group.Finset

/-!
# Refinement reaches the dominators

A table is refined entry by entry: each number takes the nearest common dominator of those of its
predecessors that have an entry. In between the table is not the table of dominators of any graph,
since a change of one entry moves every chain that passes through it. What holds at each moment is
collected in `Underway`, for a pass that has come to the number `x`:

* `above` — what the chains of all predecessors share is already on the chain of a number. So a new
  entry lies on the chain of the old one, and chains only ever shrink;
* `beside` — the chain of a number, as far as it has not been visited by the pass, is part of the
  chain of an earlier predecessor. This is what keeps `above` when an entry far up is changed;
* `reach` — the entry of a number leads to it through larger numbers only;
* `dominators` — every dominator of a number is on its chain.

One update keeps all of them (`Underway.update`), and lowers the weight of the table unless it
leaves it alone. Hence the passes end, at a table that no update changes (`Table.settle_spec`), and
such a table has exactly the dominators on its chains (`Table.ofPredecessors_spec`).
-/

namespace Dependence

open Relation Finset

/-- The number `p` is among the predecessors of the number `i`. -/
def Precedes (preds : List (List ℕ)) (p i : ℕ) : Prop := p ∈ preds.getD i []

/-- What a numbering from a head gives: predecessors are numbers, and each number but the head has
one before it. -/
structure Numbering (preds : List (List ℕ)) : Prop where
  bounded : ∀ p i, Precedes preds p i → p < preds.length
  earlier : ∀ i, 0 < i → i < preds.length → ∃ p, Precedes preds p i ∧ p < i

namespace Table

/-! ### Setting an entry -/

/-- The table `t` with `m` as the entry of `x`. -/
def put (t : Table) (x m : ℕ) : Table := t.setIfInBounds x (some (m : ℤ))

section Put

variable {t : Table} {x m : ℕ}

theorem getElem?_put (hx : x < t.size) (i : ℕ) :
    (t.put x m)[i]? = if x = i then some (some (m : ℤ)) else t[i]? := by
  rw [put, Array.getElem?_setIfInBounds, if_pos hx]

@[simp] theorem size_put : (t.put x m).size = t.size := Array.size_setIfInBounds

theorem up_put (hx : x < t.size) : (t.put x m).up = Function.update t.up x m := by
  funext i
  by_cases hi : i = x
  · subst hi
    simp [up, getElem?_put hx]
  · simp [up, getElem?_put hx, Ne.symm hi, hi]

theorem known_put (hx : x < t.size) {i : ℕ} :
    (t.put x m).known i = true ↔ i = x ∨ t.known i = true := by
  by_cases hi : i = x
  · subst hi
    simp [known, getElem?_put hx]
  · simp [known, getElem?_put hx, Ne.symm hi, hi]

theorem Ranked.put (ht : t.Ranked) (hx : x < t.size) (hpos : 0 < x) (hm : m < x)
    (hknown : t.known m = true) : (t.put x m).Ranked where
  head := by
    rw [getElem?_put hx, if_neg hpos.ne']
    exact ht.head
  entry i d hi hd := by
    rw [getElem?_put hx] at hd
    by_cases hxi : x = i
    · -- the new entry is a smaller number with an entry, by assumption
      subst hxi
      obtain rfl : (m : ℤ) = d := by simpa using hd
      exact ⟨m, rfl, hm, (known_put hx).2 (.inr hknown)⟩
    · rw [if_neg hxi] at hd
      obtain ⟨k, hk, hlt, hkn⟩ := ht.entry i d hi hd
      exact ⟨k, hk, hlt, (known_put hx).2 (.inr hkn)⟩

/-- Setting the entry that is there changes nothing. -/
theorem Ranked.put_up (ht : t.Ranked) (hx : t.known x = true) : t.put x (t.up x) = t := by
  apply Array.ext_getElem?
  intro i
  rw [getElem?_put (lt_size_of_known hx)]
  by_cases hxi : x = i
  · subst hxi
    rw [if_pos rfl, ht.getElem?_of_known hx]
  · rw [if_neg hxi]

end Put

/-! ### A pass under way -/

/-- What holds of a table when a pass has come to the number `x`. -/
structure Underway (preds : List (List ℕ)) (x : ℕ) (t : Table) : Prop where
  size : t.size = preds.length
  ranked : t.Ranked
  known : ∀ i, i < x → i < preds.length → t.known i = true
  /-- What the chains of all predecessors share is on the chain. -/
  above : ∀ i, 0 < i → t.known i = true → ∀ a,
    (∀ p, Precedes preds p i → t.known p = true → OnChain t.up a p) → OnChain t.up a (t.up i)
  /-- An earlier predecessor has the chain on its own, as far as the pass has not changed it. -/
  beside : ∀ i, 0 < i → t.known i = true → ∃ p, Precedes preds p i ∧ p < i ∧ t.known p = true ∧
    ∀ a, (i < x ∨ x ≤ a) → OnChain t.up a (t.up i) → OnChain t.up a p
  /-- An entry leads to its number through larger numbers. -/
  reach : ∀ i, 0 < i → t.known i = true →
    ReflTransGen (fun u v => Precedes preds u v ∧ t.up i < v) (t.up i) i
  /-- Dominators are on the chain. -/
  dominators : ∀ i a, t.known i = true → Dominates (Precedes preds) 0 a i → OnChain t.up a i

namespace Underway

variable {preds : List (List ℕ)} {x : ℕ} {t : Table}

/-- What is on the chain of `i` leads to `i` through larger numbers. -/
theorem reach_of_onChain (h : Underway preds x t) {a i : ℕ} (hai : OnChain t.up a i)
    (hi : t.known i = true) : ReflTransGen (fun u v => Precedes preds u v ∧ a < v) a i := by
  -- up the chain: the ways from entry to number are put end to end
  induction hai with
  | here => exact .refl
  | @above i hai ih =>
    have hup := ih (h.ranked.known_up hi)
    rcases Nat.eq_zero_or_pos i with rfl | hpos
    · rwa [h.ranked.falling.head] at hup
    · have hle : a ≤ t.up i := hai.le h.ranked.falling
      exact hup.trans (ReflTransGen.mono (fun u v hs => ⟨hs.1, hle.trans_lt hs.2⟩) _ _
        (h.reach i hpos hi))

/-- A table at the end of a pass can be taken up again at any number. -/
theorem rewind (h : Underway preds preds.length t) (x : ℕ) : Underway preds x t :=
  { h with
    known := fun i _ hi => h.known i hi hi
    beside := fun i hpos hi => by
      obtain ⟨p, hp, hlt, hknown, hchain⟩ := h.beside i hpos hi
      have hlen : i < preds.length := h.size ▸ lt_size_of_known hi
      exact ⟨p, hp, hlt, hknown, fun a _ => hchain a (.inl hlen)⟩ }

/-- `start`, where only the head has an entry. -/
theorem start (hpos : 0 < preds.length) : Underway preds 1 (start preds.length) := by
  have hget : ∀ i : ℕ, (Table.start preds.length)[i]? =
      if 0 = i then some (some 0) else if i < preds.length then some none else none := by
    intro i
    rw [Table.start, Array.getElem?_setIfInBounds, Array.getElem?_replicate, Array.size_replicate,
      if_pos hpos]
  have hknown : ∀ i, (Table.start preds.length).known i = true ↔ i = 0 := by
    intro i
    rw [known_iff]
    constructor
    · rintro ⟨d, hd⟩
      by_contra hi
      rw [hget, if_neg (Ne.symm hi)] at hd
      split at hd <;> simp at hd
    · rintro rfl
      exact ⟨0, by rw [hget, if_pos rfl]⟩
  -- only the head has an entry, so there is nothing to say about the other numbers
  have hnone : ∀ {i}, 0 < i → ¬ (Table.start preds.length).known i = true := fun hi h =>
    hi.ne' ((hknown _).1 h)
  refine ⟨by simp [Table.start], ⟨by rw [hget, if_pos rfl], fun i d hi hd => ?_⟩, fun i hi _ => ?_,
    fun i hi h => absurd h (hnone hi), fun i hi h => absurd h (hnone hi),
    fun i hi h => absurd h (hnone hi), fun i a h hdom => ?_⟩
  · exact absurd (known_iff.2 ⟨d, hd⟩) (hnone hi)
  · exact (hknown i).2 (by omega)
  · obtain rfl := (hknown i).1 h
    obtain rfl := List.mem_singleton.1 (hdom [0] (.here 0))
    exact .here

/-- Some predecessor stands before `x`, and the pass has been there. -/
theorem exists_earlier (h : Underway preds x t) (hn : Numbering preds) (hpos : 0 < x)
    (hx : x < preds.length) : ∃ p, Precedes preds p x ∧ p < x ∧ t.known p = true := by
  obtain ⟨p, hp, hlt⟩ := hn.earlier x hpos hx
  exact ⟨p, hp, hlt, h.known p hlt (hlt.trans hx)⟩

end Underway

/-! ### One update -/

/-- A pass that sets the entry of `x` to `m`, the nearest common dominator of the predecessors. -/
structure Updating (preds : List (List ℕ)) (x m : ℕ) (t : Table) : Prop
    extends Underway preds x t where
  pos : 0 < x
  lt : x < preds.length
  /-- Some predecessor stands before `x`. -/
  earlier : ∃ p, Precedes preds p x ∧ p < x ∧ t.known p = true
  /-- The chain of `m` is what the chains of the predecessors share. -/
  meets : ∀ a, OnChain t.up a m ↔ ∀ p, Precedes preds p x → t.known p = true → OnChain t.up a p

/-- **What `update` computes.** -/
theorem Underway.update_eq {preds : List (List ℕ)} {x : ℕ} {t : Table} (h : Underway preds x t)
    (hn : Numbering preds) (hpos : 0 < x) (hx : x < preds.length) :
    ∃ m, t.update (preds.getD x [], x) = .ok (t.put x m) ∧ Updating preds x m t := by
  obtain ⟨p, hp, hpx, hknown⟩ := h.exists_earlier hn hpos hx
  obtain ⟨m, hm, hchain⟩ := h.ranked.nearest_spec ⟨p, hp, hknown⟩
  refine ⟨m, ?_, ⟨h, hpos, hx, ⟨p, hp, hpx, hknown⟩, hchain⟩⟩
  simp only [Table.update, hm]
  rfl

namespace Updating

variable {preds : List (List ℕ)} {x m : ℕ} {t : Table} (h : Updating preds x m t)

include h

theorem lt_size : x < t.size := h.size ▸ h.lt

/-- The new entry `m` is smaller than `x`, and has an entry. -/
theorem meets_lt : m < x ∧ t.known m = true := by
  obtain ⟨p, hp, hlt, hknown⟩ := h.earlier
  have hmp : OnChain t.up m p := (h.meets m).1 .here p hp hknown
  exact ⟨(hmp.le h.ranked.falling).trans_lt hlt, h.ranked.known_of_onChain hmp hknown⟩

/-- The new entry `m` lies on the chain of the old one. -/
theorem meets_onChain (hknown : t.known x = true) : OnChain t.up m (t.up x) :=
  h.above x h.pos hknown m ((h.meets m).1 .here)

theorem up_eq : (t.put x m).up = Function.update t.up x m := up_put h.lt_size

theorem up_self : (t.put x m).up x = m := by rw [h.up_eq, Function.update_self]

theorem up_of_ne {i : ℕ} (hi : i ≠ x) : (t.put x m).up i = t.up i := by
  rw [h.up_eq, Function.update_of_ne hi]

theorem known_of_ne {i : ℕ} (hi : i ≠ x) (hk : (t.put x m).known i = true) : t.known i = true :=
  ((known_put h.lt_size).1 hk).resolve_left hi

theorem ranked_put : (t.put x m).Ranked :=
  h.ranked.put h.lt_size h.pos h.meets_lt.1 h.meets_lt.2

/-- Chains that end at `x` or later, and chains that start before `x`, are as they were. -/
theorem onChain_put_iff {a i : ℕ} (hai : x ≤ a ∨ i < x) :
    OnChain (t.put x m).up a i ↔ OnChain t.up a i := by
  refine onChain_congr h.ranked_put.falling h.ranked.falling fun j hj hji => ?_
  exact h.up_of_ne (by omega)

/-- A chain that does not pass through `x` is as it was. -/
theorem onChain_put_of_not {a i : ℕ} (hxi : ¬ OnChain t.up x i) (hai : OnChain t.up a i) :
    OnChain (t.put x m).up a i := by
  induction hai with
  | here => exact .here
  | @above i _ ih =>
    -- no number on the way is `x`, whose entry alone was changed
    have hne : i ≠ x := fun he => hxi (he ▸ .here)
    rw [onChain_iff, h.up_of_ne hne]
    exact .inr (ih fun hc => hxi (.above hc))

/-- **Chains shrink** when `m` is put. -/
theorem onChain_of_put {a i : ℕ} (hi : t.known i = true)
    (hai : OnChain (t.put x m).up a i) : OnChain t.up a i := by
  induction hai with
  | here => exact .here
  | @above i hai ih =>
    by_cases hix : i = x
    · subst hix
      -- the new entry is on the old chain
      rw [h.up_self] at ih
      exact .above ((ih h.meets_lt.2).trans (h.meets_onChain hi))
    · rw [h.up_of_ne hix] at ih
      exact .above (ih (h.ranked.known_up hi))

/-- After an update, what all predecessors share is still on the chain of every number. -/
theorem above_put (i : ℕ) (hi : 0 < i) (hknown : (t.put x m).known i = true) (a : ℕ)
    (ha : ∀ p, Precedes preds p i → (t.put x m).known p = true → OnChain (t.put x m).up a p) :
    OnChain (t.put x m).up a ((t.put x m).up i) := by
  -- chains have shrunk, so what they share now they shared before
  have hold : ∀ p, Precedes preds p i → t.known p = true → OnChain t.up a p := fun p hp hpk =>
    h.onChain_of_put hpk (ha p hp ((known_put h.lt_size).2 (.inr hpk)))
  by_cases hix : i = x
  · subst hix
    rw [h.up_self, h.onChain_put_iff (.inr h.meets_lt.1)]
    exact (h.meets a).2 hold
  have hik : t.known i = true := h.known_of_ne hix hknown
  have hchain : OnChain t.up a (t.up i) := h.above i hi hik a hold
  rw [h.up_of_ne hix]
  by_cases hxa : x ≤ a
  · exact (h.onChain_put_iff (.inl hxa)).2 hchain
  by_cases hxi : OnChain t.up x (t.up i)
  · -- the chain passes through `x`, and so does that of an earlier predecessor, which has `a`
    obtain ⟨p, hp, -, hpk, hbeside⟩ := h.beside i hi hik
    have hxp : OnChain (t.put x m).up x p :=
      (h.onChain_put_iff (.inl le_rfl)).2 (hbeside x (.inr le_rfl) hxi)
    have hap : OnChain (t.put x m).up a p := ha p hp ((known_put h.lt_size).2 (.inr hpk))
    have hax : OnChain (t.put x m).up a x :=
      hap.of_le h.ranked_put.falling hxp (not_le.1 hxa).le
    exact hax.trans ((h.onChain_put_iff (.inl le_rfl)).2 hxi)
  · exact h.onChain_put_of_not hxi hchain

/-- After an update, dominators are still on the chains. -/
theorem dominators_put (i a : ℕ) (hknown : (t.put x m).known i = true)
    (hdom : Dominates (Precedes preds) 0 a i) : OnChain (t.put x m).up a i := by
  -- a dominator of `x` dominates all predecessors, so it is on the chain of the new entry
  have hself : Dominates (Precedes preds) 0 a x → OnChain (t.put x m).up a x := by
    intro hax
    by_cases hne : a = x
    · exact hne ▸ .here
    refine .above ?_
    rw [h.up_self, h.onChain_put_iff (.inr h.meets_lt.1)]
    exact (h.meets a).2 fun p hp hpk => h.dominators p a hpk (hax.of_step hne hp)
  by_cases hix : i = x
  · exact hix ▸ hself (hix ▸ hdom)
  have hik : t.known i = true := h.known_of_ne hix hknown
  have hchain : OnChain t.up a i := h.dominators i a hik hdom
  by_cases hxa : x ≤ a
  · exact (h.onChain_put_iff (.inl hxa)).2 hchain
  by_cases hxi : OnChain t.up x i
  · -- `x` leads to `i` through larger numbers, hence around `a`
    have hway : ReflTransGen (Around (Precedes preds) a) x i :=
      ReflTransGen.mono (fun u v hs => ⟨hs.1, ((not_le.1 hxa).trans hs.2).ne'⟩) _ _
        (h.reach_of_onChain hxi hik)
    exact (hself (hdom.of_around hway)).trans
      ((h.onChain_put_iff (.inl le_rfl)).2 hxi)
  · exact h.onChain_put_of_not hxi hchain

/-- After an update, an earlier predecessor still has the chain of a number on its own; that of `x`
now counts as visited. -/
theorem beside_put (i : ℕ) (hi : 0 < i) (hknown : (t.put x m).known i = true) :
    ∃ p, Precedes preds p i ∧ p < i ∧ (t.put x m).known p = true ∧
      ∀ a, (i < x + 1 ∨ x + 1 ≤ a) → OnChain (t.put x m).up a ((t.put x m).up i) →
        OnChain (t.put x m).up a p := by
  by_cases hix : i = x
  · -- the new entry is on the chains of all predecessors, and these lie before `x`
    subst hix
    obtain ⟨p, hp, hpx, hpk⟩ := h.earlier
    refine ⟨p, hp, hpx, (known_put h.lt_size).2 (.inr hpk), fun a _ ha => ?_⟩
    rw [h.up_self, h.onChain_put_iff (.inr h.meets_lt.1)] at ha
    exact (h.onChain_put_iff (.inr hpx)).2 ((h.meets a).1 ha p hp hpk)
  · obtain ⟨p, hp, hpi, hpk, hchain⟩ := h.beside i hi (h.known_of_ne hix hknown)
    refine ⟨p, hp, hpi, (known_put h.lt_size).2 (.inr hpk), fun a hia ha => ?_⟩
    rw [h.up_of_ne hix] at ha
    have hle := h.ranked.falling.le i
    rcases hia with hia | hia
    · -- the number was visited before, so both chains lie before `x`
      have hlt : i < x := by omega
      rw [h.onChain_put_iff (.inr (by omega))] at ha ⊢
      exact hchain a (.inl hlt) ha
    · rw [h.onChain_put_iff (.inl (by omega))] at ha ⊢
      exact hchain a (.inr (by omega)) ha

/-- After an update, every entry still leads to its number through larger numbers. -/
theorem reach_put (i : ℕ) (hi : 0 < i) (hknown : (t.put x m).known i = true) :
    ReflTransGen (fun u v => Precedes preds u v ∧ (t.put x m).up i < v) ((t.put x m).up i) i := by
  by_cases hix : i = x
  · -- the new entry leads to an earlier predecessor, and that one to `x`
    subst hix
    obtain ⟨p, hp, -, hpk⟩ := h.earlier
    have hmp : OnChain t.up m p := (h.meets m).1 .here p hp hpk
    rw [h.up_self]
    exact (h.reach_of_onChain hmp hpk).tail ⟨hp, h.meets_lt.1⟩
  · rw [h.up_of_ne hix]
    exact h.reach i hi (h.known_of_ne hix hknown)

/-- **One `update`** takes the pass one number further. -/
theorem underway : Underway preds (x + 1) (t.put x m) where
  size := size_put.trans h.size
  ranked := h.ranked_put
  known i hi hlen := by
    rw [known_put h.lt_size]
    rcases Nat.lt_succ_iff_lt_or_eq.1 hi with hi | hi
    · exact .inr (h.known i hi hlen)
    · exact .inl hi
  above := h.above_put
  beside := h.beside_put
  reach := h.reach_put
  dominators := h.dominators_put

end Updating

/-! ### Passes end -/

/-- The weight of a table: entries count as they are, a missing one as more than any entry. -/
def weight (count : ℕ) (t : Table) : ℕ :=
  ∑ i ∈ range count, if t.known i = true then t.up i else count

theorem weight_le (count : ℕ) {t : Table} (ht : t.Ranked) : t.weight count ≤ count * count := by
  have hterm : ∀ i ∈ range count, (if t.known i = true then t.up i else count) ≤ count := by
    intro i hi
    have hle := ht.falling.le i
    have hlt := mem_range.1 hi
    split <;> omega
  simpa [weight] using sum_le_card_nsmul (range count) _ count hterm

/-- **An `update` lowers the `weight`**, or changes nothing. -/
theorem Updating.weight_put {preds : List (List ℕ)} {x m : ℕ} {t : Table}
    (h : Updating preds x m t) :
    (t.put x m).weight preds.length ≤ t.weight preds.length ∧
      ((t.put x m).weight preds.length = t.weight preds.length → t.put x m = t) := by
  -- no term of the sum grows: only that of `x` changes, and its entry moves up its own chain
  have hterm : ∀ i ∈ range preds.length,
      (if (t.put x m).known i = true then (t.put x m).up i else preds.length)
        ≤ if t.known i = true then t.up i else preds.length := by
    intro i _
    by_cases hi : i = x
    · subst hi
      rw [if_pos ((known_put h.lt_size).2 (.inl rfl)), h.up_self]
      split
      · exact (h.meets_onChain ‹_›).le h.ranked.falling
      · exact (h.meets_lt.1.trans h.lt).le
    · simp only [known_put h.lt_size, hi, false_or, h.up_of_ne hi, le_refl]
  refine ⟨sum_le_sum hterm, fun heq => ?_⟩
  -- equal sums have equal terms, so the entry of `x` was there and is kept
  have hx := (sum_eq_sum_iff_of_le hterm).1 heq x (mem_range.2 h.lt)
  rw [if_pos ((known_put h.lt_size).2 (.inl rfl)), h.up_self] at hx
  by_cases hknown : t.known x = true
  · rw [if_pos hknown] at hx
    rw [hx]
    exact h.ranked.put_up hknown
  · rw [if_neg hknown] at hx
    have hlt := h.meets_lt.1.trans h.lt
    omega

/-- A table that no `update` changes. -/
structure Settled (preds : List (List ℕ)) (t : Table) : Prop
    extends Underway preds preds.length t where
  fixed : ∀ i, 0 < i → i < preds.length → t.update (preds.getD i [], i) = .ok t

/-- The numbers from `x` on, each with its predecessors. -/
theorem drop_zipIdx (preds : List (List ℕ)) {x : ℕ} (hx : x < preds.length) :
    preds.zipIdx.drop x = (preds.getD x [], x) :: preds.zipIdx.drop (x + 1) := by
  rw [List.drop_eq_getElem_cons (by simpa using hx)]
  simp [hx]

/-- **The rest of a pass.** It succeeds, and keeps the weight only if no update on the way changes
the table. -/
theorem pass_spec {preds : List (List ℕ)} (hn : Numbering preds) {x : ℕ} {t : Table} (hpos : 0 < x)
    (hx : x ≤ preds.length) (h : Underway preds x t) :
    ∃ t', (preds.zipIdx.drop x).foldlM Table.update t = .ok t' ∧
      Underway preds preds.length t' ∧ t'.weight preds.length ≤ t.weight preds.length ∧
      (t'.weight preds.length = t.weight preds.length →
        t' = t ∧ ∀ i, x ≤ i → i < preds.length → t.update (preds.getD i [], i) = .ok t) := by
  -- on the numbers that the pass has not come to
  induction hk : preds.length - x generalizing x t with
  | zero =>
    obtain rfl : x = preds.length := by omega
    refine ⟨t, ?_, h, le_rfl, fun _ => ⟨rfl, fun i hi hlt => absurd hlt (not_lt.2 hi)⟩⟩
    rw [List.drop_eq_nil_of_le (by simp)]
    rfl
  | succ k ih =>
    have hlt : x < preds.length := by omega
    obtain ⟨m, hm, hu⟩ := h.update_eq hn hpos hlt
    obtain ⟨t', ht', hu', hle, heq⟩ :=
      ih (t := t.put x m) (Nat.succ_pos x) hlt hu.underway (by omega)
    obtain ⟨hle₁, heq₁⟩ := hu.weight_put
    refine ⟨t', ?_, hu', hle.trans hle₁, fun hw => ?_⟩
    · rw [drop_zipIdx preds hlt, List.foldlM_cons, hm]
      exact ht'
    · -- neither this update nor those after it change the weight
      have hput : t.put x m = t := heq₁ (le_antisymm hle₁ (hw ▸ hle))
      rw [hput] at hm heq
      obtain ⟨rfl, hrest⟩ := heq hw
      refine ⟨rfl, fun i hi hilt => ?_⟩
      -- the next number is the one updated here; the others are those of the rest of the pass
      rcases hi.eq_or_lt with rfl | hi
      · exact hm
      · exact hrest i hi hilt

/-- **`settle` ends** at a table that no update changes, in fewer passes than its weight. -/
theorem settle_spec {preds : List (List ℕ)} (hn : Numbering preds) (hlen : 0 < preds.length)
    {passes : ℕ} {t : Table} (h : Underway preds 1 t) (hp : t.weight preds.length < passes) :
    ∃ t', settle preds passes t = .ok t' ∧ Settled preds t' := by
  -- a pass that changes the table lowers its weight, and one that keeps the weight is the last
  induction passes generalizing t with
  | zero => omega
  | succ passes ih =>
    obtain ⟨t', ht', hu, hle, heq⟩ := pass_spec hn one_pos hlen h
    have hrefine : t.refine preds = .ok t' := ht'
    by_cases htt : t' = t
    · subst htt
      refine ⟨t', ?_, hu, fun i hi hlt => (heq rfl).2 i hi hlt⟩
      rw [settle, hrefine]
      simp [bind, Except.bind, pure, Except.pure]
    · have hlt : t'.weight preds.length < t.weight preds.length :=
        lt_of_le_of_ne hle fun hw => htt (heq hw).1
      obtain ⟨s, hs, hsettled⟩ := ih (hu.rewind 1) (by omega)
      refine ⟨s, ?_, hsettled⟩
      rw [settle, hrefine]
      simpa [bind, Except.bind, htt] using hs

/-! ### The settled table -/

namespace Settled

variable {preds : List (List ℕ)} {t : Table} (h : Settled preds t) (hn : Numbering preds)

include h

theorem known_of_lt {i : ℕ} (hi : i < preds.length) : t.known i = true := h.known i hi hi

include hn

/-- The entry of `i` is on the chain of each predecessor. -/
theorem onChain_up_of_precedes {p i : ℕ} (hi : 0 < i) (hlt : i < preds.length)
    (hp : Precedes preds p i) : OnChain t.up (t.up i) p := by
  obtain ⟨m, hm, hupd⟩ := (h.rewind i).update_eq hn hi hlt
  -- the update leaves the table alone, so it computes the entry that is there
  have hput : t.put i m = t := by simpa using hm.symm.trans (h.fixed i hi hlt)
  have hup : t.up i = m := by
    have := hupd.up_self
    rwa [hput] at this
  rw [hup]
  exact (hupd.meets m).1 .here p hp (h.known_of_lt (hn.bounded p i hp))

/-- What is on the chain of `i` dominates `i`. -/
theorem dominates_of_onChain {a i : ℕ} (hlt : i < preds.length) (hai : OnChain t.up a i) :
    Dominates (Precedes preds) 0 a i := by
  by_contra hdom
  obtain ⟨hne, hreach⟩ := not_dominates_iff.1 hdom
  -- no number that can be reached around `a` has `a` on its chain
  have hinv : ∀ j, ReflTransGen (Around (Precedes preds) a) 0 j → j < preds.length →
      ¬ OnChain t.up a j := by
    intro j hj
    induction hj with
    | refl =>
      intro _ hc
      exact hne ((onChain_head_iff h.ranked.falling).1 hc).symm
    | @tail p j _ hstep ih =>
      intro hjlt hc
      have hp : ¬ OnChain t.up a p := ih (hn.bounded p j hstep.1)
      rcases onChain_iff.1 hc with hc | hc
      · exact hstep.2 hc.symm
      · rcases Nat.eq_zero_or_pos j with rfl | hj
        · rw [h.ranked.falling.head] at hc
          exact hne ((onChain_head_iff h.ranked.falling).1 hc).symm
        · exact hp (hc.trans (h.onChain_up_of_precedes hn hj hjlt hstep.1))
  exact hinv i hreach hlt hai

/-- **The chains of a settled table are the dominators.** -/
theorem onChain_iff_dominates {a i : ℕ} (hlt : i < preds.length) :
    OnChain t.up a i ↔ Dominates (Precedes preds) 0 a i :=
  ⟨h.dominates_of_onChain hn hlt, h.dominators i a (h.known_of_lt hlt)⟩

end Settled

/-- **Refinement computes the dominators** of a numbering: it ends without a fault, at a table that
has an entry for every number and exactly the dominators of a number on its chain. -/
theorem ofPredecessors_spec {preds : List (List ℕ)} (hn : Numbering preds)
    (hlen : 0 < preds.length) : ∃ t, ofPredecessors preds = .ok t ∧ Settled preds t := by
  have hstart := Underway.start hlen
  have hweight := weight_le preds.length hstart.ranked
  exact settle_spec hn hlen hstart (by omega)

end Table

end Dependence
