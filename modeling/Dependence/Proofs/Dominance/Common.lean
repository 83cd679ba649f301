import Dependence.Proofs.Dominance.Termination
import Mathlib.Order.Bounds.Defs
import Mathlib.Tactic.IntervalCases

/-!
# Nearest common dominators are the meets of a tree

On a table that comes from a numbering, the chain of the number that `Table.intersect` finds is what
the chains of the two numbers have in common (`Table.Ranked.intersect_spec`). A number is the
largest of its chain, so chains tell numbers apart (`eq_of_onChain_iff`), and laws about what is
found are laws about common parts of chains: that these do not depend on the order in which chains
are taken, or on how they are bracketed, needs nothing about the walk.

* `Table.Ranked.intersect_assoc`, `Table.Ranked.nearest_perm` — bracketing and order do not matter;
* `Table.intersect_greatest` — the fingers meet, and where they do is the largest number that both
  chains have.
-/

namespace Dependence

open Relation

/-- A number is the largest of its `OnChain`, so its chain determines it. -/
theorem eq_of_onChain_iff {up : ℕ → ℕ} (hup : Falling up) {m k : ℕ}
    (h : ∀ x, OnChain up x m ↔ OnChain up x k) : m = k :=
  le_antisymm (((h m).1 .here).le hup) (((h k).2 .here).le hup)

namespace Table

namespace Ranked

variable {t : Table} (ht : t.Ranked)

include ht

/-- **`intersect` from numbers with entries**: the walk of the fingers ends, at a number with an
entry whose chain is what the chains of `a` and `b` have in common. -/
theorem intersect_run {a b : ℕ} (ha : t.known a = true) (hb : t.known b = true) :
    ∃ m : ℕ, t.intersect a b = .ok (m : ℤ) ∧ t.known m = true ∧
      (∀ x, OnChain t.up x m ↔ OnChain t.up x a ∧ OnChain t.up x b) ∧
      Terminates t.moveFinger (↑a, ↑b) ∧
      ReflTransGen (Moves t.moveFinger) (↑a, ↑b) (↑m, ↑m) := by
  obtain ⟨m, hm, hchain⟩ := ht.intersect_spec ha hb
  -- both fingers start within the table, so a walk of its size squared is long enough
  have hsize_a := lt_size_of_known ha
  have hsize_b := lt_size_of_known hb
  obtain ⟨hrun, hmet⟩ := ht.fingers_run ha hb (by nlinarith) hm
  have hend : t.moveFinger (↑m, ↑m) = .ok none := by simp [moveFinger]
  refine ⟨m, hm, ht.known_of_onChain ((hchain m).1 .here).1 ha, hchain, ?_, ?_⟩
  · exact (terminates_of_run hrun hmet hend).1
  · exact ReflTransGen.mono (fun _ _ hs => hs.2) _ _ hrun

/-- **The order of the two numbers does not matter**: "in common" is symmetric. -/
theorem intersect_comm {a b : ℕ} (ha : t.known a = true) (hb : t.known b = true) :
    t.intersect a b = t.intersect b a := by
  obtain ⟨m, hm, hx⟩ := ht.intersect_spec ha hb
  obtain ⟨k, hk, hy⟩ := ht.intersect_spec hb ha
  obtain rfl : m = k := eq_of_onChain_iff ht.falling fun x => by rw [hx, hy, and_comm]
  rw [hm, hk]

/-- **Bracketing does not matter**: either way, what is found is what three chains have in
common. -/
theorem intersect_assoc {a b c : ℕ} (ha : t.known a = true) (hb : t.known b = true)
    (hc : t.known c = true) :
    (t.intersect a b >>= fun d => t.intersect d c) =
      t.intersect b c >>= fun d => t.intersect a d := by
  -- `m` and `k` are found first, `m'` and `k'` in the end
  obtain ⟨m, hm, hmknown, hmchain, -⟩ := ht.intersect_run ha hb
  obtain ⟨k, hk, hkknown, hkchain, -⟩ := ht.intersect_run hb hc
  obtain ⟨m', hm', hm'chain⟩ := ht.intersect_spec hmknown hc
  obtain ⟨k', hk', hk'chain⟩ := ht.intersect_spec ha hkknown
  obtain rfl : m' = k' := eq_of_onChain_iff ht.falling fun x => by
    rw [hm'chain, hmchain, hk'chain, hkchain, and_assoc]
  rw [hm, hk, ok_bind, ok_bind, hm', hk']

/-- **The order of the predecessors does not matter** to `nearest`. -/
theorem nearest_perm {ps ps' : List ℕ} (h : ps.Perm ps') : t.nearest ps = t.nearest ps' := by
  by_cases hsome : ∃ p ∈ ps, t.known p = true
  · have hsome' : ∃ p ∈ ps', t.known p = true := by simpa only [h.mem_iff] using hsome
    obtain ⟨m, hm, hx⟩ := ht.nearest_spec hsome
    obtain ⟨k, hk, hy⟩ := ht.nearest_spec hsome'
    obtain rfl : m = k := eq_of_onChain_iff ht.falling fun x => by simp only [hx, hy, h.mem_iff]
    rw [hm, hk]
  · -- no predecessor has an entry, so `nearest` fails in whatever order
    have hnone : ∀ qs : List ℕ, (∀ q ∈ qs, q ∈ ps) → t.nearest qs = .error .indexOutOfRange := by
      intro qs hqs
      have hfilter : qs.filter t.known = [] :=
        List.filter_eq_nil_iff.2 fun q hq hknown => hsome ⟨q, hqs q hq, hknown⟩
      rw [nearest, hfilter]
    rw [hnone ps fun q hq => hq, hnone ps' fun q hq => h.mem_iff.2 hq]

end Ranked

theorem intersect_self (t : Table) (a : ℤ) : t.intersect a a = .ok a := if_pos rfl

/-- **Nearest common dominators.** Take a table in which the head leads to itself and every other
entry is a smaller number that has an entry too. From two numbers with entries, the walk of the
fingers ends without a fault, at the largest number that is on the chains of both. So the nearest
common dominator of a number and itself is the number, and of several numbers with entries it is the
same in whatever order they are taken and however they are bracketed; for a list of predecessors
this holds even where some of them, or all, have no entry. -/
theorem intersect_greatest {t : Table} (ht : t.Ranked) :
    (∀ a b : ℕ, t.known a = true → t.known b = true →
      Terminates t.moveFinger (↑a, ↑b) ∧
      ∃ m : ℕ, t.intersect a b = .ok (m : ℤ) ∧
        ReflTransGen (Moves t.moveFinger) (↑a, ↑b) (↑m, ↑m) ∧
        IsGreatest {x | OnChain t.up x a ∧ OnChain t.up x b} m) ∧
    (∀ a : ℕ, t.known a = true → t.intersect a a = .ok (a : ℤ)) ∧
    (∀ a b : ℕ, t.known a = true → t.known b = true → t.intersect a b = t.intersect b a) ∧
    (∀ a b c : ℕ, t.known a = true → t.known b = true → t.known c = true →
      (t.intersect a b >>= fun d => t.intersect d c) =
        t.intersect b c >>= fun d => t.intersect a d) ∧
    ∀ ps ps' : List ℕ, ps.Perm ps' → t.nearest ps = t.nearest ps' := by
  refine ⟨fun a b ha hb => ?_, fun a _ => t.intersect_self a, fun a b => ht.intersect_comm,
    fun a b c => ht.intersect_assoc, fun ps ps' => ht.nearest_perm⟩
  -- only the first clause is left; the number found is on its own chain, and the largest there
  obtain ⟨m, hm, -, hchain, hterminates, hrun⟩ := ht.intersect_run ha hb
  refine ⟨hterminates, m, hm, hrun, (hchain m).1 .here, fun x hx => ?_⟩
  exact ((hchain x).2 hx).le ht.falling

/-- A table with two chains on which the fingers overtake each other, and a number without an
entry. -/
def overtaking : Table :=
  #[some 0, some 0, some 1, some 1, some 2, none, some 3, some 4]

theorem overtaking_ranked : overtaking.Ranked where
  head := rfl
  entry i d hi hd := by
    have hlt : i < 8 := (Array.getElem?_eq_some_iff.1 hd).1
    refine ⟨d.toNat, ?_⟩
    interval_cases i <;> simp [overtaking] at hd <;> subst hd <;> decide

/-- The fingers from the ends of both chains pass each other at every step, and meet where the
chains do. -/
theorem intersect_greatest_overtaking :
    overtaking.intersect 7 6 = .ok 1 ∧
      Terminates overtaking.moveFinger (7, 6) ∧
      IsGreatest {x | OnChain overtaking.up x 7 ∧ OnChain overtaking.up x 6} 1 ∧
      overtaking.nearest [7, 5, 6, 4] = overtaking.nearest [4, 6, 7, 5] := by
  obtain ⟨hmeet, -, -, -, hperm⟩ := intersect_greatest overtaking_ranked
  obtain ⟨hterminates, m, hm, -, hgreatest⟩ := hmeet 7 6 (by decide) (by decide)
  have hfound : overtaking.intersect 7 6 = .ok 1 := rfl
  obtain rfl : m = 1 := Int.ofNat_inj.1 (Except.ok.inj (hm.symm.trans hfound))
  exact ⟨hfound, hterminates, hgreatest, hperm _ _ (by decide)⟩

end Table

end Dependence
