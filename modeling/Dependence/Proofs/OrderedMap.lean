import Dependence.OrderedMap
import Mathlib.Logic.Basic

/-!
# Ordered maps read through their entries

Keys of an `OrderedMap` are distinct, so looking up a key gives the value of the one entry that has
it (`OrderedMap.find?_eq_some_iff`), and a list of entries with distinct keys is the map that it
makes (`OrderedMap.entries_ofList`). However often a map is changed, its keys stand in the order in
which they first occurred (`OrderedMap.keys_foldl_upsert`).
-/

namespace Dependence.OrderedMap

universe u v w

variable {κ : Type u} [BEq κ] {β : Type v} {γ : Type w}

/-- `insert` for entries with new keys appends them. -/
theorem entries_foldl_insert {es : List (κ × β)} {m : OrderedMap κ β}
    (h : (m.entries ++ es).Pairwise fun a b => (a.1 == b.1) = false) :
    (es.foldl (fun m e => m.insert e.1 e.2) m).entries = m.entries ++ es := by
  -- on the entries still to be set; those set so far are part of `m`
  induction es generalizing m with
  | nil => simp
  | cons e es ih =>
    obtain ⟨-, -, hcross⟩ := List.pairwise_append.1 h
    have hnew : (m.insert e.1 e.2).entries = m.entries ++ [e] :=
      upsertEntries_of_forall_ne fun x hx => hcross x hx e List.mem_cons_self
    rw [List.foldl_cons, ih (by rwa [hnew, List.append_assoc]), hnew, List.append_assoc]
    rfl

/-- **Entries with distinct keys** are the entries of the map that `ofList` makes. -/
theorem entries_ofList {es : List (κ × β)}
    (h : es.Pairwise fun a b => (a.1 == b.1) = false) : (ofList es).entries = es :=
  entries_foldl_insert (m := empty) h

/-- `merge` puts the entries of `n` behind those of `m`, if the two have no common key. -/
theorem entries_merge {m n : OrderedMap κ β}
    (h : ∀ e ∈ m.entries, ∀ e' ∈ n.entries, (e.1 == e'.1) = false) :
    (m.merge n).entries = m.entries ++ n.entries :=
  entries_foldl_insert (List.pairwise_append.2 ⟨m.distinct, n.distinct, h⟩)

/-- The map `m` without the key `k`. -/
def without (m : OrderedMap κ β) (k : κ) : OrderedMap κ β where
  entries := m.entries.filter fun e => !(e.1 == k)
  distinct := m.distinct.filter _

theorem contains_iff {m : OrderedMap κ β} {k : κ} :
    m.contains k = true ↔ ∃ e ∈ m.entries, (e.1 == k) = true := by
  simp [contains]

theorem mem_keys_iff_contains [LawfulBEq κ] {m : OrderedMap κ β} {k : κ} :
    k ∈ m.keys ↔ m.contains k = true := by
  rw [contains_iff, keys, List.mem_map]
  simp only [beq_iff_eq]

/-- `find?` after `mapValues` finds the replaced value. -/
theorem find?_mapValues (f : β → γ) (m : OrderedMap κ β) (k : κ) :
    (m.mapValues f).find? k = (m.find? k).map f := by
  simp only [find?, mapValues, List.find?_map, Function.comp_def, Option.map_map]

@[simp] theorem contains_mapValues (f : β → γ) (m : OrderedMap κ β) (k : κ) :
    (m.mapValues f).contains k = m.contains k := by
  rw [contains_eq_isSome_find?, find?_mapValues, Option.isSome_map, contains_eq_isSome_find?]

/-- `upsert` leaves a key that is present in its place, and puts a new one last. -/
theorem keys_upsert (m : OrderedMap κ β) (k : κ) (f : Option β → β) :
    (m.upsert k f).keys = if m.contains k then m.keys else m.keys ++ [k] := by
  show (upsertEntries k f m.entries).map (·.1) =
    if m.entries.any (·.1 == k) then m.entries.map (·.1) else m.entries.map (·.1) ++ [k]
  -- along `upsertEntries`, which stops at the entry that has the key
  induction m.entries with
  | nil => rfl
  | cons e rest ih =>
    by_cases he : (e.1 == k) = true
    · simp [upsertEntries, he]
    · rw [upsertEntries, if_neg he, List.map_cons, ih, List.any_cons, eq_false_of_ne_true he,
        Bool.false_or, List.map_cons, List.cons_append]
      split <;> rfl

section Equivalence

variable [EquivBEq κ]

/-- **`find?`** finds the value of the entry that has the key. -/
theorem find?_eq_some_iff {m : OrderedMap κ β} {k : κ} {v : β} :
    m.find? k = some v ↔ ∃ e ∈ m.entries, (e.1 == k) = true ∧ e.2 = v := by
  obtain ⟨es, hes⟩ := m
  simp only [find?]
  induction es with
  | nil => simp
  | cons e rest ih =>
    obtain ⟨hhead, htail⟩ := List.pairwise_cons.1 hes
    by_cases he : e.1 == k
    · -- `find?` stops at the first entry, and by `distinct` no other has the key
      have hother : ∀ x ∈ rest, (x.1 == k) = false := fun x hx => by
        rw [← hhead x hx]
        exact (BEq.congr_right (BEq.symm he)).trans BEq.comm
      simp only [List.find?_cons, he, Option.map_some, Option.some.injEq, List.mem_cons,
        exists_eq_or_imp, true_and]
      refine ⟨.inl, fun h => h.elim id ?_⟩
      rintro ⟨x, hx, hxk, -⟩
      rw [hother x hx] at hxk
      cases hxk
    · simp only [List.find?_cons, eq_false_of_ne_true he, ih htail, List.mem_cons,
        exists_eq_or_imp, Bool.false_eq_true, false_and, false_or]

/-- `find?` does not depend on how the key is spelt. -/
theorem find?_congr (m : OrderedMap κ β) {k k' : κ} (h : (k == k') = true) :
    m.find? k = m.find? k' := by
  simp only [find?, BEq.congr_right h]

theorem contains_upsert (m : OrderedMap κ β) (k k' : κ) (f : Option β → β) :
    (m.upsert k f).contains k' = (m.contains k' || k' == k) := by
  rw [contains_eq_isSome_find?, find?_upsert, contains_eq_isSome_find?, BEq.comm (a := k')]
  by_cases h : (k == k') = true
  · rw [if_pos h, h, Bool.or_true, Option.isSome_some]
  · rw [if_neg h, eq_false_of_ne_true h, Bool.or_false]

/-- **The keys after any number of `upsert`s**: the old ones, then the new ones in order of their
first occurrence. -/
theorem keys_foldl_upsert {α : Type} (key : α → κ) (f : α → Option β → β) (changes : List α)
    (m : OrderedMap κ β) :
    (changes.foldl (fun m a => m.upsert (key a) (f a)) m).keys =
      m.keys ++ ((changes.map key).filter fun k => !m.contains k).eraseDups := by
  induction changes generalizing m with
  | nil => simp
  | cons a changes ih =>
    rw [List.foldl_cons, ih, keys_upsert, List.map_cons]
    simp only [contains_upsert]
    by_cases ha : m.contains (key a) = true
    · -- a key that is the same as an old one is old as well
      have hold : ∀ k, (m.contains k || k == key a) = m.contains k := fun k => by
        by_cases hk : (k == key a) = true
        · rw [contains_eq_isSome_find?, m.find?_congr hk, ← contains_eq_isSome_find?, ha,
            Bool.true_or]
        · rw [eq_false_of_ne_true hk, Bool.or_false]
      rw [if_pos ha, List.filter_cons_of_neg (by simp [ha])]
      simp only [hold]
    · -- `key a` is new: what is the same as it is old for the rest, and `eraseDups` drops it too
      rw [if_neg ha, List.filter_cons_of_pos (by simp [ha]), List.eraseDups_cons,
        List.filter_filter, List.append_assoc, List.singleton_append]
      simp only [Bool.not_or, Bool.and_comm]

end Equivalence

end Dependence.OrderedMap
