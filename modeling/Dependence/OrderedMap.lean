/-!
# Finite maps in order of insertion

An `OrderedMap` is an association list without repeated keys. A key keeps the place and the
spelling of its first insertion, and takes the value of its last one.

Keys are compared with `==`, which need not be equality: two different spellings of one key
(`a == b` with `a ≠ b`) are the same key, and the map keeps the first spelling.

* `OrderedMap.upsert` — the one way to change a map: rework the value of a key, or add the key;
* `OrderedMap.insert`, `OrderedMap.ofList` — built from it;
* `OrderedMap.find?` — look-up.
-/

namespace Dependence

universe u v w

/-- A finite map that remembers the order in which its keys were first inserted. -/
@[ext]
structure OrderedMap (κ : Type u) [BEq κ] (β : Type v) where
  /-- The entries, in order of first insertion. -/
  entries : List (κ × β)
  /-- No two entries have the same key. -/
  distinct : entries.Pairwise fun a b => (a.1 == b.1) = false

namespace OrderedMap

variable {κ : Type u} [BEq κ] {β : Type v} {γ : Type w}

/-- The map without entries. -/
def empty : OrderedMap κ β := ⟨[], .nil⟩

instance : Inhabited (OrderedMap κ β) := ⟨empty⟩

/-- The keys, in order of first insertion. -/
def keys (m : OrderedMap κ β) : List κ := m.entries.map (·.1)

/-- Number of entries of `m`. -/
def size (m : OrderedMap κ β) : Nat := m.entries.length

/-- The value that `m` has at `k`. -/
def find? (m : OrderedMap κ β) (k : κ) : Option β :=
  (m.entries.find? fun e => e.1 == k).map (·.2)

/-- Whether `k` is a key of `m`, in some spelling. -/
def contains (m : OrderedMap κ β) (k : κ) : Bool :=
  m.entries.any fun e => e.1 == k

/-- Replace every value `v` by `f v`; keys and order stay. -/
def mapValues (f : β → γ) (m : OrderedMap κ β) : OrderedMap κ γ where
  entries := m.entries.map fun e => (e.1, f e.2)
  distinct := List.pairwise_map.2 m.distinct

/-- The entries after `upsert`, as a plain list. -/
def upsertEntries (k : κ) (f : Option β → β) : List (κ × β) → List (κ × β)
  | [] => [(k, f none)]
  | e :: rest => if e.1 == k then (e.1, f (some e.2)) :: rest else e :: upsertEntries k f rest

theorem upsertEntries_of_forall_ne {k : κ} {f : Option β → β} {es : List (κ × β)}
    (h : ∀ e ∈ es, (e.1 == k) = false) : upsertEntries k f es = es ++ [(k, f none)] := by
  induction es with
  | nil => rfl
  | cons e rest ih =>
    have he : (e.1 == k) = false := h e List.mem_cons_self
    simp [upsertEntries, he, ih fun x hx => h x (List.mem_cons_of_mem _ hx)]

/-- A key after `upsert` is an old key, or the new one. -/
theorem key_mem_upsertEntries {k : κ} {f : Option β → β} {es : List (κ × β)} {x : κ × β}
    (h : x ∈ upsertEntries k f es) : (∃ e ∈ es, e.1 = x.1) ∨ x.1 = k := by
  induction es with
  | nil => simp_all [upsertEntries]
  | cons e rest ih =>
    by_cases he : e.1 == k
    · rw [upsertEntries, if_pos he] at h
      rcases List.mem_cons.1 h with rfl | h
      · exact .inl ⟨e, List.mem_cons_self, rfl⟩
      · exact .inl ⟨x, List.mem_cons_of_mem _ h, rfl⟩
    · rw [upsertEntries, if_neg he] at h
      rcases List.mem_cons.1 h with rfl | h
      · exact .inl ⟨x, List.mem_cons_self, rfl⟩
      · rcases ih h with ⟨e', he', hk⟩ | hk
        · exact .inl ⟨e', List.mem_cons_of_mem _ he', hk⟩
        · exact .inr hk

theorem pairwise_upsertEntries {k : κ} {f : Option β → β} {es : List (κ × β)}
    (h : es.Pairwise fun a b => (a.1 == b.1) = false) :
    (upsertEntries k f es).Pairwise fun a b => (a.1 == b.1) = false := by
  induction es with
  | nil => simp [upsertEntries]
  | cons e rest ih =>
    obtain ⟨hhead, htail⟩ := List.pairwise_cons.1 h
    by_cases he : e.1 == k
    · rw [upsertEntries, if_pos he]
      exact List.pairwise_cons.2 ⟨hhead, htail⟩
    · rw [upsertEntries, if_neg he]
      refine List.pairwise_cons.2 ⟨fun x hx => ?_, ih htail⟩
      rcases key_mem_upsertEntries hx with ⟨e', he', hk⟩ | hk
      · exact hk ▸ hhead e' he'
      · exact hk ▸ eq_false_of_ne_true he

/-- Rework the value of `k` by `f` in place, or add `k` at the end with the value `f none`. -/
def upsert (m : OrderedMap κ β) (k : κ) (f : Option β → β) : OrderedMap κ β where
  entries := upsertEntries k f m.entries
  distinct := pairwise_upsertEntries m.distinct

/-- Set the value of `k` to `v`: a key that is present keeps its place and spelling. -/
def insert (m : OrderedMap κ β) (k : κ) (v : β) : OrderedMap κ β :=
  m.upsert k fun _ => v

/-- The map of the entries `es`; of several values of one key the last counts. -/
def ofList (es : List (κ × β)) : OrderedMap κ β :=
  es.foldl (fun m e => m.insert e.1 e.2) empty

/-- All entries of `n` set in `m`. -/
def merge (m n : OrderedMap κ β) : OrderedMap κ β :=
  n.entries.foldl (fun m e => m.insert e.1 e.2) m

/-! ### Look-up -/

@[simp] theorem find?_empty (k : κ) : (empty : OrderedMap κ β).find? k = none := rfl

@[simp] theorem keys_empty : (empty : OrderedMap κ β).keys = [] := rfl

@[simp] theorem keys_mapValues (f : β → γ) (m : OrderedMap κ β) :
    (m.mapValues f).keys = m.keys := by
  simp [keys, mapValues, Function.comp_def]

theorem contains_eq_isSome_find? (m : OrderedMap κ β) (k : κ) :
    m.contains k = (m.find? k).isSome := by
  rw [contains, find?, Option.isSome_map, List.isSome_find?]

section Equivalence

variable [EquivBEq κ]

/-- Look-up after `upsert`: the key that was reworked has its new value, the others are as
before. -/
theorem find?_upsert (m : OrderedMap κ β) (k k' : κ) (f : Option β → β) :
    (m.upsert k f).find? k' = if k == k' then some (f (m.find? k)) else m.find? k' := by
  obtain ⟨es, hes⟩ := m
  simp only [find?, upsert]
  clear hes
  induction es with
  | nil => by_cases h : k == k' <;> simp [upsertEntries, h]
  | cons e rest ih =>
    by_cases he : e.1 == k
    · -- the entry that is reworked stands at `e`
      have hk : (e.1 == k') = (k == k') := BEq.congr_left he
      by_cases h : k == k' <;> simp [upsertEntries, he, hk, h]
    · by_cases h' : e.1 == k'
      · -- `k'` stands at `e`, so it is not `k`
        have hne : (k == k') = false := by
          refine eq_false_of_ne_true fun h => he ?_
          exact BEq.trans h' (BEq.symm h)
        simp [upsertEntries, he, h', hne]
      · simpa [upsertEntries, he, h'] using ih

@[simp] theorem find?_insert (m : OrderedMap κ β) (k k' : κ) (v : β) :
    (m.insert k v).find? k' = if k == k' then some v else m.find? k' :=
  m.find?_upsert k k' fun _ => v

end Equivalence

end OrderedMap

end Dependence
