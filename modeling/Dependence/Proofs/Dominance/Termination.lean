import Dependence.Proofs.Dominance.Immediate
import Dependence.Proofs.Outcome

/-!
# Dominators are found in finitely many turns

The functions that compute dominators are given a number of moves, passes and steps in advance. This
module has the computation without such bounds, one turn at a time: `Table.advance` looks at the
next number, moves a finger, sets an entry or starts another pass, and it fails where a number has
no predecessor to begin with, or a finger has nowhere to go.

The bounded functions are runs of it (`Table.sure_fingers`, `Table.sure_pass`, `Table.sure_settle`):
a turn has one result only, so the run that they take is the only one, and all that is reached
without a bound lies on it. The finger walk is a computation of its own (`Table.moveFinger`), whose
run is a part of the whole (`Table.Ranked.fingers_run`).

* `Terminates` — a computation ends after finitely many turns, and none of them fails;
* `Table.Sound` — what holds at every moment of the computation;
* `Descends.terminates` — climbing a map of immediate dominators ends, wherever it starts and
  whatever it stops at;
* `Digraph.dominators_terminates` — all this for the dominators of a graph.
-/

namespace Dependence

open Relation

/-! ### Turn by turn -/

section Terminates

variable {ε σ : Type} {turn : σ → Except ε (Option σ)} {s s' : σ}

/-- The turn from `s` leads to `s'`. A turn may also end the computation, or fail. -/
def Moves (turn : σ → Except ε (Option σ)) (s s' : σ) : Prop := turn s = .ok (some s')

/-- **The computation ends** after finitely many turns, and none of them fails. -/
structure Terminates (turn : σ → Except ε (Option σ)) (s : σ) : Prop where
  finite : Acc (fun next s => Moves turn s next) s
  safe : ∀ s', ReflTransGen (Moves turn) s s' → ∃ outcome, turn s' = .ok outcome

/-- A turn has one result. -/
theorem Moves.unique {s'' : σ} (h : Moves turn s s') (h' : Moves turn s s'') : s' = s'' :=
  Option.some.inj (Except.ok.inj (Eq.trans (Eq.symm h) h'))

theorem not_moves_of_end (h : turn s = .ok none) : ¬ Moves turn s s' := by
  intro hmoves
  cases h.symm.trans hmoves

theorem Terminates.of_end (h : turn s = .ok none) : Terminates turn s where
  finite := ⟨s, fun _ hmoves => absurd hmoves (not_moves_of_end h)⟩
  safe s' hs' := by
    rcases hs'.cases_head with rfl | ⟨next, hnext, -⟩
    · exact ⟨none, h⟩
    · exact absurd hnext (not_moves_of_end h)

theorem Terminates.of_moves (h : Moves turn s s') (hrest : Terminates turn s') :
    Terminates turn s where
  finite := ⟨s, fun next hnext => h.unique hnext ▸ hrest.finite⟩
  safe s'' hs'' := by
    rcases hs''.cases_head with rfl | ⟨next, hnext, hreach⟩
    · exact ⟨some s', h⟩
    · exact hrest.safe s'' (h.unique hnext ▸ hreach)

/-- **One run is all there is.** Where a run comes to an end and every state on it is as it should
be, the computation terminates and has no other states. -/
theorem terminates_of_run {good : σ → Prop} {last : σ}
    (hrun : ReflTransGen (fun s s' => good s ∧ Moves turn s s') s last) (hgood : good last)
    (hlast : turn last = .ok none) :
    Terminates turn s ∧ ∀ s', ReflTransGen (Moves turn) s s' → good s' := by
  induction hrun using ReflTransGen.head_induction_on with
  | refl =>
    refine ⟨.of_end hlast, fun s' hs' => ?_⟩
    rcases hs'.cases_head with rfl | ⟨next, hnext, -⟩
    · exact hgood
    · exact absurd hnext (not_moves_of_end hlast)
  | @head s next hstep _ ih =>
    -- a turn has one result, so every other run takes the same one
    refine ⟨.of_moves hstep.2 ih.1, fun s' hs' => ?_⟩
    rcases hs'.cases_head with rfl | ⟨next', hnext', hreach⟩
    · exact hstep.1
    · exact ih.2 s' (hstep.2.unique hnext' ▸ hreach)

end Terminates

namespace Table

/-! ### The loop without bounds -/

/-- What is being done for the next number. -/
inductive Work
  /-- Nothing yet. -/
  | idle
  /-- The common dominator of some predecessors was found, the others are still to be met. -/
  | found (d : ℤ) (rest : List ℕ)
  /-- Two fingers walk, before the others are met. -/
  | fingers (a b : ℤ) (rest : List ℕ)

/-- **A moment of the computation**: whether this pass has changed the table, the table, the number
that the pass has come to, and what is being done for it. -/
structure Moment where
  changed : Bool
  table : Table
  next : ℕ
  work : Work

/-- **One turn** of the loop of `settle`. A pass that has come to its end is followed by another one
if it has changed something. -/
def advance (preds : List (List ℕ)) (s : Moment) : Except Fault (Option Moment) :=
  match s.work with
  | .idle =>
    if s.next < preds.length then
      match (preds.getD s.next []).filter s.table.known with
      | [] => .error .indexOutOfRange
      | first :: rest => .ok (some { s with work := .found first rest })
    else if s.changed then .ok (some { s with changed := false, next := 1 })
    else .ok none
  | .found d [] =>
    let table := s.table.setIfInBounds s.next (some d)
    .ok (some ⟨s.changed || decide (table ≠ s.table), table, s.next + 1, .idle⟩)
  | .found d (p :: rest) => .ok (some { s with work := .fingers d p rest })
  | .fingers a b rest =>
    if a = b then .ok (some { s with work := .found a rest })
    else if b < a then return some { s with work := .fingers (← s.table.climb a) b rest }
    else return some { s with work := .fingers a (← s.table.climb b) rest }

/-- The first moment: only the head has an entry. -/
def first (preds : List (List ℕ)) : Moment := ⟨false, start preds.length, 1, .idle⟩

/-- The last moment: a pass has come to its end and changed nothing. -/
def last (preds : List (List ℕ)) (t : Table) : Moment := ⟨false, t, preds.length, .idle⟩

/-- **What holds at every moment.** The head is its own entry and all other entries are smaller
numbers with entries, so chains have entries throughout; the number that a pass has come to has a
predecessor with an entry; and fingers stand at numbers with entries. -/
structure Sound (preds : List (List ℕ)) (s : Moment) : Prop where
  ranked : s.table.Ranked
  chains : ∀ i a, s.table.known i = true → OnChain s.table.up a i → s.table.known a = true
  processed : s.next < preds.length →
    0 < s.next ∧ ∃ p, Precedes preds p s.next ∧ s.table.known p = true
  fingers : ∀ a b rest, s.work = .fingers a b rest →
    ∃ i j : ℕ, a = i ∧ b = j ∧ s.table.known i = true ∧ s.table.known j = true

/-! ### The finger walk without bounds -/

/-- **One move** of `meet`. The finger at the larger number climbs; where both are at the same
number, the walk ends. -/
def moveFinger (t : Table) (s : ℤ × ℤ) : Except Fault (Option (ℤ × ℤ)) :=
  if s.1 = s.2 then .ok none
  else if s.2 < s.1 then return some (← t.climb s.1, s.2)
  else return some (s.1, ← t.climb s.2)

/-- Both fingers are at numbers with entries. -/
def Placed (t : Table) (s : ℤ × ℤ) : Prop :=
  ∃ i j : ℕ, s = (↑i, ↑j) ∧ t.known i = true ∧ t.known j = true

/-- **`meet`** is a run of `moveFinger` until the fingers meet. -/
theorem Ranked.fingers_run {t : Table} (ht : t.Ranked) {moves a b : ℕ} (ha : t.known a = true)
    (hb : t.known b = true) (hmoves : a + b < moves) {m : ℤ} (hm : t.meet moves a b = .ok m) :
    ReflTransGen (fun s s' => t.Placed s ∧ Moves t.moveFinger s s') (↑a, ↑b) (m, m) ∧
      t.Placed (m, m) := by
  -- every move lowers the sum of the fingers, so the moves do not run out
  induction moves generalizing a b with
  | zero => omega
  | succ moves ih =>
    have hplaced : t.Placed (↑a, ↑b) := ⟨a, b, rfl, ha, hb⟩
    rw [meet] at hm
    by_cases hab : a = b
    · subst hab
      rw [if_pos rfl] at hm
      obtain rfl := Except.ok.inj hm
      exact ⟨.refl, hplaced⟩
    have hne : (a : ℤ) ≠ b := fun h => hab (Int.ofNat_inj.1 h)
    rw [if_neg hne] at hm
    by_cases hba : b < a
    · have hlt := ht.falling.lt a (Nat.zero_lt_of_lt hba)
      have hcast : (b : ℤ) < a := Int.ofNat_lt.2 hba
      rw [if_pos hcast, ht.climb_eq ha, ok_bind] at hm
      obtain ⟨hrun, hmet⟩ := ih (ht.known_up ha) hb (by omega) hm
      refine ⟨.head ⟨hplaced, ?_⟩ hrun, hmet⟩
      simp only [Moves, moveFinger, if_neg hne, if_pos hcast, ht.climb_eq ha, ok_bind]
      rfl
    · have hlt := ht.falling.lt b (by omega)
      have hcast : ¬ (b : ℤ) < a := fun h => hba (Int.ofNat_lt.1 h)
      rw [if_neg hcast, ht.climb_eq hb, ok_bind] at hm
      obtain ⟨hrun, hmet⟩ := ih ha (ht.known_up hb) (by omega) hm
      refine ⟨.head ⟨hplaced, ?_⟩ hrun, hmet⟩
      simp only [Moves, moveFinger, if_neg hne, if_neg hcast, ht.climb_eq hb, ok_bind]
      rfl

/-- `moveFinger` is a turn of the computation. -/
theorem moves_advance_of_moveFinger {preds : List (List ℕ)} {t : Table} {s s' : ℤ × ℤ}
    (h : Moves t.moveFinger s s') (c : Bool) (x : ℕ) (rest : List ℕ) :
    Moves (advance preds) ⟨c, t, x, .fingers s.1 s.2 rest⟩
      ⟨c, t, x, .fingers s'.1 s'.2 rest⟩ := by
  simp only [Moves, moveFinger, advance] at h ⊢
  -- the fingers are apart, and the same one climbs in both
  split at h
  · cases h
  rename_i hne
  rw [if_neg hne]
  split at h
  · rename_i hlt
    obtain ⟨d, hd, hs'⟩ := bind_eq_ok.1 h
    cases hs'
    rw [if_pos hlt, hd]
    rfl
  · rename_i hlt
    obtain ⟨d, hd, hs'⟩ := bind_eq_ok.1 h
    cases hs'
    rw [if_neg hlt, hd]
    rfl

/-! ### The bounded functions are runs -/

/-- A turn from `s` to `s'`, where `s` is `Sound`. -/
def Sure (preds : List (List ℕ)) (s s' : Moment) : Prop :=
  Sound preds s ∧ Moves (advance preds) s s'

theorem sound_of_ranked {preds : List (List ℕ)} {t : Table} {x : ℕ} (ht : t.Ranked)
    (hx : x < preds.length → 0 < x ∧ ∃ p, Precedes preds p x ∧ t.known p = true) (c : Bool)
    (w : Work) (hw : ∀ a b rest, w = .fingers a b rest →
      ∃ i j : ℕ, a = i ∧ b = j ∧ t.known i = true ∧ t.known j = true) :
    Sound preds ⟨c, t, x, w⟩ :=
  ⟨ht, fun _ _ hi ha => ht.known_of_onChain ha hi, hx, hw⟩

section Run

variable {preds : List (List ℕ)} {t : Table} {x : ℕ} {c : Bool} (ht : t.Ranked)
  (hx : x < preds.length → 0 < x ∧ ∃ p, Precedes preds p x ∧ t.known p = true)

include ht hx

/-- **`meet`** is a part of the computation. -/
theorem sure_fingers {moves a b : ℕ} (ha : t.known a = true) (hb : t.known b = true)
    (hmoves : a + b < moves) {m : ℤ} (hm : t.meet moves a b = .ok m) (rest : List ℕ) :
    ReflTransGen (Sure preds) ⟨c, t, x, .fingers a b rest⟩ ⟨c, t, x, .found m rest⟩ := by
  obtain ⟨hrun, hmet⟩ := ht.fingers_run ha hb hmoves hm
  -- fingers that are placed are all that a moment of the walk needs
  have hsound : ∀ s, t.Placed s → Sound preds ⟨c, t, x, .fingers s.1 s.2 rest⟩ := by
    rintro s ⟨i, j, rfl, hi, hj⟩
    refine sound_of_ranked ht hx c _ fun a' b' rest' heq => ?_
    cases heq
    exact ⟨i, j, rfl, rfl, hi, hj⟩
  have hwalk : ReflTransGen (Sure preds) ⟨c, t, x, .fingers a b rest⟩
      ⟨c, t, x, .fingers m m rest⟩ :=
    hrun.lift (fun s => (⟨c, t, x, .fingers s.1 s.2 rest⟩ : Moment)) fun s s' hs =>
      ⟨hsound s hs.1, moves_advance_of_moveFinger hs.2 c x rest⟩
  refine hwalk.tail ⟨hsound _ hmet, ?_⟩
  simp [Moves, advance]

/-- **`intersect` along the predecessors** runs until all of them are met. -/
theorem sure_found {rest : List ℕ} {d : ℕ} (hd : t.known d = true)
    (hrest : ∀ p ∈ rest, t.known p = true) {m : ℤ}
    (hm : rest.foldlM (fun d (p : ℕ) => t.intersect d p) (d : ℤ) = .ok m) :
    ReflTransGen (Sure preds) ⟨c, t, x, .found d rest⟩ ⟨c, t, x, .found m []⟩ := by
  induction rest generalizing d with
  | nil =>
    obtain rfl := Except.ok.inj hm
    exact .refl
  | cons p rest ih =>
    -- the fingers meet at a number with an entry, from which the walk goes on
    obtain ⟨hp, hrest'⟩ := List.forall_mem_cons.1 hrest
    obtain ⟨k, hk, hchain⟩ := ht.intersect_spec hd hp
    have hknown : t.known k = true := ht.known_of_onChain ((hchain k).1 .here).1 hd
    rw [List.foldlM_cons, hk, ok_bind] at hm
    have hwalk : ReflTransGen (Sure preds) ⟨c, t, x, .fingers d p rest⟩
        ⟨c, t, x, .found k rest⟩ := by
      have hsize_d := lt_size_of_known hd
      have hsize_p := lt_size_of_known hp
      exact sure_fingers ht hx hd hp (by nlinarith) hk rest
    refine .head ⟨sound_of_ranked ht hx c _ nofun, rfl⟩ (hwalk.trans (ih hknown hrest' hm))

end Run

section Run

variable {preds : List (List ℕ)} (hn : Numbering preds)

include hn

theorem Underway.sound {x : ℕ} {t : Table} (h : Underway preds x t) (hpos : 0 < x) (c : Bool) :
    Sound preds ⟨c, t, x, .idle⟩ := by
  refine sound_of_ranked h.ranked (fun hx => ⟨hpos, ?_⟩) c .idle nofun
  obtain ⟨p, hp, -, hknown⟩ := h.exists_earlier hn hpos hx
  exact ⟨p, hp, hknown⟩

/-- **`update`** runs from one number to the next. -/
theorem sure_update {x : ℕ} {t t' : Table} (h : Underway preds x t) (hpos : 0 < x)
    (hx : x < preds.length) (ht' : t.update (preds.getD x [], x) = .ok t') (c : Bool) :
    ReflTransGen (Sure preds) ⟨c, t, x, .idle⟩ ⟨c || decide (t' ≠ t), t', x + 1, .idle⟩ := by
  have hsound := h.sound hn hpos c
  have hentered := hsound.processed
  cases hfilter : (preds.getD x []).filter t.known with
  | nil =>
    -- some predecessor has an entry
    obtain ⟨-, p, hp, hknown⟩ := hentered hx
    have hmem : p ∈ (preds.getD x []).filter t.known := List.mem_filter.2 ⟨hp, hknown⟩
    rw [hfilter] at hmem
    cases hmem
  | cons first rest =>
    have hknown : ∀ p ∈ first :: rest, t.known p = true := fun p hp =>
      (List.mem_filter.1 (hfilter ▸ hp)).2
    obtain ⟨hfirst, hrest⟩ := List.forall_mem_cons.1 hknown
    obtain ⟨m, hm, -⟩ := h.ranked.foldlM_intersect_spec hfirst hrest
    obtain rfl : t.setIfInBounds x (some (m : ℤ)) = t' := by
      simp only [update, nearest, hfilter, hm, ok_bind] at ht'
      exact Except.ok.inj ht'
    -- the first predecessor is taken, the others are met, and the entry is set
    have hbegin : Sure preds ⟨c, t, x, .idle⟩ ⟨c, t, x, .found first rest⟩ := by
      refine ⟨hsound, ?_⟩
      simp only [Moves, advance, if_pos hx, hfilter]
    have hset : Sure preds ⟨c, t, x, .found m []⟩
        ⟨c || decide (t.setIfInBounds x (some (m : ℤ)) ≠ t), t.setIfInBounds x (some (m : ℤ)),
          x + 1, .idle⟩ := by
      refine ⟨sound_of_ranked h.ranked hentered c _ ?_, rfl⟩
      intro a b rest hw
      cases hw
    exact .head hbegin ((sure_found h.ranked hentered hfirst hrest hm).tail hset)

/-- **The rest of a pass** runs to its end, and has changed something if `t'` is not `t`. -/
theorem sure_pass {x : ℕ} {t t' : Table} (hpos : 0 < x) (hx : x ≤ preds.length)
    (h : Underway preds x t) (ht' : (preds.zipIdx.drop x).foldlM Table.update t = .ok t')
    (c : Bool) :
    ReflTransGen (Sure preds) ⟨c, t, x, .idle⟩
      ⟨c || decide (t' ≠ t), t', preds.length, .idle⟩ := by
  -- on the numbers that the pass has not come to
  induction hk : preds.length - x generalizing x t c with
  | zero =>
    obtain rfl : x = preds.length := by omega
    rw [List.drop_eq_nil_of_le (by simp)] at ht'
    obtain rfl := Except.ok.inj ht'
    rw [decide_eq_false (by simp), Bool.or_false]
  | succ k ih =>
    have hlt : x < preds.length := by omega
    obtain ⟨m, hm, hu⟩ := h.update_eq hn hpos hlt
    rw [drop_zipIdx preds hlt, List.foldlM_cons, hm, ok_bind] at ht'
    have hrest := ih (Nat.succ_pos x) hlt hu.underway ht' (c || decide (t.put x m ≠ t)) (by omega)
    -- an entry that is changed stays so: the weight of the table does not rise again
    have hflag : (c || decide (t.put x m ≠ t) || decide (t' ≠ t.put x m)) =
        (c || decide (t' ≠ t)) := by
      by_cases hput : t.put x m = t
      · rw [hput, decide_eq_false (by simp), Bool.or_false]
      · obtain ⟨hle, heq⟩ := hu.weight_put
        obtain ⟨s, hs, -, hle', -⟩ := pass_spec hn (Nat.succ_pos x) hlt hu.underway
        obtain rfl := Except.ok.inj (ht'.symm.trans hs)
        have hne : t' ≠ t := by
          rintro rfl
          exact hput (heq (le_antisymm hle hle'))
        simp [hput, hne]
    rw [hflag] at hrest
    exact (sure_update hn h hpos hlt hm c).trans hrest

/-- **`settle`** runs until a pass changes nothing. -/
theorem sure_settle (hlen : 0 < preds.length) {passes : ℕ} {t t' : Table} (h : Underway preds 1 t)
    (hp : t.weight preds.length < passes) (ht' : settle preds passes t = .ok t') :
    ReflTransGen (Sure preds) ⟨false, t, 1, .idle⟩ (last preds t') := by
  -- a pass that changes the table lowers its weight, so the passes do not run out
  induction passes generalizing t with
  | zero => omega
  | succ passes ih =>
    obtain ⟨s, hs, hu, hle, heq⟩ := pass_spec hn one_pos hlen h
    have hrefine : t.refine preds = .ok s := hs
    have hpass := sure_pass hn one_pos hlen h hs false
    rw [Bool.false_or] at hpass
    rw [settle, hrefine, ok_bind] at ht'
    by_cases hst : s = t
    · -- nothing was changed, so this moment is the last
      subst hst
      rw [if_pos rfl] at ht'
      obtain rfl := Except.ok.inj ht'
      rwa [decide_eq_false (by simp)] at hpass
    · rw [if_neg hst] at ht'
      rw [decide_eq_true hst] at hpass
      have hlt : s.weight preds.length < t.weight preds.length :=
        lt_of_le_of_ne hle fun hw => hst (heq hw).1
      have hagain : Sure preds ⟨true, s, preds.length, .idle⟩ ⟨false, s, 1, .idle⟩ := by
        refine ⟨hu.sound hn hlen true, ?_⟩
        simp [Moves, advance]
      exact hpass.trans (.head hagain (ih (hu.rewind 1) (by omega) ht'))

/-- **The computation of `ofPredecessors`** terminates, is `Sound` at every moment, and ends with
the settled table. -/
theorem ofPredecessors_run (hlen : 0 < preds.length) :
    ∃ t, ofPredecessors preds = .ok t ∧ Settled preds t ∧
      ReflTransGen (Moves (advance preds)) (first preds) (last preds t) ∧
      advance preds (last preds t) = .ok none ∧ Terminates (advance preds) (first preds) ∧
      ∀ s, ReflTransGen (Moves (advance preds)) (first preds) s → Sound preds s := by
  obtain ⟨t, ht, hsettled⟩ := ofPredecessors_spec hn hlen
  have hstart := Underway.start hlen
  -- there are more passes than the weight of the first table
  have hweight := weight_le preds.length hstart.ranked
  have hrun : ReflTransGen (Sure preds) (first preds) (last preds t) :=
    sure_settle hn hlen hstart (by omega) ht
  have hlast : advance preds (last preds t) = .ok none := by
    simp [advance, last]
  have hsound : Sound preds (last preds t) := hsettled.sound hn hlen false
  exact ⟨t, ht, hsettled, ReflTransGen.mono (fun _ _ hsure => hsure.2) _ _ hrun, hlast,
    terminates_of_run hrun hsound hlast⟩

end Run

end Table

/-! ### Climbing -/

variable {ν : Type} [BEq ν]

/-- One turn of a climb: up, if there is a way up and the climb does not `stop` at `n`. -/
def climbing (idoms : OrderedMap ν ν) (stop : ν → Bool) (n : ν) : Except Fault (Option ν) :=
  .ok (if stop n then none else idoms.find? n)

/-- **`climbing` ends**, whatever it stops at. -/
theorem Descends.terminates {idoms : OrderedMap ν ν} {inside : ν → Prop} {rank : ν → ℕ}
    (h : Descends idoms inside rank) (stop : ν → Bool) {n : ν} (hn : inside n) :
    Terminates (climbing idoms stop) n := by
  refine h.induction (motive := fun n => Terminates (climbing idoms stop) n) ?_ ?_ n hn
  · -- there is no way up from here, whether or not the climb stops
    intro n _ hfind
    refine .of_end ?_
    rw [climbing, hfind, ite_self]
  · intro n d _ hfind ih
    cases hstop : stop n with
    | true => exact .of_end (by rw [climbing, hstop, if_pos rfl])
    | false => exact .of_moves (by rw [Moves, climbing, hstop, hfind, if_neg nofun]) ih

namespace Digraph

variable [EquivBEq ν]

/-- `idomsOf` of a settled table is climbed by falling numbers. A node that is not numbered has no
way up. -/
theorem Covers.descends_idomsOf {g : Digraph ν} {head : ν} {c : Crawl ν} (h : Covers g head c)
    {t : Table} (ht : Table.Settled (g.numberedPredecessors c) t) :
    Descends (idomsOf c.order t) (fun _ => True)
      fun n => if c.order.contains n then number c.order n else 0 where
  bounded n _ := by
    rw [size_idomsOf h.distinct ht.ranked (size_of_settled ht) (known_of_settled ht)]
    split
    · next hn =>
      have := number_lt hn
      omega
    · exact Nat.zero_le _
  up n d _ hfind := by
    obtain ⟨hn, hpos, hd, hup⟩ := h.number_of_find?_eq_some ht hfind
    refine ⟨trivial, ?_⟩
    rw [if_pos hn, if_pos hd, hup]
    exact ht.ranked.falling.lt _ hpos

/-- The predecessors of each number, as `dominators` has them. -/
abbrev predecessorsFrom (g : Digraph ν) (head : ν) : List (List ℕ) :=
  g.numberedPredecessors (g.crawl head)

/-- **Dominators are found in finitely many turns**, for every `g` and every `head`. All nodes have
a number. The loop that fills the table terminates without a fault, every moment of it is sound, and
the table that it ends with has an entry for every number and is the one that is used. Climbing the
map of immediate dominators ends, from every node and whatever it stops at; the way up from a node
is all of it. -/
theorem dominators_terminates (g : Digraph ν) (head : ν) :
    (∀ n, g.Mentions head n → (g.crawl head).order.contains n = true) ∧
    Terminates (Table.advance (g.predecessorsFrom head)) (Table.first (g.predecessorsFrom head)) ∧
    (∀ s, ReflTransGen (Moves (Table.advance (g.predecessorsFrom head)))
        (Table.first (g.predecessorsFrom head)) s → Table.Sound (g.predecessorsFrom head) s) ∧
    ∃ t d,
      ReflTransGen (Moves (Table.advance (g.predecessorsFrom head)))
        (Table.first (g.predecessorsFrom head)) (Table.last (g.predecessorsFrom head) t) ∧
      Table.advance (g.predecessorsFrom head) (Table.last (g.predecessorsFrom head) t) = .ok none ∧
      (∀ i < (g.crawl head).order.length, t.known i = true) ∧
      g.dominators head = .ok d ∧ d.idoms = idomsOf (g.crawl head).order t ∧
      (∀ stop n, Terminates (climbing d.idoms stop) n) ∧
      ∀ n, Dominators.ancestors d.idoms n =
        n :: (d.idoms.find? n).elim [] (Dominators.ancestors d.idoms) := by
  have h := crawl_spec g head
  have hpos : 0 < (g.predecessorsFrom head).length := by
    obtain ⟨rest, hrest⟩ := h.head_first
    rw [length_numberedPredecessors, hrest]
    exact Nat.succ_pos _
  obtain ⟨t, htable, ht, hrun, hlast, hterminates, hsound⟩ :=
    Table.ofPredecessors_run h.numbering hpos
  have hdescends := h.descends_idomsOf ht
  let idoms := idomsOf (g.crawl head).order t
  have hdominators : g.dominators head = .ok { tree := Dominators.treeOf idoms, idoms } := by
    rw [dominators, htable]
    rfl
  refine ⟨fun n hn => h.contains_order_iff.2 hn, hterminates, hsound, t, _, hrun, hlast,
    known_of_settled ht, hdominators, rfl, fun stop n => hdescends.terminates stop trivial,
    fun n => ?_⟩
  -- the steps allowed are never used up, so the way up from `n` goes on from its dominator
  cases hfind : idoms.find? n with
  | none => exact Descends.ancestors_top hfind
  | some d => exact hdescends.ancestors_up trivial hfind

/-- On the loop that is entered at two places, where a number has a predecessor after it and nodes
compare by `==`. -/
theorem dominators_terminates_irreducible :
    EquivBEq Value ∧
      Terminates (Table.advance (irreducible.predecessorsFrom (.int 0)))
        (Table.first (irreducible.predecessorsFrom (.int 0))) ∧
      ∃ d, irreducible.dominators (.int 0) = .ok d ∧
        ∀ a n, Terminates (climbing d.idoms (· == a)) n := by
  obtain ⟨-, hterminates, -, t, d, -, -, -, hd, -, hclimbs, -⟩ :=
    dominators_terminates irreducible (.int 0)
  exact ⟨inferInstance, hterminates, d, hd, fun a n => hclimbs (· == a) n⟩

end Digraph

end Dependence
