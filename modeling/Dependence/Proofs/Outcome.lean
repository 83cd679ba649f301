import Dependence.Log.Record

/-!
# Results of outcomes

An `Outcome` is a result with a log beside it, and the log has no bearing on the result. The result
of a composite is the composite of the results, in `Except Error`. Where it is not known whether an
operation succeeds, `Ensures` says what is sure in both cases, and follows the operation step by
step.
-/

namespace Dependence

namespace Outcome

variable {α β σ : Type}

@[simp] theorem result_pure (a : α) : (pure a : Outcome α).result = .ok a := rfl

@[simp] theorem result_bind (x : Outcome α) (f : α → Outcome β) :
    (x >>= f).result = x.result >>= fun a => (f a).result := by
  change (x.bind f).result = _
  -- the log is put together in both cases, and the result of `x` alone tells them apart
  unfold Outcome.bind
  cases x.result <;> rfl

@[simp] theorem result_write (severity : Severity) (component : Component) (message : String) :
    (write severity component message).result = .ok () := rfl

@[simp] theorem result_liftM (x : Except Error α) : (liftM x : Outcome α).result = x := rfl

@[simp] theorem result_liftM_fault (x : Except Fault α) :
    (liftM x : Outcome α).result = (liftM x : Except Error α) := rfl

/-- The result of `foldlM` is `foldlM` of the results. -/
theorem result_foldlM (step : σ → α → Outcome σ) (items : List α) (s : σ) :
    (items.foldlM step s).result = items.foldlM (fun s a => (step s a).result) s := by
  -- on the items, from any state
  induction items generalizing s with
  | nil => rfl
  | cons a items ih =>
    rw [List.foldlM_cons, List.foldlM_cons, result_bind]
    exact congrArg _ (funext fun s => ih s)

end Outcome

@[simp] theorem liftM_ok {α : Type} (a : α) :
    (liftM (.ok a : Except Fault α) : Except Error α) = .ok a := rfl

theorem ok_bind {ε α β : Type} (a : α) (f : α → Except ε β) : (Except.ok a >>= f) = f a := rfl

/-- `x >>= f` succeeds just if both parts do. -/
theorem bind_eq_ok {ε α β : Type} {x : Except ε α} {f : α → Except ε β} {b : β} :
    x >>= f = .ok b ↔ ∃ a, x = .ok a ∧ f a = .ok b := by
  constructor
  · intro h
    cases x with
    | error e => cases h
    | ok a => exact ⟨a, rfl, h⟩
  · rintro ⟨a, rfl, h⟩
    exact h

theorem liftM_eq_ok {α : Type} {x : Except Fault α} {a : α} :
    (liftM x : Except Error α) = .ok a ↔ x = .ok a := by
  cases x with
  | error e => exact ⟨nofun, nofun⟩
  | ok b => rw [liftM_ok, Except.ok.injEq, Except.ok.injEq]

theorem map_eq_ok {ε α β : Type} {x : Except ε α} {f : α → β} {b : β} :
    x.map f = .ok b ↔ ∃ a, x = .ok a ∧ b = f a := by
  cases x with
  | error e => exact ⟨nofun, nofun⟩
  | ok a => simp [Except.map, eq_comm]

section MapM

variable {ε α β : Type} {f : α → Except ε β}

theorem mapM_cons_eq_ok {a : α} {items : List α} {found : List β} :
    (a :: items).mapM f = .ok found ↔
      ∃ b rest, f a = .ok b ∧ items.mapM f = .ok rest ∧ found = b :: rest := by
  rw [List.mapM_cons]
  constructor
  · intro h
    obtain ⟨b, hb, h⟩ := bind_eq_ok.1 h
    obtain ⟨rest, hrest, h⟩ := bind_eq_ok.1 h
    cases h
    exact ⟨b, rest, hb, hrest, rfl⟩
  · rintro ⟨b, rest, hb, hrest, rfl⟩
    rw [hb, hrest]
    rfl

theorem mapM_congr {f' : α → Except ε β} {items : List α} (h : ∀ a ∈ items, f a = f' a) :
    items.mapM f = items.mapM f' := by
  induction items with
  | nil => rfl
  | cons a items ih =>
    obtain ⟨ha, hitems⟩ := List.forall_mem_cons.1 h
    rw [List.mapM_cons, List.mapM_cons, ha, ih hitems]

/-- `mapM` succeeds where every item can be read. -/
theorem mapM_of_forall_ok {g : α → β} {items : List α} (h : ∀ a ∈ items, f a = .ok (g a)) :
    items.mapM f = .ok (items.map g) := by
  rw [mapM_congr h]
  exact List.mapM_pure

/-- What `mapM` finds is the reading of some item. -/
theorem exists_of_mem_mapM {items : List α} {found : List β} (h : items.mapM f = .ok found) {b : β}
    (hb : b ∈ found) : ∃ a ∈ items, f a = .ok b := by
  induction items generalizing found with
  | nil =>
    cases h
    cases hb
  | cons a items ih =>
    -- read off the first item, or off one of the rest
    obtain ⟨b', rest, ha, hrest, rfl⟩ := mapM_cons_eq_ok.1 h
    rcases List.mem_cons.1 hb with rfl | hb
    · exact ⟨a, List.mem_cons_self, ha⟩
    · obtain ⟨a', ha', hfound⟩ := ih hrest hb
      exact ⟨a', List.mem_cons_of_mem _ ha', hfound⟩

/-- **`mapM` in another order** succeeds as well, and finds the same in another order. -/
theorem mapM_perm {items items' : List α} (hperm : items.Perm items') {found : List β}
    (h : items.mapM f = .ok found) : ∃ found', items'.mapM f = .ok found' ∧ found.Perm found' := by
  -- on how the items were permuted, from both ends of each exchange
  induction hperm generalizing found with
  | nil => exact ⟨found, h, .refl _⟩
  | cons a _ ih =>
    obtain ⟨b, rest, ha, hrest, rfl⟩ := mapM_cons_eq_ok.1 h
    obtain ⟨rest', hrest', hperm⟩ := ih hrest
    exact ⟨b :: rest', mapM_cons_eq_ok.2 ⟨b, rest', ha, hrest', rfl⟩, hperm.cons b⟩
  | swap a a' items =>
    -- both are read, and neither reading depends on the other
    obtain ⟨b', tail, ha', htail, rfl⟩ := mapM_cons_eq_ok.1 h
    obtain ⟨b, rest, ha, hrest, rfl⟩ := mapM_cons_eq_ok.1 htail
    refine ⟨b :: b' :: rest, ?_, .swap _ _ _⟩
    exact mapM_cons_eq_ok.2 ⟨b, _, ha, mapM_cons_eq_ok.2 ⟨b', rest, ha', hrest, rfl⟩, rfl⟩
  | trans _ _ ih ih' =>
    obtain ⟨found', hfound', hperm⟩ := ih h
    obtain ⟨found'', hfound'', hperm'⟩ := ih' hfound'
    exact ⟨found'', hfound'', hperm.trans hperm'⟩

end MapM

/-! ### What is sure of a result -/

section Ensures

variable {ε α β σ : Type} {value : α → Prop} {error : ε → Prop}

/-- The result `x` satisfies `value` if it is a value, and `error` if it is an error. -/
def Ensures (x : Except ε α) (value : α → Prop) (error : ε → Prop) : Prop :=
  match x with
  | .ok a => value a
  | .error e => error e

theorem Ensures.imp {x : Except ε α} {value' : α → Prop} {error' : ε → Prop}
    (h : Ensures x value error) (hvalue : ∀ a, value a → value' a)
    (herror : ∀ e, error e → error' e) : Ensures x value' error' := by
  cases x with
  | ok a => exact hvalue a h
  | error e => exact herror e h

/-- What is sure of `x >>= k`: an error is that of `x` or of `k`. -/
theorem Ensures.bind {x : Except ε α} {k : α → Except ε β} {value' : β → Prop}
    (hx : Ensures x value error) (hk : ∀ a, value a → Ensures (k a) value' error) :
    Ensures (x >>= k) value' error := by
  cases x with
  | ok a => exact hk a hx
  | error e => exact hx

theorem Ensures.map {x : Except ε α} (hx : Ensures x value error) (g : α → β) {value' : β → Prop}
    (hg : ∀ a, value a → value' (g a)) : Ensures (g <$> x) value' error := by
  cases x with
  | ok a => exact hg a hx
  | error e => exact hx

/-- What is sure for two reasons. -/
theorem Ensures.and {x : Except ε α} {value' : α → Prop} {error' : ε → Prop}
    (h : Ensures x value error) (h' : Ensures x value' error') :
    Ensures x (fun a => value a ∧ value' a) fun e => error e ∧ error' e := by
  cases x with
  | ok a => exact ⟨h, h'⟩
  | error e => exact ⟨h, h'⟩

/-- **`foldlM`**: what every `step` keeps holds at the end, and an error is that of a step. -/
theorem Ensures.foldlM {step : σ → α → Except ε σ} {invariant : σ → Prop} (items : List α) {s : σ}
    (hs : invariant s)
    (hstep : ∀ a ∈ items, ∀ s, invariant s → Ensures (step s a) invariant error) :
    Ensures (items.foldlM step s) invariant error := by
  -- on the items left, from any state that the invariant holds of
  induction items generalizing s with
  | nil => exact hs
  | cons a items ih =>
    obtain ⟨ha, hrest⟩ := List.forall_mem_cons.1 hstep
    rw [List.foldlM_cons]
    exact (ha s hs).bind fun s' hs' => ih hs' hrest

/-- **`foldlM`**, where an item decides whether its `step` fails: the whole fails just if some item
is `Bad`. -/
theorem Ensures.foldlM_exists {step : σ → α → Except ε σ} {invariant : σ → Prop} {Bad : α → Prop}
    (items : List α) {s : σ} (hs : invariant s)
    (hstep : ∀ a ∈ items, ∀ s, invariant s →
      Ensures (step s a) (fun s' => invariant s' ∧ ¬ Bad a) fun _ => Bad a) :
    Ensures (items.foldlM step s) (fun s' => invariant s' ∧ ∀ a ∈ items, ¬ Bad a)
      fun _ => ∃ a ∈ items, Bad a := by
  induction items generalizing s with
  | nil => exact ⟨hs, nofun⟩
  | cons a items ih =>
    obtain ⟨ha, hrest⟩ := List.forall_mem_cons.1 hstep
    rw [List.foldlM_cons]
    -- the first step fails just if `a` is bad, and otherwise the rest decides
    refine ((ha s hs).imp (fun _ h => h) fun _ hbad => ⟨a, List.mem_cons_self, hbad⟩).bind ?_
    intro s' hs'
    apply (ih hs'.1 hrest).imp
    · intro _ hall
      exact ⟨hall.1, List.forall_mem_cons.2 ⟨hs'.2, hall.2⟩⟩
    · intro _ hbad
      obtain ⟨b, hb, hbad⟩ := hbad
      exact ⟨b, List.mem_cons_of_mem _ hb, hbad⟩

/-- **`mapM`** gives as many values as there are items, each as it should be. -/
theorem Ensures.mapM {f : α → Except ε β} {value : β → Prop} (items : List α)
    (h : ∀ a ∈ items, Ensures (f a) value error) :
    Ensures (items.mapM f) (fun found => found.length = items.length ∧ ∀ b ∈ found, value b)
      error := by
  induction items with
  | nil => exact ⟨rfl, nofun⟩
  | cons a items ih =>
    obtain ⟨ha, hrest⟩ := List.forall_mem_cons.1 h
    rw [List.mapM_cons]
    refine ha.bind fun b hb => (ih hrest).bind fun found hfound => ?_
    exact ⟨congrArg (· + 1) hfound.1, List.forall_mem_cons.2 ⟨hb, hfound.2⟩⟩

/-- `liftM` makes a fault an error. -/
theorem Ensures.liftM {x : Except Fault α} {fault : Fault → Prop} (h : Ensures x value fault) :
    Ensures (MonadLiftT.monadLift x : Except Error α) value
      fun e => ∃ c, e = .fault c ∧ fault c := by
  cases x with
  | ok a => exact h
  | error c => exact ⟨c, rfl, h⟩

/-- Without an error there is a value. -/
theorem Ensures.exists_ok {x : Except ε α} (h : Ensures x value fun _ => False) :
    ∃ a, x = .ok a ∧ value a := by
  cases x with
  | ok a => exact ⟨a, rfl, h⟩
  | error e => exact h.elim

/-- A condition `T` that is sure just of an error decides whether there is one. -/
theorem Ensures.exists_error_iff {x : Except ε α} {T : Prop}
    (h : Ensures x (fun _ => ¬ T) fun _ => T) : (∃ e, x = .error e) ↔ T := by
  cases x with
  | ok a =>
    refine iff_of_false ?_ h
    intro herror
    obtain ⟨e, he⟩ := herror
    cases he
  | error e => exact iff_of_true ⟨e, rfl⟩ h

end Ensures

end Dependence
