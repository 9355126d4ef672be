import WideColumn.Proofs.Schema.Setting

/-! # Batches of properties

A batch is applied pair by pair, so two batches in one list are applied one after the other, and of
the pairs that name a property the last one decides. Every key has to name a property before any
value is looked at, and every value has to mean something before any option changes. -/
namespace WideColumn.Schema
open WideColumn.Text

namespace Properties

/-- Every key names a property. -/
def Known (batch : Properties) : Prop := ∀ pair ∈ batch, ∃ p : Property, p.Names pair.1

/-- Every value means something for the property that its key names. -/
def Valid (batch : Properties) : Prop :=
  ∀ pair ∈ batch, ∀ p : Property, p.Names pair.1 → ∃ a, p.Means pair.2 a

end Properties

namespace Options
open Properties

variable {o o' : Options} {pair : String × String} {batch more : Properties}
  {known : List (Property × String)} {e : Fault}

@[simp] theorem apply_nil (o : Options) : o.apply [] = .ok o := rfl

/-- The first pair of a batch is assigned before the rest is applied. -/
theorem apply_cons_eq_ok : o.apply (pair :: batch) = .ok o' ↔
    ∃ p a, Property.Names pair.1 p ∧ p.Means pair.2 a ∧ (o.assign p a).apply batch = .ok o' := by
  rw [apply, bind_eq_ok]
  constructor
  · intro h
    obtain ⟨known, hknown, hset⟩ := h
    obtain ⟨first, rest, hfirst, hrest, rfl⟩ := mapM_cons_eq_ok.mp hknown
    obtain ⟨p, hp, hfirst⟩ := bind_eq_ok.mp hfirst
    cases hfirst
    obtain ⟨next, hnext, hset⟩ := bind_eq_ok.mp hset
    obtain ⟨a, ha, rfl⟩ := set_eq_ok_iff.mp hnext
    exact ⟨p, a, resolve_eq_ok_iff.mp hp, ha, bind_eq_ok.mpr ⟨rest, hrest, hset⟩⟩
  · intro h
    obtain ⟨p, a, hp, ha, h⟩ := h
    obtain ⟨rest, hrest, hset⟩ := bind_eq_ok.mp h
    refine ⟨(p, pair.2) :: rest, mapM_cons_eq_ok.mpr ⟨_, rest, ?_, hrest, rfl⟩, ?_⟩
    · exact bind_eq_ok.mpr ⟨p, resolve_eq_ok_iff.mpr hp, rfl⟩
    · exact bind_eq_ok.mpr ⟨_, set_eq_ok_iff.mpr ⟨a, ha, rfl⟩, hset⟩

theorem exists_apply_eq_ok_iff : (∃ o', o.apply batch = .ok o') ↔
    ∀ pair ∈ batch, ∃ p a, Property.Names pair.1 p ∧ p.Means pair.2 a := by
  induction batch generalizing o with
  | nil => simp
  | cons pair batch ih =>
    rw [List.forall_mem_cons]
    constructor
    · intro h
      obtain ⟨o', h⟩ := h
      obtain ⟨p, a, hp, ha, h⟩ := apply_cons_eq_ok.mp h
      exact ⟨⟨p, a, hp, ha⟩, ih.mp ⟨o', h⟩⟩
    · intro h
      obtain ⟨⟨p, a, hp, ha⟩, hbatch⟩ := h
      obtain ⟨o', h⟩ := ih.mpr hbatch
      exact ⟨o', apply_cons_eq_ok.mpr ⟨p, a, hp, ha, h⟩⟩

/-- Nothing but the keys and the values decides whether a batch goes through. -/
theorem exists_apply_eq_ok_iff_valid :
    (∃ o', o.apply batch = .ok o') ↔ Known batch ∧ Valid batch := by
  rw [exists_apply_eq_ok_iff]
  constructor
  · intro h
    refine ⟨fun pair hpair => ?_, fun pair hpair q hq => ?_⟩
    · obtain ⟨p, -, hp, -⟩ := h pair hpair
      exact ⟨p, hp⟩
    · obtain ⟨p, a, hp, ha⟩ := h pair hpair
      obtain rfl := hp.unique hq
      exact ⟨a, ha⟩
  · intro h pair hpair
    obtain ⟨hknown, hvalid⟩ := h
    obtain ⟨p, hp⟩ := hknown pair hpair
    obtain ⟨a, ha⟩ := hvalid pair hpair p hp
    exact ⟨p, a, hp, ha⟩

/-- Two batches in one list are applied one after the other. -/
theorem apply_append_eq_ok :
    o.apply (batch ++ more) = .ok o' ↔ ∃ next, o.apply batch = .ok next ∧
    next.apply more = .ok o' := by
  induction batch generalizing o with
  | nil => simp
  | cons pair batch ih =>
    rw [List.cons_append, apply_cons_eq_ok]
    constructor
    · intro h
      obtain ⟨p, a, hp, ha, h⟩ := h
      obtain ⟨next, hnext, h⟩ := ih.mp h
      exact ⟨next, apply_cons_eq_ok.mpr ⟨p, a, hp, ha, hnext⟩, h⟩
    · intro h
      obtain ⟨next, hnext, h⟩ := h
      obtain ⟨p, a, hp, ha, hnext⟩ := apply_cons_eq_ok.mp hnext
      exact ⟨p, a, hp, ha, ih.mpr ⟨next, hnext, h⟩⟩

/-- What a property is after a batch: what the last pair that names it says, or what it was
before. -/
def Decides (o o' : Options) (batch : Properties) (p : Property) : Prop :=
  match (batch.filter fun pair => p.Names pair.1).getLast? with
  | some pair => p.Means pair.2 (o'.setting p)
  | none => o'.setting p = o.setting p

theorem decides_of_apply (h : o.apply batch = .ok o') (p : Property) : Decides o o' batch p := by
  induction batch generalizing o with
  | nil =>
    cases h
    rfl
  | cons pair batch ih =>
    obtain ⟨q, a, hq, ha, h⟩ := apply_cons_eq_ok.mp h
    have hrest := ih h
    rw [Decides] at hrest ⊢
    by_cases hp : p.Names pair.1
    · obtain rfl := hp.unique hq
      rw [List.filter_cons_of_pos (by simpa using hp), List.getLast?_cons]
      -- the first pair decides where no later one does
      cases hlast : (batch.filter fun pair => p.Names pair.1).getLast? with
      | none =>
        rw [hlast] at hrest
        simpa [hrest] using ha
      | some last =>
        rw [hlast] at hrest
        exact hrest
    · have hne : p ≠ q := fun heq => hp (heq ▸ hq)
      rw [List.filter_cons_of_neg (by simpa using hp)]
      rwa [setting_assign_of_ne hne] at hrest

/-- A property keeps its value or gets one that a text means. -/
theorem setting_of_apply (h : o.apply batch = .ok o') (p : Property) :
    o'.setting p = o.setting p ∨ ∃ text, p.Means text (o'.setting p) := by
  have hlast := decides_of_apply h p
  rw [Decides] at hlast
  split at hlast
  · exact .inr ⟨_, hlast⟩
  · exact .inl hlast

theorem one_le_versions_of_apply (h : o.apply batch = .ok o') (hone : 1 ≤ o.versions) :
    1 ≤ o'.versions := by
  rcases setting_of_apply h .versions with heq | ⟨text, -, hmeans⟩
  · exact le_of_le_of_eq hone heq.symm
  · exact UInt32.le_iff_toNat_le.mpr hmeans

theorem one_le_blockSize_of_apply (h : o.apply batch = .ok o') (hone : 1 ≤ o.blockSize) :
    1 ≤ o'.blockSize := by
  rcases setting_of_apply h .blockSize with heq | ⟨text, -, hmeans⟩
  · exact le_of_le_of_eq hone heq.symm
  · exact UInt32.le_iff_toNat_le.mpr hmeans

theorem code_of_setAll_eq_error (h : o.setAll known = .error e) : e.code = .invalidArgument := by
  induction known generalizing o with
  | nil => cases h
  | cons first known ih =>
    rcases bind_eq_error.mp h with h | ⟨next, -, h⟩
    · exact code_of_set_eq_error h
    · exact ih h

private theorem not_names_of_eq_error {value : String} {key : String}
    (h : (resolve key >>= fun p => pure (p, value)) = .error e) :
    (∀ p : Property, ¬p.Names key) ∧ e = .unknownProperty key := by
  rcases bind_eq_error.mp h with h | ⟨p, -, h⟩
  · exact resolve_eq_error_iff.mp h
  · cases h

/-- The first key that names no property is the one that is refused, whatever the values are. -/
theorem apply_of_not_known (h : ¬Known batch) :
    ∃ before pair after, batch = before ++ pair :: after ∧
    Known before ∧ (∀ p : Property, ¬p.Names pair.1) ∧
    o.apply batch = .error (.unknownProperty pair.1) := by
  cases happly : o.apply batch with
  | ok o' => exact absurd (exists_apply_eq_ok_iff_valid.mp ⟨o', happly⟩).1 h
  | error e =>
    rcases bind_eq_error.mp happly with hkeys | ⟨known, hkeys, -⟩
    · obtain ⟨before, pair, after, rfl, hpair, hbefore⟩ := exists_of_mapM_eq_error hkeys
      obtain ⟨hnone, rfl⟩ := not_names_of_eq_error hpair
      refine ⟨before, pair, after, rfl, fun first hfirst => ?_, hnone, rfl⟩
      obtain ⟨c, hc⟩ := hbefore first hfirst
      obtain ⟨p, hp, -⟩ := bind_eq_ok.mp hc
      exact ⟨p, resolve_eq_ok_iff.mp hp⟩
    · refine absurd (fun pair hpair => ?_) h
      obtain ⟨c, hc⟩ := forall_of_mapM_eq_ok hkeys pair hpair
      obtain ⟨p, hp, -⟩ := bind_eq_ok.mp hc
      exact ⟨p, resolve_eq_ok_iff.mp hp⟩

theorem code_of_known (hknown : Known batch) (h : o.apply batch = .error e) :
    e.code = .invalidArgument := by
  rcases bind_eq_error.mp h with hkeys | ⟨known, -, hset⟩
  · obtain ⟨before, pair, after, rfl, hpair, -⟩ := exists_of_mapM_eq_error hkeys
    obtain ⟨p, hp⟩ := hknown pair (by simp)
    exact absurd hp ((not_names_of_eq_error hpair).1 p)
  · exact code_of_setAll_eq_error hset

/-- Work on options themselves. What was changed before a fault stays changed. -/
abbrev InPlace := ExceptT Fault (StateM Options)

/-- Apply a batch in place. The values are set on a copy, which takes the place of the options at
the end. -/
def applyInPlace (batch : Properties) : InPlace Unit := do
  let known ← liftM (batch.mapM fun pair => return (← resolve pair.1, pair.2) : Except Fault _)
  let mut copy ← MonadState.get
  for first in known do
    copy ← copy.set first.1 first.2
  MonadState.set copy

section

variable {α β : Type} {x : InPlace α} {f : α → InPlace β} {s s' : Options}

private theorem run_bind_ok {a : α} (h : x.run.run s = (.ok a, s')) :
    (x >>= f).run.run s = (f a).run.run s' := by
  rw [ExceptT.run_bind, StateT.run_bind, h]
  rfl

private theorem run_bind_error (h : x.run.run s = (.error e, s')) :
    (x >>= f).run.run s = (.error e, s') := by
  rw [ExceptT.run_bind, StateT.run_bind, h]
  rfl

end

/-- The loop works on the copy alone. -/
private theorem run_loop (known : List (Property × String)) (copy o : Options) :
    (forIn known copy fun (first : Property × String) copy => do
      let copy ← (liftM (copy.set first.1 first.2) : InPlace Options)
      pure (ForInStep.yield copy)).run.run o = (copy.setAll known, o) := by
  induction known generalizing copy with
  | nil => rfl
  | cons first known ih =>
    rw [List.forIn_cons, setAll]
    cases copy.set first.1 first.2 with
    | error e => rfl
    | ok next => exact ih next

theorem run_applyInPlace (o : Options) (batch : Properties) : (applyInPlace batch).run.run o =
    match o.apply batch with
    | .ok o' => (.ok (), o')
    | .error e => (.error e, o) := by
  rw [applyInPlace, apply]
  cases hkeys : (batch.mapM fun pair => return (← resolve pair.1, pair.2) : Except Fault _) with
  | error e => exact run_bind_error rfl
  | ok known =>
    have hloop := run_loop known o o
    have hknown : (liftM (Except.ok known : Except Fault _) : InPlace _).run.run o =
      (.ok known, o) := rfl
    have hcopy : (MonadState.get : InPlace Options).run.run o = (.ok o, o) := rfl
    rw [ok_bind, run_bind_ok hknown, run_bind_ok hcopy]
    cases hset : o.setAll known with
    | error e =>
      rw [hset] at hloop
      exact run_bind_error hloop
    | ok o' =>
      rw [hset] at hloop
      exact run_bind_ok hloop

theorem exists_invalidProperty_iff :
    (∃ e, o.apply batch = .error e ∧ e.code = .invalidProperty) ↔ ¬Known batch := by
  constructor
  · intro h hknown
    obtain ⟨e, he, hcode⟩ := h
    rw [code_of_known hknown he] at hcode
    cases hcode
  · intro h
    obtain ⟨-, pair, -, -, -, -, he⟩ := apply_of_not_known h
    exact ⟨_, he, rfl⟩

/-- It is refused for a value exactly if every key names a property and some value means nothing for
its key. -/
theorem exists_invalidArgument_iff :
    (∃ e, o.apply batch = .error e ∧ e.code = .invalidArgument) ↔ Known batch ∧ ¬Valid batch := by
  constructor
  · intro h
    obtain ⟨e, he, hcode⟩ := h
    have hknown : Known batch := by
      by_contra hunknown
      obtain ⟨-, pair, -, -, -, -, he'⟩ := apply_of_not_known (o := o) hunknown
      rw [he'] at he
      cases he
      cases hcode
    refine ⟨hknown, fun hvalid => ?_⟩
    obtain ⟨o', ho'⟩ := exists_apply_eq_ok_iff_valid.mpr ⟨hknown, hvalid⟩
    rw [ho'] at he
    cases he
  · intro h
    obtain ⟨hknown, hinvalid⟩ := h
    cases happly : o.apply batch with
    | ok o' => exact absurd (exists_apply_eq_ok_iff_valid.mp ⟨o', happly⟩).2 hinvalid
    | error e => exact ⟨e, rfl, code_of_known hknown happly⟩

/-- How options take a batch of properties, and a second batch after it. -/
structure Takes (o : Options) (batch : Properties) : Prop where
  unknown : (∃ e, o.apply batch = .error e ∧ e.code = .invalidProperty) ↔ ¬Known batch
  invalid : (∃ e, o.apply batch = .error e ∧ e.code = .invalidArgument) ↔ Known batch ∧ ¬Valid batch
  applied : (∃ o', o.apply batch = .ok o') ↔ Known batch ∧ Valid batch
  decides : ∀ o', o.apply batch = .ok o' → ∀ p, Decides o o' batch p
  versions : ∀ o', o.apply batch = .ok o' → 1 ≤ o.versions → 1 ≤ o'.versions
  blockSize : ∀ o', o.apply batch = .ok o' → 1 ≤ o.blockSize → 1 ≤ o'.blockSize
  inPlace : (applyInPlace batch).run.run o =
    match o.apply batch with
    | .ok o' => (.ok (), o')
    | .error e => (.error e, o)
  append : ∀ more o', o.apply (batch ++ more) = .ok o' ↔ ∃ next, o.apply batch = .ok next ∧
    next.apply more = .ok o'
  both : ∀ more o₁ o₂, o.apply batch = .ok o₁ → o.apply more = .ok o₂ → ∃ o',
    o.apply (batch ++ more) = .ok o'

/-- A batch with a key that names no property is refused for it, whatever else is in the batch.
Otherwise it is refused when some value means nothing for its key, and then the options are what
they were. Otherwise every property has the value of the last pair that names it, or the value that
it had, and there is still room for a version and for a byte of a block. Two batches in one list
come to the same as one after the other. -/
theorem takes_batch (o : Options) (batch : Properties) : Takes o batch where
  unknown := exists_invalidProperty_iff
  invalid := exists_invalidArgument_iff
  applied := exists_apply_eq_ok_iff_valid
  decides := fun o' h p => decides_of_apply h p
  versions := fun o' h => one_le_versions_of_apply h
  blockSize := fun o' h => one_le_blockSize_of_apply h
  inPlace := run_applyInPlace o batch
  append := fun more o' => apply_append_eq_ok
  both := by
    intro more o₁ o₂ hbatch hmore
    obtain ⟨o', ho'⟩ := exists_apply_eq_ok_iff.mpr (exists_apply_eq_ok_iff.mp ⟨o₂, hmore⟩)
    exact ⟨o', apply_append_eq_ok.mpr ⟨o₁, hbatch, ho'⟩⟩

end Options

end WideColumn.Schema
