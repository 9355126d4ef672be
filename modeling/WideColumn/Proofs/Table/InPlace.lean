import WideColumn.Proofs.Table.Run

/-! # Writes to a table in place

A write need not go to a copy: the fields of the table can be set one after the other, and then
whatever was set before a fault stays set. Since every check stands before the first change, a
refused write leaves the table as it was, and one that goes through does what the write does that
makes a new table. -/
namespace WideColumn.Table
open WideColumn.Schema WideColumn.Time

/-- Work on a table itself. What was changed before a fault stays changed. -/
abbrev InPlace := ExceptT Fault (StateM Table)

namespace InPlace

variable {α β : Type} {t : Table}

def ask (f : Table → Except Fault α) : InPlace α := do
  match f (← MonadState.get) with
  | .ok a => return a
  | .error e => throw e

def refuse (unfit : Table → Bool) (e : Table → Fault) : InPlace Unit :=
  ask fun t => if unfit t then throw (e t) else pure ()

def exec (x : InPlace α) (t : Table) : Except Fault α × Table := x.run.run t

/-- The answer of a write, with the table that it made, or the old one if it was refused. -/
def settle (t : Table) : Except Fault (α × Table) → Except Fault α × Table
  | .ok (a, next) => (.ok a, next)
  | .error e => (.error e, t)

theorem exec_bind_ok {x : InPlace β} {f : β → InPlace α} {b : β} {s : Table}
    (h : exec x t = (.ok b, s)) :
    exec (x >>= f) t = exec (f b) s := by
  rw [exec] at h
  rw [exec, ExceptT.run_bind, StateT.run_bind, h]
  rfl

theorem exec_bind_error {x : InPlace β} {f : β → InPlace α} {e : Fault} {s : Table}
    (h : exec x t = (.error e, s)) : exec (x >>= f) t = (.error e, s) := by
  rw [exec] at h
  rw [exec, ExceptT.run_bind, StateT.run_bind, h]
  rfl

theorem exec_get (t : Table) : exec (MonadState.get : InPlace Table) t = (.ok t, t) := rfl

theorem exec_ask (g : Table → Except Fault β) (t : Table) : exec (ask g) t = (g t, t) := by
  rw [ask, exec_bind_ok (exec_get t)]
  cases g t <;> rfl

/-- A check that fails leaves the table alone, and after one that holds the work goes on with the
same table. -/
theorem exec_ask_bind {g : Table → Except Fault β} {x : β → InPlace α}
    {f : β → Except Fault (α × Table)} (h : ∀ b, g t = .ok b → exec (x b) t = settle t (f b)) :
    exec (ask g >>= x) t = settle t (g t >>= f) := by
  have hask := exec_ask g t
  cases hg : g t with
  | ok b =>
    rw [hg] at hask
    rw [exec_bind_ok hask]
    exact h b hg
  | error e =>
    rw [hg] at hask
    exact exec_bind_error hask

theorem exec_refuse_bind {unfit : Table → Bool} {e : Table → Fault} {x : InPlace α}
    {result : Except Fault (α × Table)} (hunfit : unfit t = true → result = .error (e t))
    (hfit : unfit t = false → exec x t = settle t result) :
    exec (refuse unfit e >>= fun _ => x) t = settle t result := by
  have hask := exec_ask (fun t => if unfit t then throw (e t) else pure ()) t
  cases h : unfit t with
  | true =>
    rw [h] at hask
    rw [hunfit h]
    exact exec_bind_error hask
  | false =>
    rw [h] at hask
    rw [refuse, exec_bind_ok hask]
    exact hfit h

end InPlace

open InPlace

/-- Carry out a write field by field, the checks first. -/
def Operation.inPlace (r : Readings) : Operation → InPlace (Option Nat)
  | put row family qualifier value => do
    ask (·.checkEnabled .put)
    ask (·.checkFamily family)
    let (entries, number, isNew) :=
      Entries.put (← MonadState.get).entries row family qualifier r.version value
    modify fun t => { t with entries }
    if isNew then modify fun t => { t with rowCount := t.rowCount + 1 }
    modify (·.touch r.done)
    return some number.toNat
  | delete row family qualifier => do
    ask (·.checkEnabled .delete)
    ask (·.checkFamily family)
    refuse (fun t => (Entries.find? t.entries row family qualifier).isNone) fun _ =>
      .noCell row family qualifier
    let (entries, gone) := Entries.erase (← MonadState.get).entries row family qualifier
    modify fun t => { t with entries }
    if gone then modify fun t => { t with rowCount := lessRows t.rowCount 1 }
    modify (·.touch r.done)
    return none
  | deleteRow row => do
    ask (·.checkEnabled .deleteRow)
    let removed := (Entries.ofRow (← MonadState.get).entries row).length
    modify fun t => { t with entries := Entries.withoutRow t.entries row }
    modify fun t => { t with rowCount := lessRows t.rowCount removed }
    modify (·.touch r.done)
    return some removed
  | createFamily name batch => do
    ask (·.checkEnabled .createFamily)
    ask fun _ => checkFamilyName name
    refuse (fun t => (t.family? name).isSome) fun _ => .familyExists name
    let family ← ask fun _ => Family.ofProperties name batch
    modify fun t => { t with families := t.families ++ [family] }
    modify (·.touch r.done)
    return none
  | updateFamily name batch => do
    ask (·.checkEnabled .updateFamily)
    let family ← ask (·.needFamily name)
    let options ← ask fun _ => family.options.apply batch
    modify fun t => { t with families := replaceOptions name options t.families }
    modify (·.touch r.done)
    return none
  | deleteFamily name => do
    ask (·.checkEnabled .deleteFamily)
    ask (·.checkFamily name)
    modify fun t => { t with families := t.families.filter fun f => f.name != name }
    modify (·.touch r.done)
    return none
  | enable => do
    refuse (!·.disabled) fun t => .alreadyEnabled t.name
    modify fun t => { t with disabled := false }
    modify (·.touch r.done)
    return none
  | disable => do
    refuse (·.disabled) fun t => .alreadyDisabled t.name
    modify fun t => { t with disabled := true }
    modify (·.touch r.done)
    return none
  | recount => do
    let n := (← MonadState.get).recount.1
    modify fun t => { t with rowCount := .ofNat n }
    return some n

variable {t t' : Table} {r : Readings} {op : Operation} {n : Option Nat}

/-- In place or on a copy, a write comes to the same. -/
theorem exec_inPlace (op : Operation) (r : Readings) (t : Table) :
    exec (op.inPlace r) t = settle t (op.run r t) := by
  cases op with
  | put row family qualifier value =>
    rw [Operation.run, put, bind_assoc]
    refine exec_ask_bind fun _ _ => ?_
    rw [bind_assoc]
    refine exec_ask_bind fun _ _ => ?_
    rw [exec_bind_ok (exec_get t)]
    rcases Entries.put t.entries row family qualifier r.version value with ⟨entries, number, isNew⟩
    cases isNew <;> rfl
  | delete row family qualifier =>
    rw [Operation.run, delete, bind_assoc]
    refine exec_ask_bind fun _ _ => ?_
    rw [bind_assoc]
    refine exec_ask_bind fun _ _ => ?_
    refine exec_refuse_bind (fun hcell => ?_) fun hcell => ?_
    · rw [hcell]
      rfl
    · rw [hcell, exec_bind_ok (exec_get t)]
      rcases Entries.erase t.entries row family qualifier with ⟨entries, gone⟩
      cases gone <;> rfl
  | deleteRow row =>
    rw [Operation.run, deleteRow, bind_assoc]
    exact exec_ask_bind fun _ _ => rfl
  | createFamily name batch =>
    rw [Operation.run, createFamily, bind_assoc]
    refine exec_ask_bind fun _ _ => ?_
    rw [bind_assoc]
    refine exec_ask_bind fun _ _ => ?_
    refine exec_refuse_bind (fun htaken => ?_) fun hfree => ?_
    · rw [htaken]
      rfl
    · simp only [hfree, Bool.false_eq_true, if_false, bind_assoc]
      exact exec_ask_bind fun _ _ => rfl
  | updateFamily name batch =>
    rw [Operation.run, updateFamily, bind_assoc]
    refine exec_ask_bind fun _ _ => ?_
    rw [bind_assoc]
    refine exec_ask_bind fun _ _ => ?_
    rw [bind_assoc]
    exact exec_ask_bind fun _ _ => rfl
  | deleteFamily name =>
    rw [Operation.run, deleteFamily, bind_assoc]
    refine exec_ask_bind fun _ _ => ?_
    rw [bind_assoc]
    exact exec_ask_bind fun _ _ => rfl
  | enable =>
    rw [Operation.run, enable]
    refine exec_refuse_bind (fun henabled => ?_) fun hdisabled => ?_
    · rw [Bool.not_eq_true'] at henabled
      rw [henabled]
      rfl
    · rw [Bool.not_eq_false'] at hdisabled
      rw [hdisabled]
      rfl
  | disable =>
    rw [Operation.run, disable]
    refine exec_refuse_bind (fun hdisabled => ?_) fun hdisabled => ?_
    · rw [hdisabled]
      rfl
    · rw [hdisabled]
      rfl
  | recount => rfl

/-- The time of the last update is the later one of what it was and what the clock shows. -/
structure Refreshed (now : Instant) (t t' : Table) : Prop where
  le_updatedAt : t.updatedAt ≤ t'.updatedAt
  now_le_updatedAt : now ≤ t'.updatedAt
  updatedAt_eq : t'.updatedAt = t.updatedAt ∨ t'.updatedAt = now

theorem latest_spec (s now : Instant) :
    s ≤ s.latest now ∧ now ≤ s.latest now ∧ (s.latest now = s ∨ s.latest now = now) := by
  rw [Instant.latest]
  split
  · next hlt => exact ⟨Int.le_of_lt hlt, Int.le_refl now.place, .inr rfl⟩
  · next hle => exact ⟨Int.le_refl s.place, Int.not_lt.mp hle, .inl rfl⟩

theorem refreshed_touch (now : Instant) (h : t'.updatedAt = t.updatedAt) :
    Refreshed now t (t'.touch now) := by
  obtain ⟨hold, hnow, heq⟩ := latest_spec t.updatedAt now
  have htouch : (t'.touch now).updatedAt = t.updatedAt.latest now := by rw [touch, h]
  exact ⟨htouch ▸ hold, htouch ▸ hnow, htouch ▸ heq⟩

/-- What a write to a table keeps. A recount is no write: it does not note the time. -/
def Operation.Keeps (r : Readings) (t t' : Table) : Operation → Prop
  | put _ _ _ _ | delete _ _ _ | deleteRow _ =>
    t'.families = t.families ∧ t'.disabled = t.disabled ∧ Refreshed r.done t t'
  | createFamily _ _ | updateFamily _ _ | deleteFamily _ =>
    t'.entries = t.entries ∧ t'.rowCount = t.rowCount ∧ t'.disabled = t.disabled ∧
      Refreshed r.done t t'
  | enable => t' = { t with disabled := false, updatedAt := t'.updatedAt } ∧ Refreshed r.done t t'
  | disable => t' = { t with disabled := true, updatedAt := t'.updatedAt } ∧ Refreshed r.done t t'
  | recount => t' = { t with rowCount := t'.rowCount }

theorem keeps_of_run (hrun : op.run r t = .ok (n, t')) : op.Keeps r t t' := by
  cases Operation.effect_of_run hrun with
  | put h =>
    obtain ⟨-, -, -, rfl⟩ := put_eq_ok.mp h
    exact ⟨rfl, rfl, refreshed_touch _ rfl⟩
  | delete h =>
    obtain ⟨-, -, -, rfl⟩ := delete_eq_ok.mp h
    exact ⟨rfl, rfl, refreshed_touch _ rfl⟩
  | deleteRow h =>
    obtain ⟨-, -, rfl⟩ := deleteRow_eq_ok.mp h
    exact ⟨rfl, rfl, refreshed_touch _ rfl⟩
  | createFamily h =>
    obtain ⟨-, -, -, -, -, rfl⟩ := createFamily_eq_ok.mp h
    exact ⟨rfl, rfl, rfl, refreshed_touch _ rfl⟩
  | updateFamily h =>
    obtain ⟨-, -, -, -, -, rfl⟩ := updateFamily_eq_ok.mp h
    exact ⟨rfl, rfl, rfl, refreshed_touch _ rfl⟩
  | deleteFamily h =>
    obtain ⟨-, -, rfl⟩ := deleteFamily_eq_ok.mp h
    exact ⟨rfl, rfl, rfl, refreshed_touch _ rfl⟩
  | enable h =>
    obtain ⟨-, rfl⟩ := enable_eq_ok.mp h
    exact ⟨rfl, refreshed_touch _ rfl⟩
  | disable h =>
    obtain ⟨-, rfl⟩ := disable_eq_ok.mp h
    exact ⟨rfl, refreshed_touch _ rfl⟩
  | recount h =>
    cases h
    rfl

/-- How a write in place ends: with a fault and the table as it was, or with the table that the
write makes, which is the same table still. -/
def Operation.AllOrNothing (r : Readings) (t : Table)
    (op : Operation) : Except Fault (Option Nat) × Table → Prop
  | (.error e, t') => op.run r t = .error e ∧ t' = t
  | (.ok n, t') => op.run r t = .ok (n, t') ∧ t'.name = t.name ∧ t'.id = t.id ∧
    t'.createdAt = t.createdAt ∧
      op.Keeps r t t'

/-- A write that is refused leaves the table exactly as it was, although it is carried out field by
field; one that goes through keeps what identifies the table, notes the time, and changes what the
write is about and nothing else. This holds of every table, also of one whose entries, schema or
count do not fit together. -/
theorem allOrNothing_inPlace (op : Operation) (r : Readings) (t : Table) :
    op.AllOrNothing r t (exec (op.inPlace r) t) := by
  rw [exec_inPlace]
  cases hrun : op.run r t with
  | error e => exact ⟨hrun, rfl⟩
  | ok result =>
    obtain ⟨n, t'⟩ := result
    obtain ⟨hname, hid, hcreated, -⟩ := Operation.run_eq_ok hrun
    exact ⟨hrun, hname, hid, hcreated, keeps_of_run hrun⟩

end WideColumn.Table
