import WideColumn.Proofs.Catalog.Outcome

/-! # Work on a catalog and the stopwatch

No work on a catalog reads the stopwatch. So it comes to the same however often the stopwatch was
read before, and leaves the same machine but for the number of these readings. -/
namespace WideColumn

namespace Machine

/-- The machine, had its stopwatch been read that often. -/
def lookedAt (k : Machine) (n : Nat) : Machine := { k with looks := n }

/-- A call does not read the stopwatch. -/
def Unwatched {α : Type} (call : StateM Machine α) : Prop :=
  ∀ k n, call (k.lookedAt n) = ((call k).1, (call k).2.lookedAt n)

theorem unwatched_change (f : Volume → Except DiskError Volume) : Unwatched (change f) := by
  intro k n
  cases ho : k.outages k.calls with
  | some o => simp only [change, called, lookedAt, ho]
  | none => cases hv : f k.volume <;> simp only [change, called, lookedAt, ho, hv]

theorem unwatched_writeFile (p : Path) (text : String) : Unwatched (writeFile p text) := by
  intro k n
  cases ho : k.outages k.calls with
  | some o => cases hr : o.residue <;> simp only [writeFile, called, lookedAt, ho, hr]
  | none => cases hv : k.volume.write p (.text text)
    <;> simp only [writeFile, called, lookedAt, ho, hv]

end Machine

namespace Catalog
open WideColumn.Schema

variable {α β : Type} {x : Program α} {name : String}

/-- A program does not read the stopwatch. -/
def Unwatched (x : Program α) : Prop :=
  ∀ c k n, exec x c (k.lookedAt n) = ((exec x c k).1, (exec x c k).2.lookedAt n)

namespace Unwatched

protected theorem pure (a : α) : Unwatched (Pure.pure a) := fun _ _ _ => rfl

protected theorem throw (e : Fault) : Unwatched (MonadExcept.throw e : Program α) :=
  fun _ _ _ => rfl

protected theorem get : Unwatched MonadState.get := fun _ _ _ => rfl

protected theorem modify (g : Catalog → Catalog) : Unwatched (modify g) := fun _ _ _ => rfl

protected theorem lift (y : Except Fault α) : Unwatched (liftM y) := by
  intro c k n
  rw [exec_lift, exec_lift]

protected theorem ask (g : Catalog → Except Fault α) : Unwatched (ask g) := by
  intro c k n
  rw [exec_ask, exec_ask]

protected theorem demand {fault : String → Fault} {call : StateM Machine (Except DiskError α)}
    (h : Machine.Unwatched call) : Unwatched (demand fault (liftM call)) := by
  intro c k n
  rw [exec_demand, exec_demand, h]

protected theorem bind {f : α → Program β} (hx : Unwatched x) (hf : ∀ a, Unwatched (f a)) :
    Unwatched (x >>= f) := by
  intro c k n
  have hagain := hx c k n
  obtain ⟨r, d, k', hrun⟩ : ∃ r d k', exec x c k = ((r, d), k') := ⟨_, _, _, rfl⟩
  rw [hrun] at hagain
  cases r with
  | ok a => rw [exec_bind_ok hrun, exec_bind_ok hagain, hf a]
  | error e => rw [exec_bind_error hrun, exec_bind_error hagain]

protected theorem map (f : α → β) (hx : Unwatched x) : Unwatched (f <$> x) := by
  rw [map_eq_pure_bind]
  exact hx.bind fun a => .pure (f a)

protected theorem mapM {f : α → Program β} (hf : ∀ a, Unwatched (f a)) (l : List α) :
    Unwatched (l.mapM f) := by
  induction l with
  | nil => exact .pure []
  | cons a l ih =>
    rw [List.mapM_cons]
    exact (hf a).bind fun b => ih.bind fun bs => .pure (b :: bs)

protected theorem readClock : Unwatched readClock := fun _ _ _ => rfl

protected theorem save (t : Table) : Unwatched (save t) := by
  refine Unwatched.get.bind fun c => ?_
  refine (Unwatched.demand (Machine.unwatched_change _)).bind fun _ => ?_
  exact Unwatched.demand (Machine.unwatched_writeFile _ _)

protected theorem mutate (op : Readings → Table → Except Fault (α × Table)) :
    Unwatched (mutate name op) := by
  refine (Unwatched.ask _).bind fun t => Unwatched.readClock.bind fun r => ?_
  refine (Unwatched.lift _).bind fun result => (Unwatched.save _).bind fun _ => ?_
  exact (Unwatched.modify _).bind fun _ => .pure _

protected theorem mutate_ (op : Readings → Table → Except Fault Table) :
    Unwatched (mutate_ name op) :=
  .mutate _

protected theorem alter (pairs : Properties) : Unwatched (alter name pairs) := by
  rw [alter]
  split
  · split
    · split
      · exact (Unwatched.mutate_ _).bind fun _ => .pure _
      · exact .throw _
    · refine (Unwatched.ask _).bind fun t => ?_
      split <;> exact (Unwatched.mutate_ _).bind fun _ => .pure _
  · exact .throw _

end Unwatched

end Catalog

end WideColumn
