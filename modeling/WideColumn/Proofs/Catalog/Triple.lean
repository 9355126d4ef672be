import WideColumn.Catalog.Write
import WideColumn.Host.Machine
import WideColumn.Proofs.Catalog.Agreement

/-! # What programs on a catalog come to

A triple says what a program answers and leaves behind, on a machine whose disk does not fail. A
fault may stop the program at any step, and then memory and disk agree as they must have done
before. -/
namespace WideColumn

namespace Machine

variable {k : Machine} {p : Path} {text : String}

/-- No call of the disk fails. -/
def Calm (k : Machine) : Prop := ∀ n, k.outages n = none

theorem look_of_calm {α : Type} (h : k.Calm) (f : Volume → Except DiskError α) :
    look f k = (f k.volume, { k with calls := k.calls + 1 }) := by
  rw [look, called, h]

theorem change_of_calm (h : k.Calm) (f : Volume → Except DiskError Volume) :
    change f k = match f k.volume with
      | .error e => (.error e, { k with calls := k.calls + 1 })
      | .ok v => (.ok (), { k with volume := v, calls := k.calls + 1 }) := by
  cases hf : f k.volume <;> simp only [change, called, h k.calls, hf]

theorem writeFile_of_calm (h : k.Calm) :
    writeFile p text k = match k.volume.write p (.text text) with
      | .error e => (.error e, { k with calls := k.calls + 1 })
      | .ok v => (.ok (), { k with volume := v, calls := k.calls + 1 }) := by
  cases hw : k.volume.write p (.text text) <;> simp only [writeFile, called, h k.calls, hw]

end Machine

namespace Catalog

abbrev Program (α : Type) := CatalogM (StateM Machine) α

/-- What a program answers and leaves behind. -/
def exec {α : Type} (x : Program α) (c : Catalog)
    (k : Machine) : (Except Fault α × Catalog) × Machine :=
  (x.run.run c).run k

section

variable {α β : Type} {x : Program α} {f : α → Program β} {c c' : Catalog} {k k' : Machine}

theorem exec_bind_ok {a : α} (h : exec x c k = ((.ok a, c'), k')) :
    exec (x >>= f) c k = exec (f a) c' k' := by
  rw [exec] at h
  rw [exec, ExceptT.run_bind, StateT.run_bind, StateT.run_bind, h]
  rfl

theorem exec_bind_error {e : Fault} (h : exec x c k = ((.error e, c'), k')) :
    exec (x >>= f) c k = ((.error e, c'), k') := by
  rw [exec] at h
  rw [exec, ExceptT.run_bind, StateT.run_bind, StateT.run_bind, h]
  rfl

end

theorem exec_get (c : Catalog) (k : Machine) :
    exec (MonadState.get : Program Catalog) c k = ((.ok c, c), k) := rfl

theorem exec_lift {α : Type} (x : Except Fault α) (c : Catalog) (k : Machine) :
    exec (liftM x) c k = ((x, c), k) := by
  cases x <;> rfl

/-- A check or a read of the catalog comes to what it is of the catalog. -/
theorem exec_ask {α : Type} (g : Catalog → Except Fault α) (c : Catalog) (k : Machine) :
    exec (ask g) c k = ((g c, c), k) := by
  rw [ask, exec_bind_ok (exec_get c k)]
  cases g c <;> rfl

/-- The catalog of a directory, in agreement with it. -/
def AgreesIn (directory : String) (c : Catalog) (v : Volume) : Prop :=
  c.directory = directory ∧ Agrees c v

/-- Where `P` holds, the program comes to an answer and leaves a state for which `Q` holds, or it
stops with a fault and leaves a catalog that agrees with its directory. -/
def Triple {α : Type} (directory : String) (P : Catalog → Volume → Prop) (x : Program α)
    (Q : α → Catalog → Volume → Prop) : Prop :=
  ∀ c k, k.Calm → P c k.volume → ∃ r c' k', exec x c k = ((r, c'), k') ∧ k'.Calm ∧
    match r with
    | .ok a => Q a c' k'.volume
    | .error _ => AgreesIn directory c' k'.volume

namespace Triple

variable {directory : String} {P P' : Catalog → Volume → Prop} {α β : Type} {x : Program α}
  {f : α → Program β} {Q Q' : α → Catalog → Volume → Prop} {R : β → Catalog → Volume → Prop}

protected theorem bind (hx : Triple directory P x Q) (hf : ∀ a, Triple directory (Q a) (f a) R) :
    Triple directory P (x >>= f) R := by
  intro c k hk hP
  obtain ⟨r, c', k', hx, hk', hr⟩ := hx c k hk hP
  cases r with
  | ok a =>
    rw [exec_bind_ok hx]
    exact hf a c' k' hk' hr
  | error e =>
    rw [exec_bind_error hx]
    exact ⟨_, _, _, rfl, hk', hr⟩

protected theorem pure {a : α} (h : ∀ c v, P c v → Q a c v) : Triple directory P (Pure.pure a) Q :=
  fun c k hk hP => ⟨.ok a, c, k, rfl, hk, h c k.volume hP⟩

protected theorem throw {e : Fault} (h : ∀ c v, P c v → AgreesIn directory c v) :
    Triple directory P (MonadExcept.throw e : Program α) Q :=
  fun c k hk hP => ⟨.error e, c, k, rfl, hk, h c k.volume hP⟩

protected theorem mono (hx : Triple directory P' x Q') (hP : ∀ c v, P c v → P' c v)
    (hQ : ∀ a c v, Q' a c v → Q a c v) : Triple directory P x Q := by
  intro c k hk h
  obtain ⟨r, c', k', hx, hk', hr⟩ := hx c k hk (hP c k.volume h)
  refine ⟨r, c', k', hx, hk', ?_⟩
  cases r with
  | ok a => exact hQ a c' k'.volume hr
  | error e => exact hr

/-- A triple may be shown for one state at a time. -/
protected theorem fix (h : ∀ c v, P c v → Triple directory (fun c' v' => c' = c ∧ v' = v) x Q) :
    Triple directory P x Q :=
  fun c k hk hP => h c k.volume hP c k hk ⟨rfl, rfl⟩

protected theorem get : Triple directory P MonadState.get fun c₀ c v => c₀ = c ∧ P c v :=
  fun c k hk hP => ⟨.ok c, c, k, rfl, hk, rfl, hP⟩

protected theorem modify {g : Catalog → Catalog} {Q : Unit → Catalog → Volume → Prop}
    (h : ∀ c v, P c v → Q () (g c) v) : Triple directory P (modify g) Q :=
  fun c k hk hP => ⟨.ok (), g c, k, rfl, hk, h c k.volume hP⟩

/-- A check or a read of the catalog. -/
protected theorem ask {g : Catalog → Except Fault α} (h : ∀ c v, P c v → AgreesIn directory c v) :
    Triple directory P (ask g) fun a c v => g c = .ok a ∧ P c v := by
  intro c k hk hP
  rw [exec_ask]
  cases hg : g c with
  | ok a => exact ⟨.ok a, c, k, rfl, hk, hg, hP⟩
  | error e => exact ⟨.error e, c, k, rfl, hk, h c k.volume hP⟩

/-- A check of something else. -/
protected theorem lift {y : Except Fault α} (h : ∀ c v, P c v → AgreesIn directory c v) :
    Triple directory P (liftM y) fun a c v => y = .ok a ∧ P c v := by
  intro c k hk hP
  cases hy : y with
  | ok a => exact ⟨.ok a, c, k, rfl, hk, rfl, hP⟩
  | error e => exact ⟨.error e, c, k, rfl, hk, h c k.volume hP⟩

/-- A check that stops the program or does nothing. -/
protected theorem check {b : Bool} {e : Fault} {g : Unit → Program α}
    (h : ∀ c v, P c v → AgreesIn directory c v) (hg : b = false → Triple directory P (g ()) Q) :
    Triple directory P (if b = true then MonadExcept.throw e >>= g else g ()) Q := by
  cases b with
  | true => exact Triple.bind (Q := fun _ _ _ => False) (Triple.throw h) fun _ _ _ _ h => h.elim
  | false => exact hg rfl

protected theorem readClock : Triple directory P readClock fun _ => P :=
  fun c _ hk hP => ⟨.ok _, c, _, rfl, hk, hP⟩

protected theorem newId : Triple directory P Host.newId fun _ => P :=
  fun c _ hk hP => ⟨.ok _, c, _, rfl, hk, hP⟩

protected theorem now : Triple directory P Host.now fun _ => P :=
  fun c _ hk hP => ⟨.ok _, c, _, rfl, hk, hP⟩

protected theorem pathExists {path : String} :
    Triple directory P (Host.pathExists path) fun _ => P := by
  intro c k hk hP
  let look (v : Volume) : Except DiskError Unit := (v.find? (Volume.path path)).map fun _ => ()
  have hexec : exec (Host.pathExists path) c k =
      ((.ok (Machine.look look k).1.isOk, c), (Machine.look look k).2) := rfl
  rw [hexec, Machine.look_of_calm hk]
  exact ⟨_, _, _, rfl, hk, hP⟩

end Triple

section

variable {directory path text : String} {c₀ : Catalog} {v₀ : Volume} {fault : String → Fault}

/-- A call of the disk that may change the volume. -/
private theorem triple_demand (call : StateM Machine (Except DiskError Unit))
    (g : Volume → Except DiskError Volume) (h : AgreesIn directory c₀ v₀)
    (hcall : ∀ k : Machine, k.Calm → call k = match g k.volume with
      | .error e => (.error e, { k with calls := k.calls + 1 })
      | .ok v => (.ok (), { k with volume := v, calls := k.calls + 1 })) :
    Triple directory (fun c v => c = c₀ ∧ v = v₀) (demand fault (liftM call))
      fun _ c v => c = c₀ ∧ g v₀ = .ok v := by
  intro c k hk h
  obtain ⟨rfl, rfl⟩ := h
  have hexec : exec (demand fault (liftM call)) c k = match call k with
      | (.ok a, k) => ((.ok a, c), k)
      | (.error e, k) => ((.error (fault e.detail), c), k) := by
    have hlift : exec (ExceptT.lift (liftM call)) c k = ((.ok (call k).1, c), (call k).2) := rfl
    rw [demand, exec_bind_ok hlift]
    cases call k with
    | mk r k => cases r <;> rfl
  rw [hexec, hcall k hk]
  cases g k.volume with
  | ok v => exact ⟨.ok (), c, _, rfl, hk, rfl, rfl⟩
  | error e => exact ⟨.error (fault e.detail), c, _, rfl, hk, h⟩

theorem triple_makeDirectory (h : AgreesIn directory c₀ v₀) :
    Triple directory (fun c v => c = c₀ ∧ v = v₀) (demand fault (Host.makeDirectory path))
      fun _ c v => c = c₀ ∧ v₀.makeDirectory (Volume.path path) = .ok v :=
  triple_demand (Host.makeDirectory path) (Volume.makeDirectory · (Volume.path path)) h fun _ hk =>
    Machine.change_of_calm hk _

theorem triple_writeFile (h : AgreesIn directory c₀ v₀) :
    Triple directory (fun c v => c = c₀ ∧ v = v₀) (demand fault (Host.writeFile path text))
      fun _ c v => c = c₀ ∧ v₀.write (Volume.path path) (.text text) = .ok v :=
  triple_demand (Host.writeFile path text) (Volume.write · (Volume.path path) (.text text)) h
    fun _ hk => Machine.writeFile_of_calm hk

end

end Catalog

end WideColumn
