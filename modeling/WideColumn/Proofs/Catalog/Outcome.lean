import WideColumn.Proofs.Catalog.Triple

/-! # What programs on a catalog end in, whatever the disk does

Any call of the disk may fail. A program then stops with a fault, and what it leaves behind is
stated along with what holds after an answer. -/
namespace WideColumn

namespace Machine

variable {k k' : Machine} {p : Path} {text : String} {e : DiskError}

/-- No outage passes for a missing file. Whether a file is missing is for the volume to say. -/
def Honest (k : Machine) : Prop := ∀ n o, k.outages n = some o → o.error ≠ .missing

theorem volume_look {α : Type} (f : Volume → Except DiskError α) (k : Machine) :
    (look f k).2.volume = k.volume := by
  cases ho : k.outages k.calls <;> simp only [look, called, ho]

theorem volume_change (f : Volume → Except DiskError Volume) (k : Machine) :
    (change f k).2.volume = k.volume ∨ f k.volume = .ok (change f k).2.volume := by
  cases ho : k.outages k.calls with
  | some o => simp only [change, called, ho, true_or]
  | none => cases hv : f k.volume <;> simp only [change, called, ho, hv, true_or, or_true]

/-- A write that fails may leave another content in the file. -/
theorem volume_writeFile (p : Path) (text : String) (k : Machine) :
    (writeFile p text k).2.volume = k.volume ∨
      ∃ c, k.volume.write p c = .ok (writeFile p text k).2.volume := by
  cases ho : k.outages k.calls with
  | none =>
    cases hv : k.volume.write p (.text text) with
    | error e => exact .inl (by simp only [writeFile, called, ho, hv])
    | ok v => exact .inr ⟨.text text, by simp only [writeFile, called, ho, hv]⟩
  | some o =>
    cases hr : o.residue with
    | none => exact .inl (by simp only [writeFile, called, ho, hr])
    | some c =>
      cases hv : k.volume.write p c with
      | error e => exact .inl (by simp only [writeFile, called, ho, hr, hv]; rfl)
      | ok v => exact .inr ⟨c, by simp only [writeFile, called, ho, hr, hv]; rfl⟩

theorem look_eq_ok {α : Type} {f : Volume → Except DiskError α} {a : α}
    (h : look f k = (.ok a, k')) :
    f k.volume = .ok a := by
  cases ho : k.outages k.calls with
  | some o =>
    simp only [look, called, ho] at h
    cases h
  | none =>
    simp only [look, called, ho] at h
    exact (Prod.mk.inj h).1

theorem change_eq_ok {f : Volume → Except DiskError Volume} {u : Unit}
    (h : change f k = (.ok u, k')) :
    f k.volume = .ok k'.volume := by
  cases ho : k.outages k.calls with
  | some o =>
    simp only [change, called, ho] at h
    cases h
  | none =>
    cases hv : f k.volume with
    | error e =>
      simp only [change, called, ho, hv] at h
      cases h
    | ok v =>
      simp only [change, called, ho, hv] at h
      cases h
      rfl

theorem change_eq_error {f : Volume → Except DiskError Volume} (h : change f k = (.error e, k')) :
    k'.volume = k.volume := by
  cases ho : k.outages k.calls with
  | some o =>
    simp only [change, called, ho] at h
    cases h
    rfl
  | none =>
    cases hv : f k.volume with
    | error e =>
      simp only [change, called, ho, hv] at h
      cases h
      rfl
    | ok v =>
      simp only [change, called, ho, hv] at h
      cases h

theorem change_eq_missing {f : Volume → Except DiskError Volume} (hk : k.Honest)
    (h : change f k = (.error .missing, k')) :
    f k.volume = .error .missing ∧ k'.volume = k.volume := by
  cases ho : k.outages k.calls with
  | some o =>
    simp only [change, called, ho] at h
    exact absurd (Except.error.inj (Prod.mk.inj h).1) (hk _ o ho)
  | none =>
    cases hv : f k.volume with
    | error e =>
      simp only [change, called, ho, hv] at h
      cases h
      exact ⟨rfl, rfl⟩
    | ok v =>
      simp only [change, called, ho, hv] at h
      cases h

theorem writeFile_eq_ok {u : Unit} (h : writeFile p text k = (.ok u, k')) :
    k.volume.write p (.text text) = .ok k'.volume := by
  cases ho : k.outages k.calls with
  | some o =>
    simp only [writeFile, called, ho] at h
    cases h
  | none =>
    cases hv : k.volume.write p (.text text) with
    | error e =>
      simp only [writeFile, called, ho, hv] at h
      cases h
    | ok v =>
      simp only [writeFile, called, ho, hv] at h
      cases h
      rfl

end Machine

namespace Catalog

/-- Where `P` holds, the program comes to an answer and leaves a state for which `Q` holds, or it
stops with a fault and leaves a state for which `E` holds. -/
def Ends {α : Type} (E : Fault → Catalog → Machine → Prop) (P : Catalog → Machine → Prop)
    (x : Program α) (Q : α → Catalog → Machine → Prop) : Prop :=
  ∀ c k, P c k → ∃ r c' k', exec x c k = ((r, c'), k') ∧
    match r with
    | .ok a => Q a c' k'
    | .error e => E e c' k'

theorem exec_demand {α : Type} {fault : String → Fault} (call : StateM Machine (Except DiskError α))
    (c : Catalog) (k : Machine) : exec (demand fault (liftM call)) c k =
      (((call k).1.mapError (fault ·.detail), c), (call k).2) := by
  have hlift : exec (ExceptT.lift (liftM call)) c k = ((.ok (call k).1, c), (call k).2) := rfl
  rw [demand, exec_bind_ok hlift]
  cases (call k).1 <;> rfl

theorem exec_demand_ok {α : Type} {fault : String → Fault}
    {call : StateM Machine (Except DiskError α)} {a : α} {c : Catalog} {k k' : Machine}
    (h : call k = (.ok a, k')) :
    exec (demand fault (liftM call)) c k = ((.ok a, c), k') := by
  rw [exec_demand, h]
  rfl

namespace Ends

variable {E : Fault → Catalog → Machine → Prop} {P P' : Catalog → Machine → Prop} {α β : Type}
  {x : Program α} {f : α → Program β}
  {Q Q' : α → Catalog → Machine → Prop} {R : β → Catalog → Machine → Prop}

protected theorem bind (hx : Ends E P x Q) (hf : ∀ a, Ends E (Q a) (f a) R) :
    Ends E P (x >>= f) R := by
  intro c k hP
  obtain ⟨r, c', k', hx, hr⟩ := hx c k hP
  cases r with
  | ok a =>
    rw [exec_bind_ok hx]
    exact hf a c' k' hr
  | error e =>
    rw [exec_bind_error hx]
    exact ⟨_, _, _, rfl, hr⟩

/-- A program may be asked of fewer states. -/
protected theorem pre (hx : Ends E P' x Q) (hP : ∀ c k, P c k → P' c k) : Ends E P x Q :=
  fun c k h => hx c k (hP c k h)

/-- An answer may leave less than was stated. -/
protected theorem post (hx : Ends E P x Q') (hQ : ∀ a c k, Q' a c k → Q a c k) : Ends E P x Q := by
  intro c k h
  obtain ⟨r, c', k', hx, hr⟩ := hx c k h
  refine ⟨r, c', k', hx, ?_⟩
  cases r with
  | ok a => exact hQ a c' k' hr
  | error e => exact hr

/-- Two statements about one program hold together. -/
protected theorem and {E' : Fault → Catalog → Machine → Prop} (hx : Ends E P x Q)
    (hx' : Ends E' P' x Q') :
    Ends (fun e c k => E e c k ∧ E' e c k) (fun c k => P c k ∧ P' c k) x fun a c k => Q a c k ∧
    Q' a c k := by
  intro c k h
  obtain ⟨r, d, k', hrun, hr⟩ := hx c k h.1
  obtain ⟨r', d', k'', hrun', hr'⟩ := hx' c k h.2
  rw [hrun] at hrun'
  cases hrun'
  refine ⟨r, d, k', hrun, ?_⟩
  cases r <;> exact ⟨hr, hr'⟩

/-- A fault may leave less than was stated. -/
protected theorem weaken {E' : Fault → Catalog → Machine → Prop} (hx : Ends E' P x Q)
    (hE : ∀ e c k, E' e c k → E e c k) : Ends E P x Q := by
  intro c k h
  obtain ⟨r, c', k', hx, hr⟩ := hx c k h
  refine ⟨r, c', k', hx, ?_⟩
  cases r with
  | ok a => exact hr
  | error e => exact hE e c' k' hr

protected theorem pure {a : α} (h : ∀ c k, P c k → Q a c k) : Ends E P (Pure.pure a) Q :=
  fun c k hP => ⟨.ok a, c, k, rfl, h c k hP⟩

protected theorem throw {e : Fault} (h : ∀ c k, P c k → E e c k) :
    Ends E P (MonadExcept.throw e : Program α) Q :=
  fun c k hP => ⟨.error e, c, k, rfl, h c k hP⟩

protected theorem discard {Q : Catalog → Machine → Prop} (hx : Ends E P x fun _ => Q) :
    Ends E P (discard x) fun _ => Q := Ends.bind hx fun _ => Ends.pure fun _ _ h => h

protected theorem get : Ends E P MonadState.get fun c₀ c k => c₀ = c ∧ P c k :=
  fun c k hP => ⟨.ok c, c, k, rfl, rfl, hP⟩

protected theorem modify {g : Catalog → Catalog} {Q : Unit → Catalog → Machine → Prop}
    (h : ∀ c k, P c k → Q () (g c) k) : Ends E P (modify g) Q :=
  fun c k hP => ⟨.ok (), g c, k, rfl, h c k hP⟩

/-- A check or a read of the catalog. -/
protected theorem ask {g : Catalog → Except Fault α}
    (h : ∀ c k e, P c k → g c = .error e → E e c k) :
    Ends E P (ask g) fun a c k => g c = .ok a ∧ P c k := by
  intro c k hP
  rw [exec_ask]
  cases hg : g c with
  | ok a => exact ⟨.ok a, c, k, rfl, hg, hP⟩
  | error e => exact ⟨.error e, c, k, rfl, h c k e hP hg⟩

/-- A check of something else. -/
protected theorem lift {y : Except Fault α} (h : ∀ c k e, P c k → E e c k) :
    Ends E P (liftM y) fun a c k => y = .ok a ∧ P c k := by
  intro c k hP
  cases y with
  | ok a => exact ⟨.ok a, c, k, rfl, rfl, hP⟩
  | error e => exact ⟨.error e, c, k, rfl, h c k e hP⟩

/-- A check that stops the program or does nothing. -/
protected theorem check {b : Bool} {e : Fault} {g : Unit → Program α}
    (h : b = true → ∀ c k, P c k → E e c k) (hg : b = false → Ends E P (g ()) Q) :
    Ends E P (if b = true then MonadExcept.throw e >>= g else g ()) Q := by
  cases b with
  | true => exact Ends.bind (Q := fun _ _ _ => False) (Ends.throw (h rfl)) fun _ _ _ h => h.elim
  | false => exact hg rfl

/-- A call of the disk. -/
protected theorem demand {fault : String → Fault} {call : StateM Machine (Except DiskError α)}
    (hok : ∀ c k a k', P c k → call k = (.ok a, k') → Q a c k')
    (herror : ∀ c k e k', P c k → call k = (.error e, k') → E (fault e.detail) c k') :
    Ends E P (demand fault (liftM call)) Q := by
  intro c k hP
  rw [exec_demand]
  cases hcall : call k with
  | mk r k' =>
    cases r with
    | ok a => exact ⟨.ok a, c, k', rfl, hok c k a k' hP hcall⟩
    | error e => exact ⟨.error (fault e.detail), c, k', rfl, herror c k e k' hP hcall⟩

/-- A look at the machine that cannot fail. -/
protected theorem observe (call : StateM Machine α) (h : ∀ c k, P c k → Q (call k).1 c (call k).2) :
    Ends E P (liftM call) Q :=
  fun c k hP => ⟨.ok (call k).1, c, (call k).2, rfl, h c k hP⟩

end Ends

/-- The program keeps the invariant, whether it comes to an answer or to a fault. -/
def Preserves {α : Type} (I : Catalog → Machine → Prop) (x : Program α) : Prop :=
  Ends (fun _ => I) I x fun _ => I

namespace Preserves

variable {I : Catalog → Machine → Prop} {α β : Type} {x : Program α} {f : α → Program β}

protected theorem pure (a : α) : Preserves I (Pure.pure a) := Ends.pure fun _ _ h => h

protected theorem throw (e : Fault) : Preserves I (MonadExcept.throw e : Program α) :=
  Ends.throw fun _ _ h => h

protected theorem bind (hx : Preserves I x) (hf : ∀ a, Preserves I (f a)) : Preserves I (x >>= f) :=
  Ends.bind hx hf

protected theorem ite {b : Bool} {y : Program α} (hx : Preserves I x) (hy : Preserves I y) :
    Preserves I (if b = true then x else y) := by
  split
  · exact hx
  · exact hy

protected theorem ask (g : Catalog → Except Fault α) : Preserves I (ask g) :=
  (Ends.ask fun _ _ _ h _ => h).post fun _ _ _ h => h.2

protected theorem get : Preserves I (MonadState.get : Program Catalog) :=
  Ends.get.post fun _ _ _ h => h.2

protected theorem discard (hx : Preserves I x) : Preserves I (discard x) :=
  hx.bind fun _ => Preserves.pure _

protected theorem lift (y : Except Fault α) : Preserves I (liftM y : Program α) :=
  (Ends.lift fun _ _ _ h => h).post fun _ _ _ h => h.2

/-- A call of the disk or another look at the machine. -/
protected theorem observe {call : StateM Machine α} (h : ∀ c k, I c k → I c (call k).2) :
    Preserves I (liftM call) := Ends.observe call h

protected theorem demand {fault : String → Fault} {call : StateM Machine (Except DiskError α)}
    (h : ∀ c k, I c k → I c (call k).2) : Preserves I (demand fault (liftM call)) := by
  refine Ends.demand ?_ ?_ <;>
  · intro c k _ k' hck hcall
    simpa only [hcall] using h c k hck

protected theorem forM {g : α → Program Unit} {l : List α} (hg : ∀ a ∈ l, Preserves I (g a)) :
    Preserves I (l.forM g) := by
  induction l with
  | nil => exact Preserves.pure ()
  | cons a l ih =>
    obtain ⟨ha, hl⟩ := List.forall_mem_cons.mp hg
    exact ha.bind fun _ => ih hl

protected theorem mapM {l : List α} (hf : ∀ a ∈ l, Preserves I (f a)) : Preserves I (l.mapM f) := by
  induction l with
  | nil => exact Preserves.pure []
  | cons a l ih =>
    obtain ⟨ha, hl⟩ := List.forall_mem_cons.mp hf
    rw [List.mapM_cons]
    exact ha.bind fun b => (ih hl).bind fun bs => Preserves.pure (b :: bs)

end Preserves

end Catalog

end WideColumn
