import WideColumn.Host.Machine
import WideColumn.Proofs.Host.Volume

/-! # Machines but for their clocks

Two machines may have clocks that show other times, and texts on their disks that say so. No call of
the disk looks at a clock or at a text, so each comes to the same on both. -/
namespace WideColumn

/-- Two attempts have results that are related, or fail for one reason. -/
inductive Both {ε α β : Type} (R : α → β → Prop) : Except ε α → Except ε β → Prop
  | ok {a : α} {b : β} (h : R a b) : Both R (.ok a) (.ok b)
  | error (e : ε) : Both R (.error e) (.error e)

namespace Both

variable {ε α β α' β' : Type} {R : α → β → Prop} {S : α' → β' → Prop} {x : Except ε α}
  {y : Except ε β}

theorem refl (x : Except ε α) : Both Eq x x := by
  cases x with
  | ok a => exact .ok rfl
  | error e => exact .error e

theorem bind {f : α → Except ε α'} {g : β → Except ε β'} (h : Both R x y)
    (hf : ∀ a b, R a b → Both S (f a) (g b)) :
    Both S (x >>= f) (y >>= g) := by
  cases h with
  | ok h => exact hf _ _ h
  | error e => exact .error e

theorem of_map_eq {γ : Type} {f : α → γ} {g : β → γ} (h : f <$> x = g <$> y) :
    Both (fun a b => f a = g b) x y := by
  cases x with
  | ok a =>
    cases y with
    | ok b => exact .ok (Except.ok.inj h)
    | error e => cases h
  | error e =>
    cases y with
    | ok b => cases h
    | error e' =>
      cases h
      exact .error e

theorem isOk_eq (h : Both R x y) : x.isOk = y.isOk := by
  cases h <;> rfl

end Both

/-- The same, or files with related texts. -/
inductive Node.Alike (R : String → String → Prop) : Node → Node → Prop
  | directory : Alike R .directory .directory
  | file (c : Content) : Alike R (.file c) (.file c)
  | text {s s' : String} (h : R s s') : Alike R (.file (.text s)) (.file (.text s'))

theorem Node.Alike.refl {R : String → String → Prop} (n : Node) : Node.Alike R n n := by
  cases n with
  | directory => exact .directory
  | file c => exact .file c

namespace Volume

variable {R : String → String → Prop} {v w : Volume} {p : Path}

/-- At every path there is something in both or in neither, and the same or files with related
texts. -/
def Alike (R : String → String → Prop) (v w : Volume) : Prop :=
  ∀ p, Option.Rel (Node.Alike R) (v.node? p) (w.node? p)

theorem find?_root (v : Volume) : v.find? [] = .ok .directory := rfl

theorem isSome_of_rel {a b : Option Node} (h : Option.Rel (Node.Alike R) a b) :
    a.isSome = b.isSome := by
  cases h <;> rfl

theorem ne_directory_of_rel {a b : Option Node} (h : Option.Rel (Node.Alike R) a b) :
    (a != some .directory) = (b != some .directory) := by
  cases h with
  | none => rfl
  | some h => cases h <;> rfl

namespace Alike

theorem refl (R : String → String → Prop) (v : Volume) : v.Alike R v := by
  intro p
  cases v.node? p with
  | none => exact .none
  | some n => exact .some (.refl n)

theorem find? (h : v.Alike R w) (p : Path) : Both (Node.Alike R) (v.find? p) (w.find? p) := by
  have hway : (fun q => v.node? q != some .directory) = fun q => w.node? q != some .directory :=
    funext fun q => ne_directory_of_rel (h q)
  rw [Volume.find?, Volume.find?, hway]
  split
  · exact .error _
  · cases (above p).find? fun q => w.node? q != some .directory with
    | some q =>
      dsimp only
      rw [isSome_of_rel (h q)]
      exact .error _
    | none =>
      have hp := h p
      dsimp only
      generalize v.node? p = a at hp
      generalize w.node? p = b at hp
      cases hp with
      | none => exact .error _
      | some hn => exact .ok hn

theorem place {n n' : Node} (h : v.Alike R w) (hp : p ≠ []) (hn : Node.Alike R n n') :
    (v.place p n).Alike R (w.place p n') := by
  intro q
  rw [node?_place hp, node?_place hp]
  split
  · exact .some hn
  · exact h q

theorem without (h : v.Alike R w) (hp : p ≠ []) : (v.without p).Alike R (w.without p) := by
  intro q
  rw [node?_without hp, node?_without hp]
  split
  · exact .none
  · exact h q

theorem makeDirectory (h : v.Alike R w) (p : Path) :
    Both (Alike R) (v.makeDirectory p) (w.makeDirectory p) := by
  have hstep {v w : Volume} (h : v.Alike R w) (q : Path) :
      Both (Alike R) (makeOnWay p v q) (makeOnWay p w q) := by
    have hq := h.find? q
    rw [makeOnWay, makeOnWay]
    by_cases hroot : q = []
    · rw [hroot, find?_root, find?_root]
      exact .ok h
    · generalize v.find? q = x at hq
      generalize w.find? q = y at hq
      cases hq with
      | ok hn =>
        cases hn with
        | directory => exact .ok h
        | file _ | text _ => exact .error _
      | error e =>
        cases e with
        | missing => exact .ok (h.place hroot .directory)
        | _ => exact .error _
  rw [makeDirectory_eq, makeDirectory_eq]
  generalize above p ++ [p] = way
  induction way generalizing v w with
  | nil => exact .ok h
  | cons q way ih => exact (hstep h q).bind fun _ _ h => ih h

theorem write {c c' : Content} (h : v.Alike R w) (hc : Node.Alike R (.file c) (.file c'))
    (p : Path) :
    Both (Alike R) (v.write p c) (w.write p c') := by
  have hp := h.find? p
  have hdirectory := h.find? p.dropLast
  rw [Volume.write, Volume.write]
  by_cases hroot : p = []
  · rw [hroot, find?_root, find?_root]
    exact .error _
  · generalize v.find? p = x at hp
    generalize w.find? p = y at hp
    cases hp with
    | ok hn =>
      cases hn with
      | directory => exact .error _
      | file _ | text _ => exact .ok (h.place hroot hc)
    | error e =>
      cases e with
      | missing =>
        dsimp only
        generalize v.find? p.dropLast = x at hdirectory
        generalize w.find? p.dropLast = y at hdirectory
        cases hdirectory with
        | ok hn =>
          cases hn with
          | directory => exact .ok (h.place hroot hc)
          | file _ | text _ => exact .error _
        | error e => exact .error _
      | _ => exact .error _

theorem remove (h : v.Alike R w) (p : Path) : Both (Alike R) (v.remove p) (w.remove p) := by
  by_cases hroot : p = []
  · rw [hroot, Volume.remove, Volume.remove, find?_root, find?_root]
    exact .error _
  · refine (h.find? p).bind fun n n' hn => ?_
    cases hn with
    | directory => exact .error _
    | file _ | text _ => exact .ok (h.without hroot)

end Alike

end Volume

namespace Machine

variable {R : String → String → Prop} {k k' : Machine}

/-- The machines give out the same identifiers and fail at the same calls, and their disks hold the
same but for related texts. Their clocks are any, and so are their stopwatches. -/
structure Alike (R : String → String → Prop) (k k' : Machine) : Prop where
  volume : k.volume.Alike R k'.volume
  ids : k.ids = k'.ids
  drawn : k.drawn = k'.drawn
  outages : k.outages = k'.outages
  calls : k.calls = k'.calls

namespace Alike

theorem refl (R : String → String → Prop) (k : Machine) : k.Alike R k :=
  ⟨.refl R k.volume, rfl, rfl, rfl, rfl⟩

theorem called (h : k.Alike R k') : k.called.1 = k'.called.1 ∧ k.called.2.Alike R k'.called.2 := by
  refine ⟨?_, h.volume, h.ids, h.drawn, h.outages, congrArg (· + 1) h.calls⟩
  rw [Machine.called, Machine.called, h.outages, h.calls]

theorem look {α : Type} {S : α → α → Prop} {f : Volume → Except DiskError α} (h : k.Alike R k')
    (hf : ∀ v w, v.Alike R w → Both S (f v) (f w)) :
    Both S (Machine.look f k).1 (Machine.look f k').1 ∧
    (Machine.look f k).2.Alike R (Machine.look f k').2 := by
  obtain ⟨ho, hnext⟩ := h.called
  rw [Machine.look, Machine.look]
  generalize k.called = a at ho hnext
  generalize k'.called = b at ho hnext
  obtain ⟨o, k⟩ := a
  obtain ⟨o', k'⟩ := b
  obtain rfl : o = o' := ho
  cases o with
  | some o => exact ⟨.error _, hnext⟩
  | none => exact ⟨hf _ _ hnext.volume, hnext⟩

theorem setVolume {v w : Volume} (h : k.Alike R k') (hv : v.Alike R w) :
    Machine.Alike R { k with volume := v } { k' with volume := w } :=
  ⟨hv, h.ids, h.drawn, h.outages, h.calls⟩

/-- What has become of a volume, or the volume as it was. -/
theorem getD {x y : Except DiskError Volume} {v w : Volume} (h : Both (Volume.Alike R) x y)
    (hv : v.Alike R w) :
    (x.toOption.getD v).Alike R (y.toOption.getD w) := by
  cases h with
  | ok h => exact h
  | error e => exact hv

theorem change {f : Volume → Except DiskError Volume} (h : k.Alike R k')
    (hf : ∀ v w, v.Alike R w → Both (Volume.Alike R) (f v) (f w)) :
    Both Eq (Machine.change f k).1 (Machine.change f k').1 ∧
      (Machine.change f k).2.Alike R (Machine.change f k').2 := by
  obtain ⟨ho, hnext⟩ := h.called
  rw [Machine.change, Machine.change]
  generalize k.called = a at ho hnext
  generalize k'.called = b at ho hnext
  obtain ⟨o, k⟩ := a
  obtain ⟨o', k'⟩ := b
  obtain rfl : o = o' := ho
  cases o with
  | some o => exact ⟨.error _, hnext⟩
  | none =>
    have hv := hf _ _ hnext.volume
    dsimp only at hv ⊢
    generalize f k.volume = x at hv
    generalize f k'.volume = y at hv
    cases hv with
    | ok hv => exact ⟨.ok rfl, hnext.setVolume hv⟩
    | error e => exact ⟨.error e, hnext⟩

/-- A write that fails half-way leaves the same in the place of either text. -/
theorem writeFile {s s' : String} (h : k.Alike R k') (hs : R s s') (p : Path) :
    Both Eq (Machine.writeFile p s k).1 (Machine.writeFile p s' k').1 ∧
      (Machine.writeFile p s k).2.Alike R (Machine.writeFile p s' k').2 := by
  obtain ⟨ho, hnext⟩ := h.called
  rw [Machine.writeFile, Machine.writeFile]
  generalize k.called = a at ho hnext
  generalize k'.called = b at ho hnext
  obtain ⟨o, k⟩ := a
  obtain ⟨o', k'⟩ := b
  obtain rfl : o = o' := ho
  cases o with
  | some o =>
    refine ⟨.error _, hnext.setVolume ?_⟩
    cases o.residue with
    | none => exact hnext.volume
    | some c => exact getD (hnext.volume.write (.file c) p) hnext.volume
  | none =>
    have hv := hnext.volume.write (.text hs) p
    dsimp only at hv ⊢
    generalize k.volume.write p (.text s) = x at hv
    generalize k'.volume.write p (.text s') = y at hv
    cases hv with
    | ok hv => exact ⟨.ok rfl, hnext.setVolume hv⟩
    | error e => exact ⟨.error e, hnext⟩

end Alike

end Machine

end WideColumn
