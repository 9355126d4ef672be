import WideColumn.Proofs.Catalog.Footprint
import WideColumn.Proofs.Catalog.Settled
import WideColumn.Proofs.Table.Families

/-! # What an alteration makes of a table

A property map names a family by its first key of that kind. With a method it removes the family,
and without one it updates the family or, where there is none, creates it. Nothing else of the table
changes but the time of its last update, and a map that asks for what cannot be done changes nothing
at all. -/
namespace WideColumn
open WideColumn.Schema

/-- The family is given other options where it stands, if no family before it has its name. -/
theorem Table.replaceOptions_append {before after : List Family} {f : Family} {options : Options}
    (h : ∀ g ∈ before, g.name ≠ f.name) :
    replaceOptions f.name options (before ++ f :: after) = before ++ { f with options } ::
      after := by
  induction before with
  | nil => exact if_pos (beq_self_eq_true f.name)
  | cons g before ih =>
    obtain ⟨hg, hbefore⟩ := List.forall_mem_cons.mp h
    rw [List.cons_append, replaceOptions, if_neg (mt beq_iff_eq.mp hg), ih hbefore,
      List.cons_append]

theorem Table.family?_eq_some {t : Table} {f : Family} {name : String} : t.family? name = some f ↔
    ∃ before after, t.families = before ++ f :: after ∧ f.name = name ∧ ∀ g ∈ before,
    g.name ≠ name := by
  rw [family?, List.find?_eq_some_iff_append]
  constructor
  · intro h
    obtain ⟨hname, before, after, hfamilies, hbefore⟩ := h
    exact ⟨before, after, hfamilies, beq_iff_eq.mp hname, fun g hg => by simpa using hbefore g hg⟩
  · intro h
    obtain ⟨before, after, hfamilies, hname, hbefore⟩ := h
    exact ⟨beq_iff_eq.mpr hname, before, after, hfamilies, fun g hg => by simpa using hbefore g hg⟩

namespace Catalog

variable {name family method : String} {pairs : Properties} {c d : Catalog} {k : Machine}
  {t : Table}

/-- The pairs of a map that are options. -/
def settings (pairs : Properties) : Properties :=
  pairs.filter fun p => !Text.sameWord p.1 nameKey && !Text.sameWord p.1 methodKey

/-- What a map does with a table, and the families that it leaves. -/
inductive Alters (pairs : Properties) (t : Table) : Alteration → List Family → Prop where
  /-- A new family comes last. It has the options of the map and otherwise the defaults. -/
  | created {family : String} {options : Options} (hname : lookup nameKey pairs = some family)
      (hmethod : lookup methodKey pairs = none) (habsent : family ∉ t.familyNames)
      (hlegal : checkFamilyName family = .ok ())
          (happly : ({} : Options).apply (settings pairs) = .ok options) :
      Alters pairs t (.created family) (t.families ++ [⟨family, options⟩])
  /-- A family stays where it is. It has the options of the map and otherwise those that it had. -/
  | updated {family : String} {before after : List Family} {f : Family} {options : Options}
      (hname : lookup nameKey pairs = some family) (hmethod : lookup methodKey pairs = none)
      (hfamilies : t.families = before ++ f :: after) (hf : f.name = family)
      (hbefore : ∀ g ∈ before, g.name ≠ family)
          (happly : f.options.apply (settings pairs) = .ok options) :
      Alters pairs t (.updated family) (before ++ { f with options } :: after)
  | deleted {family method : String} (hname : lookup nameKey pairs = some family)
      (hmethod : lookup methodKey pairs = some method)
        (hdelete : Text.sameWord method "delete" = true)
      (hpresent : family ∈ t.familyNames) :
      Alters pairs t (.deleted family) (t.families.filter fun f => f.name != family)

theorem Alters.exists_name {a : Alteration} {families : List Family}
    (h : Alters pairs t a families) :
    ∃ family, lookup nameKey pairs = some family := by
  cases h with
  | created hname | updated hname | deleted hname => exact ⟨_, hname⟩

theorem Alters.isDelete {a : Alteration} {families : List Family} (h : Alters pairs t a families)
    (hmethod : lookup methodKey pairs = some method) : Text.sameWord method "delete" = true := by
  cases h with
  | created _ hnone | updated _ hnone => cases hmethod.symm.trans hnone
  | deleted _ hmethod' hdelete =>
    cases hmethod.symm.trans hmethod'
    exact hdelete

/-- The map asks for something that can be done with the table. -/
def Admits (pairs : Properties) (t : Table) : Prop :=
  t.disabled = false ∧ ∃ a families, Alters pairs t a families

/-- The map asks for something that can be done with the table of a name. -/
def Alterable (name : String) (pairs : Properties) (c : Catalog) : Prop :=
  ∃ t, c.find? name = some t ∧ Admits pairs t

/-- The operation does to the table what the map asks for, and refuses what cannot be done. -/
def Performs (pairs : Properties) (a : Alteration) (op : Readings → Table → Except Fault Table)
    (t : Table) : Prop :=
  ∀ r, match op r t with
    | .ok next => t.disabled = false ∧ Alters pairs t a next.families ∧
      next = { t with families := next.families, updatedAt := next.updatedAt }
    | .error _ => ¬ Admits pairs t

theorem performs_deleteFamily (hname : lookup nameKey pairs = some family)
    (hmethod : lookup methodKey pairs = some method)
    (hdelete : Text.sameWord method "delete" = true) (t : Table) :
    Performs pairs (.deleted family) (fun r t => t.deleteFamily r family) t := by
  intro r
  dsimp only
  split
  · next next hok =>
    obtain ⟨henabled, hpresent, rfl⟩ := Table.deleteFamily_eq_ok.mp hok
    exact ⟨henabled, .deleted hname hmethod hdelete (Table.isSome_family?_iff.mp hpresent), rfl⟩
  · next e herror =>
    intro h
    obtain ⟨henabled, a, families, halters⟩ := h
    cases halters with
    | created _ hnone => cases hmethod.symm.trans hnone
    | updated _ hnone => cases hmethod.symm.trans hnone
    | deleted hname' _ _ hpresent =>
      cases hname.symm.trans hname'
      have hsome := Table.isSome_family?_iff.mpr hpresent
      cases herror.symm.trans (Table.deleteFamily_eq_ok.mpr ⟨henabled, hsome, rfl⟩)

theorem performs_updateFamily (hname : lookup nameKey pairs = some family)
    (hmethod : lookup methodKey pairs = none) (hpresent : (t.family? family).isSome = true) :
    Performs pairs (.updated family) (fun r t => t.updateFamily r family (settings pairs)) t := by
  intro r
  dsimp only
  split
  · next next hok =>
    obtain ⟨henabled, f, options, hf, happly, rfl⟩ := Table.updateFamily_eq_ok.mp hok
    obtain ⟨before, after, hfamilies, rfl, hbefore⟩ := Table.family?_eq_some.mp hf
    refine ⟨henabled, ?_, rfl⟩
    have halters := Alters.updated hname hmethod hfamilies rfl hbefore happly
    rw [← Table.replaceOptions_append hbefore, ← hfamilies] at halters
    exact halters
  · next e herror =>
    intro h
    obtain ⟨henabled, a, families, halters⟩ := h
    cases halters with
    | created hname' _ habsent =>
      cases hname.symm.trans hname'
      exact habsent (Table.isSome_family?_iff.mp hpresent)
    | updated hname' _ hfamilies hf hbefore happly =>
      cases hname.symm.trans hname'
      have hfind := Table.family?_eq_some.mpr ⟨_, _, hfamilies, hf, hbefore⟩
      cases herror.symm.trans (Table.updateFamily_eq_ok.mpr ⟨henabled, _, _, hfind, happly, rfl⟩)
    | deleted _ hsome => cases hmethod.symm.trans hsome

theorem performs_createFamily (hname : lookup nameKey pairs = some family)
    (hmethod : lookup methodKey pairs = none) (habsent : t.family? family = none) :
    Performs pairs (.created family) (fun r t => t.createFamily r family (settings pairs)) t := by
  intro r
  dsimp only
  split
  · next next hok =>
    obtain ⟨henabled, hlegal, -, f, hf, rfl⟩ := Table.createFamily_eq_ok.mp hok
    obtain ⟨options, happly, hf⟩ := bind_eq_ok.mp hf
    cases hf
    exact ⟨henabled, .created hname hmethod (Table.family?_eq_none.mp habsent) hlegal happly, rfl⟩
  · next e herror =>
    intro h
    obtain ⟨henabled, a, families, halters⟩ := h
    cases halters with
    | created hname' _ _ hlegal happly =>
      cases hname.symm.trans hname'
      have hmade : Family.ofProperties family (settings pairs) = .ok ⟨family, _⟩ :=
        bind_eq_ok.mpr ⟨_, happly, rfl⟩
      cases herror.symm.trans
        (Table.createFamily_eq_ok.mpr ⟨henabled, hlegal, habsent, _, hmade, rfl⟩)
    | updated hname' _ hfamilies hf hbefore =>
      cases hname.symm.trans hname'
      cases habsent.symm.trans (Table.family?_eq_some.mpr ⟨_, _, hfamilies, hf, hbefore⟩)
    | deleted _ hsome => cases hmethod.symm.trans hsome

/-- An alteration is refused before anything is done, or it is one write to the table. -/
theorem alter_cases (name : String) (pairs : Properties) (c : Catalog) (k : Machine) :
    (∃ e, exec (alter name pairs) c k = ((.error e, c), k) ∧ ¬ Alterable name pairs c) ∨
      ∃ (op : Readings → Table → Except Fault Table) (write : Table.Operation) (a : Alteration),
        (∀ r t, write.run r t = do return (none, ← op r t)) ∧
        (∀ t, c.find? name = some t → Performs pairs a op t) ∧
        exec (alter name pairs) c k = exec (mutate_ name op >>= fun _ => Pure.pure a) c k := by
  rw [alter]
  split
  · next family hname =>
    split
    · next method hmethod =>
      split
      · next hdelete =>
        exact .inr ⟨_, .deleteFamily family, _, fun _ _ => rfl,
          fun t _ => performs_deleteFamily hname hmethod hdelete t, rfl⟩
      · next hother =>
        refine .inl ⟨_, rfl, fun halterable => ?_⟩
        obtain ⟨t, -, -, a, families, halters⟩ := halterable
        exact hother (halters.isDelete hmethod)
    · next hmethod =>
      cases hfind : c.find? name with
      | none =>
        have hask : exec (ask (·.table name)) c k = ((.error (.noTable name), c), k) := by
          rw [exec_ask, table, hfind]
          rfl
        refine .inl ⟨_, exec_bind_error hask, fun halterable => ?_⟩
        obtain ⟨t, ht, -⟩ := halterable
        cases hfind.symm.trans ht
      | some t =>
        have hask : exec (ask (·.table name)) c k = ((.ok t, c), k) := by
          rw [exec_ask, table, hfind]
          rfl
        rw [exec_bind_ok hask]
        refine .inr ?_
        split
        · next hpresent =>
          refine ⟨_, .updateFamily family (settings pairs), _, fun _ _ => rfl, fun s hs => ?_, rfl⟩
          cases hs
          exact performs_updateFamily hname hmethod hpresent
        · next habsent =>
          refine ⟨_, .createFamily family (settings pairs), _, fun _ _ => rfl, fun s hs => ?_, rfl⟩
          cases hs
          exact performs_createFamily hname hmethod (by simpa using habsent)
  · next hname =>
    refine .inl ⟨_, rfl, fun halterable => ?_⟩
    obtain ⟨t, -, -, a, families, halters⟩ := halterable
    obtain ⟨family, hfamily⟩ := halters.exists_name
    exact hname family hfamily

/-- The catalog with the altered table in its place, and the table in its file. -/
def Altered (name : String) (pairs : Properties) (c : Catalog) (a : Alteration) (d : Catalog)
    (k : Machine) : Prop :=
  ∃ t next, c.find? name = some t ∧ t.disabled = false ∧ Alters pairs t a next.families ∧
    next = { t with families := next.families, updatedAt := next.updatedAt } ∧
      d = c.replace name next ∧
    k.volume.read (Volume.path (c.filePath name)) = .ok next.encode

theorem returning_eq_ok {x : Except Fault Table} {next : Table} :
    (do return ((), ← x) : Except Fault (Unit × Table)) = .ok ((), next) ↔ x = .ok next := by
  cases x <;> simp

theorem returning_eq_error {x : Except Fault Table} {e : Fault} :
    (do return ((), ← x) : Except Fault (Unit × Table)) = .error e ↔ x = .error e := by
  cases x <;> simp

/-- A map that asks for what can be done alters the table, unless the disk fails. Any other changes
nothing, in memory or on the disk. -/
theorem ends_alter_exact (h : c.WellNamed) (name : String) (pairs : Properties) :
    Ends (fun e d k' => d = c ∧ ((∃ detail, e = .disk detail) ∧ Alterable name pairs c ∨
        k'.volume = k.volume ∧ ¬ Alterable name pairs c))
      (fun d k' => d = c ∧ k' = k) (alter name pairs) fun a d k' =>
        Altered name pairs c a d k' := by
  intro d k' hd
  obtain ⟨rfl, rfl⟩ := hd
  rcases alter_cases name pairs d k' with ⟨e, hrun, hnot⟩ | ⟨op, write, a, hwrite, hperforms, hrun⟩
  · exact ⟨_, _, _, hrun, rfl, .inr ⟨rfl, hnot⟩⟩
  · rw [hrun]
    have hmutate := ends_mutate_exact (v := k'.volume) name h (isProper_of_run write hwrite)
    refine Ends.bind (hmutate.weaken fun e d' k'' he => ⟨he.1, ?_⟩) (fun _ => ?_) d k' ⟨rfl, rfl⟩
    · refine Ends.pure fun d' k'' hd => ?_
      obtain ⟨r, t, next, hfind, hok, rfl, hfile⟩ := hd
      have hp := hperforms t hfind r
      rw [returning_eq_ok.mp hok] at hp
      exact ⟨t, next, hfind, hp.1, hp.2.1, hp.2.2, rfl, hfile⟩
    · rcases he.2 with ⟨hdisk, r, t, _, next, hfind, hok⟩ | ⟨hv, hrefuses⟩
      · have hp := hperforms t hfind r
        rw [returning_eq_ok.mp hok] at hp
        exact .inl ⟨hdisk, t, hfind, hp.1, a, _, hp.2.1⟩
      · refine .inr ⟨hv, fun halterable => ?_⟩
        obtain ⟨t, hfind, hadmits⟩ := halterable
        obtain ⟨r, herror⟩ := hrefuses t hfind
        have hp := hperforms t hfind r
        rw [returning_eq_error.mp herror] at hp
        exact hp hadmits

/-- Where memory and disk agree and no call of the disk fails, what can be done is done. -/
theorem Settled.exists_alter {directory : String} (h : Settled directory c k)
    (halterable : Alterable name pairs c) :
    ∃ a d k', exec (alter name pairs) c k = ((.ok a, d), k') := by
  obtain ⟨t, hfind, hadmits⟩ := id halterable
  rcases alter_cases name pairs c k with ⟨e, -, hnot⟩ | ⟨op, write, a, hwrite, hperforms, hrun⟩
  · exact absurd halterable hnot
  · have hname (r : Readings) (next : Table) (hok : op r t = .ok next) : next.name = t.name :=
      (isProper_of_run write hwrite).name_eq (r := r) (a := ()) (returning_eq_ok.mpr hok)
    obtain ⟨r, k', hmutate⟩ := h.exec_mutate_ op hfind hname
    have hp := hperforms t hfind r
    cases hop : op r t with
    | error e =>
      rw [hop] at hp
      exact absurd hadmits hp
    | ok next =>
      rw [hop] at hmutate
      exact ⟨a, _, k', by rw [hrun, exec_bind_ok hmutate]; rfl⟩

/-- An alteration answers with what it did: a family that was not there is now the last, with the
options of the map and otherwise the defaults; a family that was there is where it was, with the
options of the map and otherwise those that it had; or a family is gone and the others are in order
as they were. The rest of the table but the time of its last update is as it was, and the file holds
the table. An alteration that is refused leaves the catalog as it was, and the disk, too, unless a
call of the disk failed. No other table and no other file is touched. -/
theorem Reachable.alters (h : Reachable c) (name : String) (pairs : Properties) (k : Machine) :
    ∃ r d k', exec (alter name pairs) c k = ((r, d), k') ∧
    TouchesOnly (· == name) c k.volume d k'.volume ∧
      (∀ a, r = .ok a → Altered name pairs c a d k') ∧
      (∀ e, r = .error e → d = c ∧ ((∃ detail, e = .disk detail) ∧ Alterable name pairs c ∨
        k'.volume = k.volume ∧ ¬ Alterable name pairs c)) ∧
      ∀ directory, Settled directory c k → ∀ e, r = .error e → d = c ∧ k'.volume = k.volume ∧
        ¬ Alterable name pairs c := by
  obtain ⟨r, d, k', hrun, hr⟩ := ends_alter_exact (k := k) h.wellNamed name pairs c k ⟨rfl, rfl⟩
  have hstable : StableAt (Within (· == name) c k.volume) name :=
    stableAt_within (beq_self_eq_true name)
  obtain ⟨r', d', k'', hrun', hwithin⟩ :=
    staysWithin_of_preserves h.wellNamed (hstable.stableFor.writes.alter pairs) c k ⟨rfl, rfl⟩
  cases hrun.symm.trans hrun'
  have htouches : TouchesOnly (· == name) c k.volume d k'.volume := by
    cases r <;> exact hwithin
  refine ⟨r, d, k', hrun, htouches, fun a ha => ?_, fun e he => ?_,
    fun directory hsettled e he => ?_⟩
  · rw [ha] at hr
    exact hr
  · rw [he] at hr
    exact hr
  · rw [he] at hr hrun
    obtain ⟨hd, ⟨-, halterable⟩ | hsame⟩ := hr
    · obtain ⟨a, d', k'', hok⟩ := hsettled.exists_alter halterable
      cases hrun.symm.trans hok
    · exact ⟨hd, hsame⟩

def twoFamilies : Catalog × Machine :=
  (Operation.createTable "t" [{ name := "f" }, { name := "g" }]).step (⟨"d", []⟩, opened.2)

/-- The name does not stand first, and a second name is passed over. -/
def threeVersions : Properties := [("versions", "3"), ("Name", "f"), ("NAME", "g")]

/-- A method that there is not. -/
def dropped : Properties := [("NAME", "f"), ("METHOD", "drop")]

theorem alters_twoFamilies : Reachable twoFamilies.1 ∧
    (∃ d k', exec (alter "t" threeVersions) twoFamilies.1 twoFamilies.2 =
      ((.ok (.updated "f"), d), k') ∧
      Altered "t" threeVersions twoFamilies.1 (.updated "f") d k') ∧
    ∃ e k', exec (alter "t" dropped) twoFamilies.1 twoFamilies.2 = ((.error e, twoFamilies.1), k') ∧
      k'.volume = twoFamilies.2.volume := by
  have hopened : Reachable ⟨"d", []⟩ := .opened (k := blankMachine) List.nodup_nil opened_eq
  have hreachable : Reachable twoFamilies.1 := hopened.written _ _
  have hsettled : Settled "d" twoFamilies.1 twoFamilies.2 := stable_settled.step _ settled_opened
  have hok : (exec (alter "t" threeVersions) twoFamilies.1 twoFamilies.2).1.1.toOption =
      some (.updated "f") := by
    decide +kernel
  have herror : (exec (alter "t" dropped) twoFamilies.1 twoFamilies.2).1.1.isOk = false := by
    decide +kernel
  refine ⟨hreachable, ?_, ?_⟩
  · obtain ⟨r, d, k', hrun, -, haltered, -⟩ := hreachable.alters "t" threeVersions twoFamilies.2
    rw [hrun] at hok
    obtain rfl := eq_ok_of_toOption hok
    exact ⟨d, k', hrun, haltered _ rfl⟩
  · obtain ⟨r, d, k', hrun, -, -, -, hrefused⟩ := hreachable.alters "t" dropped twoFamilies.2
    rw [hrun] at herror
    cases r with
    | ok a => cases herror
    | error e =>
      obtain ⟨rfl, hv, -⟩ := hrefused "d" hsettled e rfl
      exact ⟨e, k', hrun, hv⟩

end Catalog

end WideColumn
