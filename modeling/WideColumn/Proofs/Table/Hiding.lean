import WideColumn.Proofs.Table.Reads

/-! # Cells that the schema hides

The entries of a family that is not in the schema stay where they are, though no read shows them. So
the cells of a family go and come with its name. While the name is absent, no write can name the
family, and only the removal of a whole row reaches its cells. -/
namespace WideColumn.Table
open WideColumn.Schema WideColumn.Time

variable {t next : Table} {family row qualifier : String} {r : Readings} {es : List Entry}

/-- Without a family the schema has all others. -/
theorem family?_of_deleteFamily (hdelete : t.deleteFamily r family = .ok next) (name : String) :
    next.family? name = if name = family then none else t.family? name := by
  obtain ⟨-, -, rfl⟩ := deleteFamily_eq_ok.mp hdelete
  change (t.families.filter fun f => f.name != family).find? (fun f => f.name == name) = _
  rw [List.find?_filter]
  by_cases hname : name = family
  · rw [if_pos hname, List.find?_eq_none]
    intro f _ hf
    obtain ⟨hne, heq⟩ := of_decide_eq_true hf
    exact bne_iff_ne.mp hne ((beq_iff_eq.mp heq).trans hname)
  · rw [if_neg hname, family?]
    congr 1
    funext f
    by_cases hf : f.name = name
    · simp [hf, hname]
    · simp [hf]

theorem isSome_family?_of_createFamily {batch : Properties}
    (hcreate : t.createFamily r family batch = .ok next) :
    (next.family? family).isSome = true := by
  obtain ⟨-, -, -, added, hadded, rfl⟩ := createFamily_eq_ok.mp hcreate
  obtain ⟨options, -, hadded⟩ := bind_eq_ok.mp hadded
  cases hadded
  refine List.find?_isSome.mpr ⟨_, List.mem_append_right _ List.mem_cons_self, ?_⟩
  exact beq_self_eq_true family

namespace Operation

variable {op : Operation}

/-- The write names no family or another one, and leaves the table open to writes. -/
def Elsewhere (family : String) : Operation → Prop
  | put _ name _ _ | delete _ name _ | createFamily name _ | updateFamily name _
  | deleteFamily name => name ≠ family
  | deleteRow _ | enable | recount => True
  | disable => False

/-- The write removes a row in all families. -/
def clears (row : String) : Operation → Bool
  | deleteRow name => row == name
  | _ => false

/-- A write elsewhere leaves the entries of the family alone, except for those of a row that it
removes. -/
theorem Elsewhere.ofFamily_onEntries (h : op.Elsewhere family) (hs : Entries.Sound es)
    (now : Instant) :
    Entries.ofFamily (op.onEntries now es) family = (Entries.ofFamily es family).filter fun e =>
      !op.clears e.row := by
  cases op with
  | put row name qualifier value =>
    rw [onEntries]
    simp only [clears, Bool.not_false, List.filter_true]
    rcases hs.ordered.split row name with ⟨before, e, after, hf⟩ | ⟨before, after, hv⟩
    · have he : e.family ≠ family := (Entry.isAt_iff.mp hf.isAt).2 ▸ h
      have hwritten : (Entries.written e qualifier now value).family ≠ family := he
      rw [hf.put_eq, hf.split, Entries.ofFamily_append_cons he,
        Entries.ofFamily_append_cons hwritten]
    · rw [hv.put_eq, hv.split]
      exact Entries.ofFamily_append_cons h
  | delete row name qualifier =>
    rw [onEntries]
    simp only [clears, Bool.not_false, List.filter_true]
    rcases hs.ordered.split row name with ⟨before, e, after, hf⟩ | ⟨before, after, hv⟩
    · have he : e.family ≠ family := (Entry.isAt_iff.mp hf.isAt).2 ▸ h
      have hleft : (Entries.withoutCell e qualifier).family ≠ family := he
      rw [hf.erase_eq, hf.split, Entries.ofFamily_append_cons he]
      split
      · rfl
      · exact Entries.ofFamily_append_cons hleft
    · rw [hv.erase_eq]
  | deleteRow row =>
    rw [onEntries, hs.ordered.withoutRow_eq, Entries.ofFamily, Entries.ofFamily, List.filter_filter,
      List.filter_filter]
    exact List.filter_congr fun e _ => Bool.and_comm _ _
  | _ => exact (List.filter_true _).symm

end Operation

/-- The table takes writes, and a family is not in its schema. -/
structure Hides (t : Table) (family : String) : Prop where
  enabled : t.disabled = false
  absent : family ∉ t.familyNames

theorem Hides.run {op : Operation} {n : Option Nat} (h : t.Hides family) (hop : op.Elsewhere family)
    (hrun : op.run r t = .ok (n, next)) : next.Hides family := by
  cases Operation.effect_of_run hrun with
  | put hput =>
    obtain ⟨-, -, -, rfl⟩ := put_eq_ok.mp hput
    exact ⟨h.enabled, h.absent⟩
  | delete hdelete =>
    obtain ⟨-, -, -, rfl⟩ := delete_eq_ok.mp hdelete
    exact ⟨h.enabled, h.absent⟩
  | deleteRow hdelete =>
    obtain ⟨-, -, rfl⟩ := deleteRow_eq_ok.mp hdelete
    exact ⟨h.enabled, h.absent⟩
  | createFamily hcreate =>
    obtain ⟨-, -, -, added, hadded, rfl⟩ := createFamily_eq_ok.mp hcreate
    obtain ⟨options, -, hadded⟩ := bind_eq_ok.mp hadded
    cases hadded
    refine ⟨h.enabled, fun hmem => ?_⟩
    rw [touch, familyNames, List.map_append] at hmem
    rcases List.mem_append.mp hmem with hmem | hmem
    · exact h.absent hmem
    · exact hop (List.mem_singleton.mp hmem).symm
  | updateFamily hupdate =>
    obtain ⟨-, _, options, -, -, rfl⟩ := updateFamily_eq_ok.mp hupdate
    refine ⟨h.enabled, ?_⟩
    rw [touch, familyNames, names_replaceOptions]
    exact h.absent
  | deleteFamily hdelete =>
    obtain ⟨-, -, rfl⟩ := deleteFamily_eq_ok.mp hdelete
    refine ⟨h.enabled, fun hmem => h.absent ?_⟩
    obtain ⟨f, hf, hname⟩ := List.mem_map.mp hmem
    exact List.mem_map.mpr ⟨f, List.mem_of_mem_filter hf, hname⟩
  | enable henable =>
    obtain ⟨-, rfl⟩ := enable_eq_ok.mp henable
    exact ⟨rfl, h.absent⟩
  | disable hdisable => exact hop.elim
  | recount hcount =>
    cases hcount
    exact ⟨h.enabled, h.absent⟩

theorem Hides.step {op : Operation} (h : t.Hides family) (hop : op.Elsewhere family) :
    (op.step r t).Hides family := by
  rw [Operation.step]
  split
  · next hrun => exact h.run hop hrun
  · exact h

theorem Hides.ofFamily_step {op : Operation} (h : t.Hides family) (hs : Entries.Sound t.entries)
    (hop : op.Elsewhere family) : Entries.ofFamily (op.step r t).entries family =
      (Entries.ofFamily t.entries family).filter fun e => !op.clears e.row := by
  rw [Operation.step]
  split
  · next hrun =>
    obtain ⟨-, -, -, hentries⟩ := Operation.run_eq_ok hrun
    rw [hentries, hop.ofFamily_onEntries hs]
  · next hrun =>
    -- only a disabled table refuses to remove a row
    have hkept : ∀ row, op.clears row = false := by
      intro row
      cases op with
      | deleteRow name =>
        rw [Operation.run, deleteRow_eq_ok.mpr ⟨h.enabled, rfl, rfl⟩] at hrun
        cases hrun
      | _ => rfl
    simp only [hkept, Bool.not_false, List.filter_true]

/-- One of the writes removes the row in all families. -/
def cleared (ops : List (Operation × Readings)) (row : String) : Bool :=
  ops.any fun step => step.1.clears row

/-- After writes elsewhere the family is absent still, and its entries are there still, except for
those of the rows that were removed. -/
theorem Hides.after {ops : List (Operation × Readings)} (h : t.Hides family)
    (hs : Entries.Sound t.entries) (hops : ∀ step ∈ ops, step.1.Elsewhere family) :
    (t.after ops).Hides family ∧
      Entries.Sound (t.after ops).entries ∧ Entries.ofFamily (t.after ops).entries family =
        (Entries.ofFamily t.entries family).filter fun e => !cleared ops e.row := by
  induction ops generalizing t with
  | nil => exact ⟨h, hs, (List.filter_true _).symm⟩
  | cons step ops ih =>
    obtain ⟨hstep, hops⟩ := List.forall_mem_cons.mp hops
    obtain ⟨hhides, hsound, hentries⟩ :=
      ih (h.step (r := step.2) hstep) (Operation.sound_step hs) hops
    refine ⟨hhides, hsound, hentries.trans ?_⟩
    rw [h.ofFamily_step hs hstep, List.filter_filter]
    refine List.filter_congr fun e _ => ?_
    rw [cleared, cleared, List.any_cons, Bool.not_or, Bool.and_comm]

/-- A table without a family shows the cells of the others only, and does not know the family. It
counts the entries of the family as before. -/
structure Loses (t next : Table) (family : String) : Prop where
  reads : ∀ read : Read, read.family? ≠ some family →
    read.run next = (·.filter fun c => c.family != family) <$> read.run t
  get : ∀ read : Read, read.family? = some family → read.run next = .error (.noFamily family t.name)
  put : ∀ r row qualifier value,
    next.put r row family qualifier value = .error (.noFamily family t.name)
  delete : ∀ r row qualifier, next.delete r row family qualifier = .error (.noFamily family t.name)
  count : next.count = t.count

/-- A table shows every version of a cell of the family as another did, except in some rows, where
it has no such cell. A put goes on with the number after the last. -/
structure Regains (t next : Table) (family : String) (gone : String → Bool) : Prop where
  reads : ∀ read : Read, read.family? = none →
    (·.filter fun c => c.family == family) <$> read.run next =
    (·.filter fun c => c.family == family && !gone c.row) <$> read.run t
  get : ∀ read : Read, read.family? = some family →
    read.run next = (·.filter fun c => !gone c.row) <$> read.run t
  histories : ∀ row qualifier,
    next.history? row family qualifier = if gone row then none else t.history? row family qualifier
  put : ∀ row qualifier h, next.history? row family qualifier = some h → ∀ r value, ∃ written,
    next.put r row family qualifier value = .ok (h.count + 1, written) ∧
      written.history? row family qualifier = some (h.push r.version value)

theorem checkFamily_of_absent (h : family ∉ t.familyNames) :
    t.checkFamily family = .error (.noFamily family t.name) := by
  rw [checkFamily, needFamily, family?_eq_none.mpr h]
  rfl

theorem hides_of_deleteFamily (hdelete : t.deleteFamily r family = .ok next) :
    next.Hides family := by
  refine ⟨?_, family?_eq_none.mp ((family?_of_deleteFamily hdelete family).trans (if_pos rfl))⟩
  obtain ⟨henabled, -, rfl⟩ := deleteFamily_eq_ok.mp hdelete
  exact henabled

theorem loses_of_deleteFamily (hs : Entries.Sound t.entries)
    (hdelete : t.deleteFamily r family = .ok next) :
    t.Loses next family := by
  have hhides := hides_of_deleteFamily hdelete
  have hother := family?_of_deleteFamily hdelete
  obtain ⟨henabled, -, hnext⟩ := deleteFamily_eq_ok.mp hdelete
  have hname : next.name = t.name := by rw [hnext]; rfl
  have hentries : next.entries = t.entries := by rw [hnext]; rfl
  have hs' : Entries.Sound next.entries := hentries ▸ hs
  have hcheck := checkFamily_of_absent hhides.absent
  rw [hname] at hcheck
  refine ⟨fun read hread => ?_, fun read hread => ?_, fun r row qualifier value => ?_,
    fun r row qualifier => ?_, ?_⟩
  · have hsame : read.check next = read.check t := by
      refine Read.check_congr fun name hmem => ?_
      have hne : name ≠ family := fun heq => hread (heq ▸ hmem)
      rw [checkFamily, needFamily, hother, if_neg hne, hname]
      rfl
    have hpick : (t.entries.filter fun e => read.wants e && next.isReadable e) =
        t.entries.filter fun e => e.family != family && (read.wants e && t.isReadable e) := by
      refine List.filter_congr fun e _ => ?_
      rw [isReadable, isReadable, hother]
      by_cases he : e.family = family <;> simp [he]
    rw [Read.run_eq hs' hhides.enabled, Read.filter_run hs henabled read fun _ name =>
      name != family, hsame, hentries, hpick]
  · rw [Read.run_eq hs' hhides.enabled, Read.check_of_family? hread, hcheck]
    rfl
  · rw [Table.put, checkEnabled, hhides.enabled, hcheck]
    rfl
  · rw [Table.delete, checkEnabled, hhides.enabled, hcheck]
    rfl
  · rw [count, count, checkEnabled, checkEnabled, hhides.enabled, henabled, hnext]
    rfl

/-- It takes the entries of the family to have it again. -/
theorem regains_of_ofFamily {gone : String → Bool} (hs : Entries.Sound t.entries)
    (hs' : Entries.Sound next.entries) (henabled : t.disabled = false)
    (henabled' : next.disabled = false) (hfamily : (t.family? family).isSome = true)
    (hfamily' : (next.family? family).isSome = true)
    (hentries : Entries.ofFamily next.entries family = (Entries.ofFamily t.entries family).filter
      fun e => !gone e.row)
    : t.Regains next family gone := by
  have hcheck : t.checkFamily family = .ok () := checkFamily_eq_ok.mpr hfamily
  have hcheck' : next.checkFamily family = .ok () := checkFamily_eq_ok.mpr hfamily'
  have hcomm (read : Read) : (Entries.ofFamily next.entries family).filter read.wants =
      ((Entries.ofFamily t.entries family).filter read.wants).filter fun e => !gone e.row := by
    rw [hentries, List.filter_filter, List.filter_filter]
    exact List.filter_congr fun e _ => Bool.and_comm _ _
  refine ⟨fun read hread => ?_, fun read hread => ?_, fun row qualifier => ?_, ?_⟩
  · have hsame : read.check next = read.check t := Read.check_congr fun name hmem => by
      rw [hread] at hmem
      cases hmem
    have hpick : (t.entries.filter fun e => !gone e.row &&
      (e.family == family && (read.wants e && t.isReadable e))) =
        t.entries.filter fun e =>
          (e.family == family && !gone e.row) && (read.wants e && t.isReadable e) :=
      List.filter_congr fun e _ => by rw [Bool.and_left_comm, Bool.and_assoc]
    rw [Read.filter_run hs' henabled' read fun _ name => name == family,
      Read.filter_run hs henabled read fun row name => name == family && !gone row, hsame,
      Read.filter_ofFamily hfamily', hcomm, ← Read.filter_ofFamily hfamily,
        List.filter_filter, hpick]
  · rw [Read.run_eq hs' henabled', Read.filter_run hs henabled read fun row _ => !gone row,
      Read.check_of_family? hread, Read.check_of_family? hread, hcheck, hcheck',
      Read.filter_ofFamily_of_family? hfamily' hread, hcomm,
      ← Read.filter_ofFamily_of_family? hfamily hread, List.filter_filter]
  · rw [history?, history?, hs'.ordered.find?_ofFamily, hs.ordered.find?_ofFamily, hentries,
      List.find?_filter]
    by_cases hgone : gone row = true
    · rw [if_pos hgone, Option.bind_eq_none_iff]
      intro e he
      have hkept : gone e.row = false ∧ e.isAt row family = true := by
        simpa using List.find?_some he
      obtain ⟨hkept, hat⟩ := hkept
      rw [(Entry.isAt_iff.mp hat).1, hgone] at hkept
      cases hkept
    · rw [if_neg hgone]
      congr 2
      funext e
      by_cases hat : e.isAt row family = true
      · simp [hat, (Entry.isAt_iff.mp hat).1, hgone]
      · simp [hat]
  · intro row qualifier h hh r value
    rw [history?] at hh
    have hnumber : (Entries.put next.entries row family qualifier r.version value).2.1 = _ :=
      hs'.ordered.put_number
    have hput := hs'.find?_put row family qualifier r.version value (r := row) (f := family)
      (q := qualifier)
    rw [hh] at hnumber hput
    refine ⟨_, put_eq_ok.mpr ⟨henabled', hfamily', (hnumber.trans (h.count_push ..)).symm, rfl⟩, ?_⟩
    rw [if_pos ⟨rfl, rfl, rfl⟩] at hput
    exact hput

/-- To remove a family from the schema of an enabled table hides its cells: scans and reads show the
others as before, and a read or a write that names the family is told that there is none. Whatever
is written to the other families and to the schema afterwards, the family can be created again if
its name and its properties are valid, and then every cell of it is there with all its versions,
unless its row was removed. -/
theorem Reachable.hides_until_created (h : Reachable t) (henabled : t.disabled = false)
    (hfamily : (t.family? family).isSome = true) (r : Readings) :
    ∃ hidden, t.deleteFamily r family = .ok hidden ∧ t.Loses hidden family ∧
      (Fault.noFamily family t.name).code = .notFound ∧
      ∀ (ops : List (Operation × Readings)) (r' : Readings) (batch : Properties),
        (∀ step ∈ ops, step.1.Elsewhere family) →
          ((∃ restored, (hidden.after ops).createFamily r' family batch = .ok restored) ↔
            checkFamilyName family = .ok () ∧ ∃ options, Options.ofProperties batch = .ok options) ∧
          ∀ restored, (hidden.after ops).createFamily r' family batch = .ok restored →
            t.Regains restored family (cleared ops) := by
  have hdelete : ∃ hidden, t.deleteFamily r family = .ok hidden :=
    ⟨_, deleteFamily_eq_ok.mpr ⟨henabled, hfamily, rfl⟩⟩
  obtain ⟨hidden, hdelete⟩ := hdelete
  refine ⟨hidden, hdelete, loses_of_deleteFamily h.sound hdelete, rfl, fun ops r' batch hops => ?_⟩
  have hentries : hidden.entries = t.entries := by
    obtain ⟨-, -, rfl⟩ := deleteFamily_eq_ok.mp hdelete
    rfl
  obtain ⟨hhides, hsound, hafter⟩ := (hides_of_deleteFamily hdelete).after (hentries ▸ h.sound) hops
  refine ⟨⟨fun hcreate => ?_, fun hvalid => ?_⟩, fun restored hcreate => ?_⟩
  · obtain ⟨restored, hcreate⟩ := hcreate
    obtain ⟨-, hlegal, -, added, hadded, -⟩ := createFamily_eq_ok.mp hcreate
    obtain ⟨options, hoptions, -⟩ := bind_eq_ok.mp hadded
    exact ⟨hlegal, options, hoptions⟩
  · obtain ⟨hlegal, options, hoptions⟩ := hvalid
    exact ⟨_, createFamily_eq_ok.mpr ⟨hhides.enabled, hlegal, family?_eq_none.mpr hhides.absent,
      ⟨family, options⟩, bind_eq_ok.mpr ⟨options, hoptions, rfl⟩, rfl⟩⟩
  · have hcreated := isSome_family?_of_createFamily hcreate
    obtain ⟨henabled', -, -, added, -, rfl⟩ := createFamily_eq_ok.mp hcreate
    exact regains_of_ofFamily h.sound hsound henabled henabled' hfamily hcreated (hentries ▸ hafter)

def threeElsewhere : List (Operation × Readings) :=
  [(.createFamily "g" [], ⟨.epoch, .epoch⟩), (.put "r1" "g" "q" "w", ⟨.epoch, .epoch⟩),
    (.deleteRow "r2", ⟨.epoch, .epoch⟩)]

theorem hides_until_created_threeEntries : Reachable threeEntries ∧ threeEntries.disabled = false ∧
    (threeEntries.family? "f").isSome = true ∧ ∃ hidden restored,
      threeEntries.deleteFamily ⟨.epoch, .epoch⟩ "f" = .ok hidden ∧ threeEntries.Loses hidden "f" ∧
      (hidden.after threeElsewhere).createFamily ⟨.epoch, .epoch⟩ "f" [] = .ok restored ∧
      threeEntries.Regains restored "f" (· == "r2") := by
  have hfamily : (threeEntries.family? "f").isSome = true := by decide
  obtain ⟨hidden, hdelete, hloses, -, hback⟩ :=
    reachable_threeEntries.hides_until_created rfl hfamily ⟨.epoch, .epoch⟩
  have helsewhere : ∀ step ∈ threeElsewhere, step.1.Elsewhere "f" := by
    simp [threeElsewhere, Operation.Elsewhere]
  have hcleared : cleared threeElsewhere = (· == "r2") := by
    funext row
    simp [threeElsewhere, cleared, Operation.clears]
  obtain ⟨hvalid, hregains⟩ := hback threeElsewhere ⟨.epoch, .epoch⟩ [] helsewhere
  obtain ⟨restored, hcreate⟩ := hvalid.mpr ⟨rfl, _, rfl⟩
  exact ⟨reachable_threeEntries, rfl, hfamily, hidden, restored, hdelete, hloses, hcreate,
    hcleared ▸ hregains restored hcreate⟩

end WideColumn.Table
