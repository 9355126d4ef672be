import WideColumn.Proofs.Catalog.Settled
import WideColumn.Proofs.Table.Families

/-! # Truncation

A table is truncated by three writes: it is disabled, dropped and created anew. Only the last can be
refused on a disk that does not fail, and then the table is gone. What refuses it are family names
that no new table may have, and only the file of a table can have brought them in. -/
namespace WideColumn

/-- An empty, enabled table with families of the same names, each with the options of a new
family. -/
def Table.renewed (t : Table) (id : Uuid) (now : Time.Instant) : Table :=
  .blank t.name (t.familyNames.map fun name => { name }) id now

namespace Catalog
open WideColumn.Schema WideColumn.Time

variable {directory name : String} {c : Catalog} {k k' : Machine} {t : Table}

theorem remove_replace {s : Table} (c : Catalog) (hname : s.name = name) :
    (c.replace name s).remove name = c.remove name := by
  obtain ⟨directory, tables⟩ := c
  rw [remove, replace, remove]
  congr 1
  induction tables with
  | nil => rfl
  | cons t tables ih =>
    rw [replaceIn]
    by_cases ht : t.name = name
    · simp [removeFrom, ht, hname]
    · simpa [removeFrom, ht] using ih

/-- Whether the table was enabled or not, it is a disabled one that is dropped and created anew. -/
private theorem Housed.exec_truncate_disabled (h : Housed c k.volume) (hk : k.Calm)
    (ht : c.find? name = some t) :
    ∃ d s k', exec (truncate name) c k =
        exec (dropTable name >>= fun _ => createTable name (t.familyNames.map fun name => { name }))
          d k' ∧
      k'.Calm ∧ Housed d k'.volume ∧ d.find? name = some s ∧ s.enabled = false ∧
      d.directory = c.directory ∧
      d.remove name = c.remove name ∧ k'.volume.without (Volume.path (c.filePath name)) =
        k.volume.without (Volume.path (c.filePath name)) := by
  cases henabled : t.enabled with
  | false =>
    refine ⟨c, t, k, ?_, hk, h, ht, henabled, rfl, rfl, rfl⟩
    rw [truncate, exec_bind_ok (exec_table ht k), henabled, if_neg Bool.false_ne_true]
  | true =>
    obtain ⟨s, k', hrun, hname, hoff, hk', hv⟩ := h.exec_disable hk ht henabled
    have hhoused : Housed (c.replace name s) k'.volume := hv ▸ (h.place ht _).replace ht hname
    have hdiscard : exec (discard (disable name)) c k = ((.ok (), c.replace name s), k') :=
      exec_bind_ok hrun
    refine ⟨c.replace name s, s, k', ?_, hk', hhoused, find?_replace ht hname, hoff, rfl,
      remove_replace c hname, ?_⟩
    · rw [truncate, exec_bind_ok (exec_table ht k), henabled, if_pos rfl, exec_bind_ok hdiscard]
    · rw [hv, Volume.without_place]

/-- The table and its file are gone when the families are checked. If they pass, the table comes
back as a new one, behind the others. -/
theorem Housed.exec_truncate (h : Housed c k.volume) (hk : k.Calm) (ht : c.find? name = some t) :
    ∃ id now k', match Table.checkFamilies [] t.families with
      | .ok _ => exec (truncate name) c k = ((.ok (), (c.remove name).add (t.renewed id now)), k') ∧
          k'.volume = k.volume.place (Volume.path (c.filePath name))
            (.file (.text (t.renewed id now).encode))
      | .error e => exec (truncate name) c k = ((.error e, c.remove name), k') ∧
          k'.volume = k.volume.without (Volume.path (c.filePath name)) := by
  obtain ⟨d, s, k₁, hstart, hk₁, h₁, hs, hoff, hdirectory, hremove, hv₁⟩ :=
    h.exec_truncate_disabled hk ht
  obtain ⟨hmem, rfl⟩ := mem_of_find? ht
  have hlegal := h.named.legal t hmem
  have hpath : d.filePath t.name = c.filePath t.name := congrArg (pathIn · _) hdirectory
  have hdrop := h₁.exec_dropTable hk₁ hs hoff
  rw [hremove, hpath, hv₁] at hdrop
  obtain ⟨content, hfile⟩ := h.files t hmem
  have hnone : (c.remove t.name).find? t.name = none := find?_remove_self h.named.distinct
  have hmissing := Volume.find?_without hfile (by rw [path_filePath c hlegal]; simp)
  obtain ⟨id, now, k₃, hcreate⟩ := exec_createTable_of_missing (c := c.remove t.name)
    (k := { k₁ with
      volume := k.volume.without (Volume.path (c.filePath t.name)), calls := k₁.calls + 1 })
    hk₁ (h.remove hlegal).directory hlegal hnone hmissing (t.familyNames.map fun name => { name })
  refine ⟨id, now, k₃, ?_⟩
  rw [hstart, exec_bind_ok hdrop]
  have hcheck : Table.checkFamilies [] (t.familyNames.map fun name => { name }) =
      Table.checkFamilies [] t.families :=
    Table.checkFamilies_ofNames [] t.families
  rw [hcheck] at hcreate
  cases hfamilies : Table.checkFamilies [] t.families with
  | ok =>
    rw [hfamilies] at hcreate
    obtain ⟨hcreate, hv⟩ := hcreate
    exact ⟨hcreate, hv.trans (Volume.place_without ..)⟩
  | error e =>
    rw [hfamilies] at hcreate
    exact hcreate

/-- Truncation answers as the check of the families of a new table does, and a table that fails it
is gone. -/
theorem Settled.exec_truncate (h : Settled directory c k) (ht : c.find? name = some t) :
    ∃ d k', exec (truncate name) c k = ((Table.checkFamilies [] t.families, d), k') ∧
      (¬ t.Renewable → Gone name d k'.volume) := by
  obtain ⟨id, now, k', hrun⟩ := h.housed.exec_truncate h.calm ht
  cases hfamilies : Table.checkFamilies [] t.families with
  | ok =>
    rw [hfamilies] at hrun
    exact ⟨_, k', hrun.1, fun hbad => absurd (Table.checkFamilies_eq_ok.mp hfamilies) hbad⟩
  | error e =>
    rw [hfamilies] at hrun
    obtain ⟨hrun, hv⟩ := hrun
    obtain ⟨hmem, rfl⟩ := mem_of_find? ht
    obtain ⟨content, hfile⟩ := h.housed.files t hmem
    refine ⟨_, k', hrun,
      fun _ => ⟨find?_remove_self h.wellNamed.distinct, hv ▸ Volume.find?_without hfile ?_⟩⟩
    rw [path_filePath c (h.wellNamed.legal t hmem)]
    simp

/-- A truncation that fails leaves the catalog and the volume as they were. -/
def LosesNothing (c : Catalog) (k : Machine) (name : String) : Prop :=
  ∀ e d k', exec (truncate name) c k = ((.error e, d), k') → d = c ∧ k'.volume = k.volume

theorem Settled.losesNothing_iff (h : Settled directory c k) :
    LosesNothing c k name ↔ ∀ t, c.find? name = some t → t.Renewable := by
  constructor
  · intro hnothing t ht
    by_contra hbad
    obtain ⟨d, k', hrun, hgone⟩ := h.exec_truncate ht
    cases hfamilies : Table.checkFamilies [] t.families with
    | ok => exact hbad (Table.checkFamilies_eq_ok.mp hfamilies)
    | error e =>
      obtain ⟨rfl, -⟩ := hnothing e d k' (hfamilies ▸ hrun)
      cases ht.symm.trans (hgone hbad).1
  · intro hgood e d k' hrun
    cases ht : c.find? name with
    | none =>
      have hno : exec (ask (·.table name)) c k = ((.error (.noTable name), c), k) := by
        rw [exec_ask, table, ht]
        rfl
      rw [truncate, exec_bind_error hno] at hrun
      cases hrun
      exact ⟨rfl, rfl⟩
    | some t =>
      -- A truncation that finds its table fails only where the check does.
      obtain ⟨d', k'', hrun', -⟩ := h.exec_truncate ht
      rw [Table.checkFamilies_eq_ok.mpr (hgood t ht), hrun] at hrun'
      cases hrun'

theorem stable_renewable : Stable fun c _ => ∀ t ∈ c.tables, t.Renewable :=
  stable_forall (fun _ _ _ _ _ ht hrun => ht.run hrun) fun name families id now hnew => by
    obtain ⟨-, -, hfamilies⟩ := bind_eq_ok.mp hnew
    exact Table.checkFamilies_eq_ok (t := .blank name families id now).mp hfamilies

/-- In the catalogs that writes lead to, a truncation loses nothing just where the families of the
table are those of a table that can be created. Where they are not, it fails as the check of them
does, and the table is gone, in memory and on disk. As writes do not spoil families, nothing is ever
lost if no file had others when the directory was opened. -/
theorem losesNothing_after {make : Bool} (hk : k.Calm) (hsound : k.volume.Sound)
    (hopen : outcome (openAt directory make) k = (.ok c, k')) (ops : List Operation)
    (name : String) :
    (LosesNothing (after ops (c, k')).1 (after ops (c, k')).2 name ↔
      ∀ t, (after ops (c, k')).1.find? name = some t → t.Renewable) ∧
    (∀ t, (after ops (c, k')).1.find? name = some t → ∃ d k'',
      exec (truncate name) (after ops (c, k')).1 (after ops (c, k')).2 =
          ((Table.checkFamilies [] t.families, d), k'') ∧
        (¬ t.Renewable → Gone name d k''.volume)) ∧
    ((∀ t ∈ c.tables, t.Renewable) →
      LosesNothing (after ops (c, k')).1 (after ops (c, k')).2 name) := by
  have hsettled := stable_settled.after ops (settled_of_openAt hk hsound hopen)
  refine ⟨hsettled.losesNothing_iff, fun t ht => hsettled.exec_truncate ht, fun hall => ?_⟩
  refine hsettled.losesNothing_iff.mpr fun t ht => ?_
  exact stable_renewable.after (k := k') ops hall t (mem_of_find? ht).1

theorem losesNothing_after_someWrites :
    LosesNothing (after someWrites (⟨"d", []⟩, opened.2)).1
      (after someWrites (⟨"d", []⟩, opened.2)).2 "t" := by
  have hsound : blankMachine.volume.Sound := List.nodup_nil
  exact (losesNothing_after (fun _ => rfl) hsound opened_eq someWrites "t").2.2 fun _ ht =>
    nomatch ht

def doubled : Table := .blank "t" [{ name := "f" }, { name := "f" }] (.ofRandom 7) .epoch

/-- The table is in its file, though it cannot have been created. -/
def doubledMachine : Machine :=
  { opened.2 with
    volume := opened.2.volume.place (Volume.path "d" ++ [doubled.fileName])
      (.file (.text doubled.encode)) }

theorem settled_doubled : Settled "d" ⟨"d", [doubled]⟩ doubledMachine := by
  obtain ⟨hcalm, -, hagrees⟩ := settled_opened
  have hshort : Volume.tooLong [doubled.fileName] = false := by decide
  exact ⟨hcalm, rfl,
    hagrees.add ⟨rfl, Volume.find?_place hagrees.directory hshort _⟩ rfl .nil (by simp [names])⟩

/-- The directory is opened without a word, and the truncation takes the table away. -/
theorem not_losesNothing_doubled :
    ∃ k, outcome (openAt "d" false) doubledMachine = (.ok ⟨"d", [doubled]⟩, k) ∧
    (∃ d k', exec (truncate "t") ⟨"d", [doubled]⟩ k = ((.error (.familyExists "f"), d), k') ∧
      Gone "t" d k'.volume) ∧
    ¬ LosesNothing ⟨"d", [doubled]⟩ k "t" := by
  obtain ⟨hcalm, hagrees⟩ := settled_doubled
  have hbad : ¬ doubled.Renewable := fun h => absurd h.distinct (by decide)
  have hcatalog := catalogIn_of_agreesIn hagrees fun t ht e he => by
    rw [List.mem_singleton.mp ht] at he
    cases he
  obtain ⟨k, hrun, -⟩ := openAt_of_directory hcalm hagrees.2.directory false
  have hopen : outcome (openAt "d" false) doubledMachine = (.ok ⟨"d", [doubled]⟩, k) := by
    rw [hrun, hcatalog, byFile, List.mergeSort_singleton]
  have hsettled := settled_of_openAt hcalm hagrees.2.sound hopen
  have ht : (⟨"d", [doubled]⟩ : Catalog).find? "t" = some doubled := rfl
  obtain ⟨d, k', htruncate, hgone⟩ := hsettled.exec_truncate ht
  refine ⟨k, hopen, ⟨d, k', htruncate, hgone hbad⟩, fun h => hbad ?_⟩
  exact hsettled.losesNothing_iff.mp h doubled ht

end Catalog

end WideColumn
