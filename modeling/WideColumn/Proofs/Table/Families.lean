import WideColumn.Proofs.Table.Run

/-! # Tables with families that a new table may have

The families of a new table have legal, distinct names, and no write takes that from a table. The
file of a table is not held to it. -/
namespace WideColumn.Table
open WideColumn.Schema

variable {t next : Table} {name : String} {families : List Family} {r : Readings}

theorem checkFamilies_eq_ok_iff {seen : List String} : checkFamilies seen families = .ok () ↔
    (families.map (·.name)).Nodup ∧ ∀ f ∈ families, checkFamilyName f.name = .ok () ∧
    f.name ∉ seen := by
  induction families generalizing seen with
  | nil => simp [checkFamilies]
  | cons f rest ih =>
    rw [List.map_cons, List.nodup_cons, List.forall_mem_cons, checkFamilies, bind_eq_ok]
    by_cases hseen : f.name ∈ seen
    · simp [hseen]
    · simp only [hseen, if_false, ih, List.mem_cons, not_or, List.mem_map, not_exists, not_and]
      constructor
      · intro h
        obtain ⟨⟨⟩, hlegal, hdistinct, hrest⟩ := h
        refine ⟨⟨fun g hg => (hrest g hg).2.1, hdistinct⟩, ⟨hlegal, not_false⟩, fun g hg => ?_⟩
        exact ⟨(hrest g hg).1, (hrest g hg).2.2⟩
      · intro h
        obtain ⟨⟨hnew, hdistinct⟩, ⟨hlegal, -⟩, hrest⟩ := h
        exact ⟨(), hlegal, hdistinct, fun g hg => ⟨(hrest g hg).1, hnew g hg, (hrest g hg).2⟩⟩

theorem family?_eq_none : t.family? name = none ↔ name ∉ t.familyNames := by
  simp [family?, familyNames]

theorem isSome_family?_iff : (t.family? name).isSome = true ↔ name ∈ t.familyNames := by
  simp [family?, familyNames]

/-- A table could be created with its families. -/
structure Renewable (t : Table) : Prop where
  distinct : t.familyNames.Nodup
  legal : ∀ name ∈ t.familyNames, checkFamilyName name = .ok ()

theorem checkFamilies_eq_ok : checkFamilies [] t.families = .ok () ↔ t.Renewable := by
  have hlegal : (∀ f ∈ t.families, checkFamilyName f.name = .ok () ∧ f.name ∉ ([] : List String)) ↔
      ∀ name ∈ t.familyNames, checkFamilyName name = .ok () := by simp [familyNames]
  rw [checkFamilies_eq_ok_iff, hlegal]
  exact ⟨fun h => ⟨h.1, h.2⟩, fun h => ⟨h.distinct, h.legal⟩⟩

/-- Only the names of the families are checked. -/
theorem checkFamilies_ofNames (seen : List String) (families : List Family) :
    checkFamilies seen ((families.map (·.name)).map fun name => { name }) =
      checkFamilies seen families := by
  induction families generalizing seen with
  | nil => rfl
  | cons f rest ih => simp only [List.map_cons, checkFamilies, ih]

theorem Renewable.congr (h : t.Renewable) (hnames : next.familyNames = t.familyNames) :
    next.Renewable :=
  ⟨hnames ▸ h.distinct, hnames ▸ h.legal⟩

theorem names_replaceOptions (name : String) (options : Options) (families : List Family) :
    (replaceOptions name options families).map (·.name) = families.map (·.name) := by
  induction families with
  | nil => rfl
  | cons f rest ih =>
    rw [replaceOptions]
    split
    · rfl
    · rw [List.map_cons, List.map_cons, ih]

theorem Renewable.add {family : Family} (h : t.Renewable)
    (hlegal : checkFamilyName family.name = .ok ()) (hnew : t.family? family.name = none)
    (hnext : next.families = t.families ++ [family]) : next.Renewable := by
  have hnames : next.familyNames = t.familyNames ++ [family.name] := by
    rw [familyNames, hnext, List.map_append, familyNames]
    rfl
  have hnot : family.name ∉ t.familyNames := family?_eq_none.mp hnew
  refine ⟨?_, ?_⟩
  · rw [hnames]
    refine List.nodup_append.mpr ⟨h.distinct, List.pairwise_singleton _ _,
      fun n hn m hm heq => hnot ?_⟩
    exact List.mem_singleton.mp hm ▸ heq ▸ hn
  · rw [hnames]
    exact List.forall_mem_append.mpr ⟨h.legal, List.forall_mem_singleton.mpr hlegal⟩

theorem Renewable.filter {keep : Family → Bool} (h : t.Renewable)
    (hnext : next.families = t.families.filter keep) :
    next.Renewable := by
  have hsub : next.familyNames.Sublist t.familyNames := by
    rw [familyNames, hnext]
    exact List.filter_sublist.map _
  exact ⟨h.distinct.sublist hsub, fun name hname => h.legal name (hsub.subset hname)⟩

/-- The families of a table are what a write made of those of another. -/
inductive Regrouped (t next : Table) : Prop where
  | same (h : next.families = t.families)
  | added {name : String} {batch : Properties} {family : Family}
    (hlegal : checkFamilyName name = .ok ())
      (hnew : t.family? name = none) (hfamily : Family.ofProperties name batch = .ok family)
      (h : next.families = t.families ++ [family])
  | updated {name : String} {batch : Properties} {family : Family} {options : Options}
      (hfamily : t.family? name = some family) (happly : family.options.apply batch = .ok options)
      (h : next.families = replaceOptions name options t.families)
  | removed {name : String} (h : next.families = t.families.filter fun f => f.name != name)

theorem regrouped_of_run {op : Operation} {n : Option Nat} (hrun : op.run r t = .ok (n, next)) :
    Regrouped t next := by
  cases Operation.effect_of_run hrun with
  | put h =>
    obtain ⟨-, -, -, rfl⟩ := put_eq_ok.mp h
    exact .same rfl
  | delete h =>
    obtain ⟨-, -, -, rfl⟩ := delete_eq_ok.mp h
    exact .same rfl
  | deleteRow h =>
    obtain ⟨-, -, rfl⟩ := deleteRow_eq_ok.mp h
    exact .same rfl
  | createFamily h =>
    obtain ⟨-, hlegal, hnew, family, hfamily, rfl⟩ := createFamily_eq_ok.mp h
    exact .added hlegal hnew hfamily rfl
  | updateFamily h =>
    obtain ⟨-, family, options, hfamily, happly, rfl⟩ := updateFamily_eq_ok.mp h
    exact .updated hfamily happly rfl
  | deleteFamily h =>
    obtain ⟨-, -, rfl⟩ := deleteFamily_eq_ok.mp h
    exact .removed rfl
  | enable h =>
    obtain ⟨-, rfl⟩ := enable_eq_ok.mp h
    exact .same rfl
  | disable h =>
    obtain ⟨-, rfl⟩ := disable_eq_ok.mp h
    exact .same rfl
  | recount h =>
    cases h
    exact .same rfl

/-- A successful write leaves families that a new table may have. -/
theorem Renewable.run {op : Operation} {n : Option Nat} (h : t.Renewable)
    (hrun : op.run r t = .ok (n, next)) :
    next.Renewable := by
  cases regrouped_of_run hrun with
  | same hnext =>
    refine h.congr ?_
    rw [familyNames, hnext, familyNames]
  | added hlegal hnew hfamily hnext =>
    obtain ⟨options, -, hfamily⟩ := bind_eq_ok.mp hfamily
    cases hfamily
    exact h.add hlegal hnew hnext
  | updated hfamily happly hnext =>
    refine h.congr ?_
    rw [familyNames, hnext]
    exact names_replaceOptions ..
  | removed hnext => exact h.filter hnext

end WideColumn.Table
