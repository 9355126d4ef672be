import WideColumn.Proofs.Schema.Batch

/-! # Options that can be set

A family keeps at least one version, in blocks of at least one byte. No property that is set takes
that away. -/
namespace WideColumn.Schema.Options
open WideColumn.Text

variable {o o' : Options} {batch : Properties}

/-- There is room for a version, and a block has a size. -/
structure Lawful (o : Options) : Prop where
  versions : 1 ≤ o.versions
  blockSize : 1 ≤ o.blockSize

theorem lawful_default : Lawful {} := ⟨by decide, by decide⟩

theorem Lawful.apply (h : o.Lawful) (happly : o.apply batch = .ok o') : o'.Lawful where
  versions := one_le_versions_of_apply happly h.versions
  blockSize := one_le_blockSize_of_apply happly h.blockSize

theorem lawful_ofProperties (h : ofProperties batch = .ok o) : o.Lawful := lawful_default.apply h

/-- Options that come from the defaults by batches of properties. -/
inductive Reachable : Options → Prop where
  | default : Reachable {}
  | apply {o o' : Options} {batch : Properties} (h : Reachable o)
    (happly : o.apply batch = .ok o') : Reachable o'

theorem Reachable.lawful (h : o.Reachable) : o.Lawful := by
  induction h with
  | default => exact lawful_default
  | apply _ happly ih => exact ih.apply happly

private theorem means_number (n : Nat) :
    Numeral.Denotes (trim (String.ofList (Numeral.write n)).toList) n := by
  rw [String.toList_ofList, trim_digits fun c => Numeral.isDigit_of_mem_write]
  exact Numeral.denotes_write n

theorem means_get (h : o.Lawful) (p : Property) : p.Means (o.get p) (o.setting p) := by
  cases p with
  | dataBlockEncoding => exact LawfulChoice.raised_label o.dataBlockEncoding
  | bloomFilter => exact LawfulChoice.raised_label o.bloomFilter
  | compression => exact LawfulChoice.raised_label o.compression
  | ttl =>
    have hlabel := o.ttl.means_label
    rw [← Ttl.trim_label] at hlabel
    exact hlabel
  | replicationScope => exact means_number _
  | minVersions => exact means_number _
  | versions => exact ⟨means_number _, UInt32.le_iff_toNat_le.mp h.versions⟩
  | blockSize => exact ⟨means_number _, UInt32.le_iff_toNat_le.mp h.blockSize⟩
  | keepDeletedCells =>
    have hall : ∀ b, lowered (trimmed (.ofList (raised (flagLabel b)))) = (flagLabel b).toList := by
      decide
    exact hall o.keepDeletedCells
  | inMemory | blockCache =>
    have hall : ∀ b, lowered (trimmed (flagLabel b)) = (flagLabel b).toList := by decide
    exact hall _

def described (o : Options) : Properties := Property.all.map fun p => (p.label, o.get p)

/-- Options are made again from their description. -/
theorem ofProperties_described (h : o.Lawful) : ofProperties o.described = .ok o := by
  have hsucceeds : ∃ o', ofProperties o.described = .ok o' := by
    refine exists_apply_eq_ok_iff.mpr (List.forall_mem_map.mpr fun p _ => ?_)
    exact ⟨p, o.setting p, p.names_label, means_get h p⟩
  obtain ⟨o', ho'⟩ := hsucceeds
  refine ho'.trans (congrArg Except.ok (eq_of_setting_eq fun p => ?_))
  have hlast := decides_of_apply ho' p
  rw [Decides] at hlast
  split at hlast
  · next pair hpair =>
    -- no other property has this label
    obtain ⟨hmem, hnames⟩ := List.mem_filter.mp (List.mem_of_getLast? hpair)
    obtain ⟨q, -, rfl⟩ := List.mem_map.mp hmem
    obtain rfl := q.names_label.unique (of_decide_eq_true hnames)
    exact hlast.unique (means_get h q)
  · next hnone =>
    have hempty := List.filter_eq_nil_iff.mp (List.getLast?_eq_none_iff.mp hnone)
    have hmem : (p.label, o.get p) ∈ o.described := List.mem_map_of_mem p.mem_all
    exact absurd (decide_eq_true p.names_label) (hempty _ hmem)

/-- The bounds are all that options from the defaults have in common. -/
theorem reachable_iff_lawful : o.Reachable ↔ o.Lawful :=
  ⟨Reachable.lawful, fun h => .apply .default (ofProperties_described h)⟩

end WideColumn.Schema.Options
