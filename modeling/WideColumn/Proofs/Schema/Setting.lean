import WideColumn.Proofs.Schema.Property
import WideColumn.Proofs.Schema.Value

/-! # What a property is set to

A text means one value of a property at most. To set a property to a text is to assign it the value
that the text means, and a text that means none is refused. -/
namespace WideColumn.Schema
open WideColumn.Text

def Property.Value : Property → Type
  | .dataBlockEncoding => BlockEncoding
  | .bloomFilter => BloomFilter
  | .compression => Compression
  | .ttl => Ttl
  | .replicationScope | .versions | .minVersions | .blockSize => UInt32
  | .keepDeletedCells | .inMemory | .blockCache => Bool

/-- What a text means as the value of a property. Blanks around it do not count. A label or a flag
may be in any case, a number has 32 bits and perhaps a plus sign, and there is at least one version
and one byte in a block. -/
def Property.Means (value : String) : (p : Property) → p.Value → Prop
  | .dataBlockEncoding, a => raised (trimmed value) = (Choice.label (α := BlockEncoding) a).toList
  | .bloomFilter, a => raised (trimmed value) = (Choice.label (α := BloomFilter) a).toList
  | .compression, a => raised (trimmed value) = (Choice.label (α := Compression) a).toList
  | .ttl, life => Ttl.Means (trim value.toList) life
  | .replicationScope, n | .minVersions, n => Numeral.Denotes (trim value.toList) (UInt32.toNat n)
  | .versions, n | .blockSize, n => Numeral.Denotes (trim value.toList) (UInt32.toNat n) ∧
    1 ≤ UInt32.toNat n
  | .keepDeletedCells, b | .inMemory, b | .blockCache, b =>
    lowered (trimmed value) = (flagLabel b).toList

namespace Options

def setting (o : Options) : (p : Property) → p.Value
  | .dataBlockEncoding => o.dataBlockEncoding
  | .bloomFilter => o.bloomFilter
  | .compression => o.compression
  | .ttl => o.ttl
  | .replicationScope => o.replicationScope
  | .versions => o.versions
  | .minVersions => o.minVersions
  | .blockSize => o.blockSize
  | .keepDeletedCells => o.keepDeletedCells
  | .inMemory => o.inMemory
  | .blockCache => o.blockCache

def assign (o : Options) : (p : Property) → p.Value → Options
  | .dataBlockEncoding, a => { o with dataBlockEncoding := a }
  | .bloomFilter, a => { o with bloomFilter := a }
  | .compression, a => { o with compression := a }
  | .ttl, life => { o with ttl := life }
  | .replicationScope, n => { o with replicationScope := n }
  | .versions, n => { o with versions := n }
  | .minVersions, n => { o with minVersions := n }
  | .blockSize, n => { o with blockSize := n }
  | .keepDeletedCells, b => { o with keepDeletedCells := b }
  | .inMemory, b => { o with inMemory := b }
  | .blockCache, b => { o with blockCache := b }

variable {o o' : Options} {p q : Property} {a b : p.Value} {value : String}

@[simp] theorem setting_assign (o : Options) (p : Property) (a : p.Value) :
    (o.assign p a).setting p = a := by
  cases p <;> rfl

theorem setting_assign_of_ne (h : q ≠ p) : (o.assign p a).setting q = o.setting q := by
  cases p <;> cases q <;> first | rfl | exact absurd rfl h

/-- Options are what their properties are. -/
theorem eq_of_setting_eq (h : ∀ p, o.setting p = o'.setting p) : o = o' := by
  cases o
  cases o'
  congr
  · exact h .dataBlockEncoding
  · exact h .bloomFilter
  · exact h .replicationScope
  · exact h .versions
  · exact h .compression
  · exact h .minVersions
  · exact h .ttl
  · exact h .keepDeletedCells
  · exact h .blockSize
  · exact h .inMemory
  · exact h .blockCache

variable {α : Type} {kind text : String}

theorem accept_eq_ok_iff {x : Option α} {a : α} : accept kind text x = .ok a ↔ x = some a := by
  cases x <;> simp [accept]

theorem accept_eq_error_iff {x : Option α} {e : Fault} :
    accept kind text x = .error e ↔ x = none ∧ e = .badValue text kind := by
  cases x <;> simp [accept, eq_comm]

private theorem bind_pure_eq_ok_iff {x : Except Fault α} {Q : α → Prop} {f : α → Options}
    (h : ∀ a, x = .ok a ↔ Q a) : (x >>= fun a => pure (f a)) = .ok o' ↔ ∃ a, Q a ∧ o' = f a := by
  rw [bind_eq_ok]
  refine exists_congr fun a => and_congr (h a) ?_
  rw [pure_eq_ok, Except.ok.injEq, eq_comm]

/-- A number that has to be at least one. -/
private theorem bind_positive_eq_ok_iff {x : Except Fault UInt32} {Q : UInt32 → Prop}
    {f : UInt32 → Options} {e : Fault} (h : ∀ n, x = .ok n ↔ Q n) :
    (x >>= fun n => if (n == 0) = true then throw e else pure (f n)) = .ok o' ↔
      ∃ n, (Q n ∧ 1 ≤ n.toNat) ∧ o' = f n := by
  rw [bind_eq_ok]
  refine exists_congr fun n => ?_
  rw [h n, and_assoc]
  refine and_congr_right fun _ => ?_
  have hzero : (n == 0) = true ↔ n.toNat = 0 := by
    rw [beq_iff_eq, ← UInt32.toNat_inj, UInt32.toNat_zero]
  by_cases hn : (n == 0) = true
  · simp [hn, hzero.mp hn]
  · have hpos : 1 ≤ n.toNat := Nat.one_le_iff_ne_zero.mpr (mt hzero.mpr hn)
    simp [hn, hpos, eq_comm]

/-- A property is set exactly when the text means a value of it. -/
theorem set_eq_ok_iff : o.set p value = .ok o' ↔ ∃ a, p.Means value a ∧ o' = o.assign p a := by
  rw [Options.set.eq_def]
  cases p with
  | dataBlockEncoding | bloomFilter | compression =>
    exact bind_pure_eq_ok_iff fun _ => accept_eq_ok_iff.trans Choice.read?_eq_some_iff
  | ttl =>
    refine bind_pure_eq_ok_iff fun ttl => accept_eq_ok_iff.trans (Ttl.read?_eq_some_iff.trans ?_)
    rw [trimmed, String.toList_ofList, trim_trim]
    rfl
  | replicationScope | minVersions =>
    refine bind_pure_eq_ok_iff fun n => accept_eq_ok_iff.trans (readNumber?_eq_some_iff.trans ?_)
    rw [trimmed, String.toList_ofList]
    rfl
  | versions | blockSize =>
    refine bind_positive_eq_ok_iff fun n =>
      accept_eq_ok_iff.trans (readNumber?_eq_some_iff.trans ?_)
    rw [trimmed, String.toList_ofList]
  | keepDeletedCells | inMemory | blockCache =>
    exact bind_pure_eq_ok_iff fun _ => accept_eq_ok_iff.trans readFlag?_eq_some_iff

private theorem code_of_accept_bind {x : Option α} {f : α → Options} {e : Fault}
    (h : (accept kind text x >>= fun a => pure (f a)) = .error e) : e.code = .invalidArgument := by
  rcases bind_eq_error.mp h with h | ⟨a, -, h⟩
  · rw [(accept_eq_error_iff.mp h).2]
    rfl
  · cases h

/-- Any other text is refused as an invalid argument. -/
theorem code_of_set_eq_error {e : Fault} (h : o.set p value = .error e) :
    e.code = .invalidArgument := by
  rw [Options.set.eq_def] at h
  cases p with
  | versions | blockSize =>
    rcases bind_eq_error.mp h with h | ⟨n, -, h⟩
    · rw [(accept_eq_error_iff.mp h).2]
      rfl
    · split at h
      · cases h
        rfl
      · cases h
  | _ => exact code_of_accept_bind h

end Options

/-- A text means one value of a property at most. -/
theorem Property.Means.unique {p : Property} {value : String} {a b : p.Value} (ha : p.Means value a)
    (hb : p.Means value b) : a = b := by
  have hleft : ({} : Options).set p value = .ok (Options.assign {} p a) :=
    Options.set_eq_ok_iff.mpr ⟨a, ha, rfl⟩
  have hright : ({} : Options).set p value = .ok (Options.assign {} p b) :=
    Options.set_eq_ok_iff.mpr ⟨b, hb, rfl⟩
  have heq := congrArg (Options.setting · p) (Except.ok.inj (hleft.symm.trans hright))
  simpa using heq

end WideColumn.Schema
