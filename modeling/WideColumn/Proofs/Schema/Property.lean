import WideColumn.Proofs.Sequence
import WideColumn.Schema.Options

/-! # The property that a key names

No spelling of one property is a spelling of another, so it does not matter in which order
properties are looked through. -/
namespace WideColumn.Schema
open WideColumn.Text

namespace Property

variable {p q : Property} {key : String}

theorem mem_all (p : Property) : p ∈ all := by
  cases p <;> decide

theorem names_iff : p.Names key ↔ lowered key ∈ [lowered p.label, lowered p.field] := by
  rw [Names, sameWord_iff, sameWord_iff, List.mem_cons, List.mem_singleton]
  exact or_congr eq_comm eq_comm

theorem names_label (p : Property) : p.Names p.label := names_iff.mpr List.mem_cons_self

/-- A key names one property at most. -/
theorem Names.unique (hp : p.Names key) (hq : q.Names key) : p = q := by
  have hall : ∀ p ∈ all, ∀ q ∈ all, ∀ word ∈ [lowered p.label, lowered p.field],
      word ∈ [lowered q.label, lowered q.field] → p = q := by decide +kernel
  exact hall p p.mem_all q q.mem_all _ (names_iff.mp hp) (names_iff.mp hq)

theorem find?_eq_some_iff : find? key = some p ↔ p.Names key := by
  have hunique : ∀ p q : Property, decide (p.Names key) = true →
      decide (q.Names key) = true → p = q :=
    fun p q hp hq => (of_decide_eq_true hp).unique (of_decide_eq_true hq)
  rw [find?, find?_eq_some_iff_of_unique mem_all hunique, decide_eq_true_iff]

theorem find?_eq_none_iff : find? key = none ↔ ∀ p : Property, ¬p.Names key := by
  rw [Option.eq_none_iff_forall_ne_some]
  exact forall_congr' fun p => not_congr find?_eq_some_iff

end Property

namespace Options

variable {p : Property} {key : String}

theorem resolve_eq_ok_iff : resolve key = .ok p ↔ p.Names key := by
  rw [← Property.find?_eq_some_iff, resolve]
  cases Property.find? key <;> simp

theorem resolve_eq_error_iff {e : Fault} :
    resolve key = .error e ↔ (∀ p : Property, ¬p.Names key) ∧ e = .unknownProperty key := by
  rw [← Property.find?_eq_none_iff, resolve]
  cases Property.find? key <;> simp [eq_comm]

end Options

end WideColumn.Schema
