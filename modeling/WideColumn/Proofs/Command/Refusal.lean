import WideColumn.Fault
import WideColumn.Proofs.Sequence

/-! # What a reader gives, or refuses

A reader of commands gives something that has the properties it is read for, or it refuses its input
as an invalid argument. -/
namespace WideColumn

variable {α β : Type} {P : α → Prop} {Q : β → Prop} {x : Except Fault α} {f : α → Except Fault β}
  {a : α} {e : Fault}

/-- The reader gives something for which `P` holds, or it refuses an invalid argument. -/
def Gives (P : α → Prop) : Except Fault α → Prop
  | .ok a => P a
  | .error e => e.code = .invalidArgument

namespace Gives

theorem of_eq_ok (hx : Gives P x) (h : x = .ok a) : P a := by
  rw [h] at hx
  exact hx

theorem code_eq (hx : Gives P x) (h : x = .error e) : e.code = .invalidArgument := by
  rw [h] at hx
  exact hx

/-- What is known of every answer is known of the reader. -/
theorem strengthen {P' : α → Prop} (hx : Gives P x) (h : ∀ a, x = .ok a → P' a) : Gives P' x := by
  cases x with
  | error e => exact hx
  | ok a => exact h a rfl

theorem mono {P' : α → Prop} (hx : Gives P x) (h : ∀ a, P a → P' a) : Gives P' x :=
  hx.strengthen fun a ha => h a (hx.of_eq_ok ha)

theorem bind (hx : Gives P x) (hf : ∀ a, P a → Gives Q (f a)) : Gives Q (x >>= f) := by
  cases x with
  | error e => exact hx
  | ok a => exact hf a hx

theorem map {g : α → β} (hx : Gives P x) (h : ∀ a, P a → Q (g a)) : Gives Q (g <$> x) := by
  cases x with
  | error e => exact hx
  | ok a => exact h a hx

/-- A list is read item by item. -/
theorem mapM {l : List α} (hf : ∀ a ∈ l, Gives Q (f a)) :
    Gives (fun bs => bs.length = l.length ∧ ∀ b ∈ bs, Q b) (l.mapM f) := by
  induction l with
  | nil => exact ⟨rfl, List.forall_mem_nil _⟩
  | cons a l ih =>
    obtain ⟨ha, hl⟩ := List.forall_mem_cons.mp hf
    rw [List.mapM_cons]
    refine ha.bind fun b hb => (ih hl).bind fun bs hbs => ?_
    obtain ⟨hlength, hall⟩ := hbs
    exact ⟨congrArg Nat.succ hlength, List.forall_mem_cons.mpr ⟨hb, hall⟩⟩

end Gives

end WideColumn
