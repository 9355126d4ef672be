import WideColumn.Proofs.Command.Argument

/-! # Arguments as they are written

What is written for an argument is cut into its tokens, and these spell the argument. -/
namespace WideColumn
open WideColumn.Schema WideColumn.Text

variable {ts : List Token} {cs gap : List Char} {pairs : List (Literal × Literal)} {w : Wording}
  {ws : List Wording}

/-- A bare key or value is a word. -/
def Literal.Legible : Literal → Prop
  | quoted _ => True
  | bare spelling => spelling.toList ≠ [] ∧ ∀ c ∈ spelling.toList, Token.isBare c = true

theorem Literal.text?_token (l : Literal) : l.token.text? = some l.text := by
  cases l <;> rfl

namespace Token.Written

theorem literal {l : Literal} (hl : l.Legible) (hstop : Stops cs) (h : Written ts cs) :
    Written (l.token :: ts) (l.token.spaced ++ cs) := by
  cases l with
  | quoted content => exact .token nofun h
  | bare spelling => exact .word hl.1 hl.2 hstop h

theorem leftBrace (h : Written ts cs) : Written (.leftBrace :: ts) (Token.leftBrace.spaced ++ cs) :=
  .token nofun h

theorem rightBrace (h : Written ts cs) :
    Written (.rightBrace :: ts) (Token.rightBrace.spaced ++ cs) :=
  .token nofun h

theorem comma (h : Written ts cs) : Written (.comma :: ts) (Token.comma.spaced ++ cs) := by
  have hblank := blank (c := ' ') (by decide) h
  exact .token nofun hblank

theorem arrow (h : Written ts cs) : Written (.arrow :: ts) (Token.arrow.spaced ++ cs) := by
  have hblank := blank (c := ' ') (by decide) h
  exact .blank (by decide) (.token nofun hblank)

end Token.Written

namespace Wording

/-- Every bare key and value of a map is a word. -/
def Legible : Wording → Prop
  | string _ => True
  | map pairs => ∀ p ∈ pairs, p.1.Legible ∧ p.2.Legible

theorem pairs_pairTokens (hne : pairs ≠ []) :
    Argument.Pairs (pairTokens pairs) (pairs.map fun p => (p.1.text, p.2.text)) := by
  fun_induction pairTokens pairs with
  | case1 => exact absurd rfl hne
  | case2 key value => exact .one key.text?_token value.text?_token
  | case3 key value next rest ih =>
    exact .more key.text?_token value.text?_token (ih (List.cons_ne_nil _ _))

/-- The tokens of a wording spell its argument. -/
theorem spells_tokens (w : Wording) : Argument.Spells w.tokens w.argument := by
  cases w with
  | string content => exact .string content
  | map pairs =>
    cases pairs with
    | nil => exact .empty
    | cons p pairs => exact .map (pairs_pairTokens (List.cons_ne_nil p pairs))

theorem stops_spaced {t : Token} (h : ∀ spelling, t ≠ .word spelling) :
    Token.Stops (t.spaced ++ cs) := by
  cases t with
  | word spelling => exact absurd rfl (h spelling)
  | _ => exact .cons (by decide +kernel)

theorem written_pairTokens (hl : ∀ p ∈ pairs, p.1.Legible ∧ p.2.Legible) (hstop : Token.Stops cs)
    (h : Token.Written ts cs) :
    Token.Written (pairTokens pairs ++ ts) ((pairTokens pairs).flatMap Token.spaced ++ cs) := by
  fun_induction pairTokens pairs with
  | case1 => exact h
  | case2 key value =>
    obtain ⟨⟨hkey, hvalue⟩, -⟩ := List.forall_mem_cons.mp hl
    simp only [List.flatMap_cons, List.flatMap_nil, List.append_nil, List.append_assoc]
    exact .literal hkey (stops_spaced nofun) (.arrow (.literal hvalue hstop h))
  | case3 key value next rest ih =>
    obtain ⟨⟨hkey, hvalue⟩, hl⟩ := List.forall_mem_cons.mp hl
    rw [List.flatMap_cons, List.flatMap_cons, List.flatMap_cons, List.flatMap_cons]
    simp only [List.append_assoc]
    exact .literal hkey (stops_spaced nofun)
      (.arrow (.literal hvalue (stops_spaced nofun) (.comma (ih hl))))

/-- What is written for an argument consists of its tokens. -/
theorem written_write (hw : w.Legible) (h : Token.Written ts cs) :
    Token.Written (w.tokens ++ ts) (w.write ++ cs) := by
  cases w with
  | string content =>
    rw [write, tokens, List.flatMap_singleton]
    exact .token nofun h
  | map pairs =>
    rw [write, tokens, List.cons_append, List.cons_append, List.flatMap_cons, List.flatMap_append,
      List.flatMap_singleton]
    simp only [List.append_assoc]
    exact .leftBrace (written_pairTokens hw (stops_spaced nofun) h.rightBrace)

/-- The tokens of arguments with commas between them spell the arguments. -/
theorem lists_listed (hne : ws ≠ []) : Argument.Lists (listed ws) (ws.map argument) := by
  fun_induction listed ws with
  | case1 => exact absurd rfl hne
  | case2 w => exact .one w.spells_tokens
  | case3 w next rest ih => exact .more w.spells_tokens (ih (List.cons_ne_nil _ _))

/-- What is written for arguments with commas between them consists of their tokens. -/
theorem written_separated (hgap : ∀ c ∈ gap, isBlank c = true) (hws : ∀ w ∈ ws, w.Legible) :
    Token.Written (listed ws) (Command.separated gap (ws.map write)) := by
  fun_induction listed ws with
  | case1 => exact .nil
  | case2 w =>
    obtain ⟨hw, -⟩ := List.forall_mem_cons.mp hws
    have hwritten := written_write hw .nil
    simp only [List.append_nil] at hwritten
    rw [Command.separated, List.map_singleton, List.intercalate_singleton]
    exact hwritten
  | case3 w next rest ih =>
    obtain ⟨hw, hws⟩ := List.forall_mem_cons.mp hws
    have hcomma : Token.Written (.comma :: listed (next :: rest)) (',' :: (gap ++ _)) :=
      .token nofun (.blanks hgap (ih hws))
    rw [Command.separated, List.map_cons, List.map_cons, List.intercalate_cons_cons,
      List.append_assoc]
    exact written_write hw hcomma

/-- The text of an argument ends with a quote or a brace. -/
theorem exists_write_eq_concat (w : Wording) : ∃ cs c, w.write = cs ++ [c] ∧ isBlank c = false := by
  cases w with
  | string content =>
    rw [write, tokens, List.flatMap_singleton]
    exact ⟨_, '\'', rfl, by decide⟩
  | map pairs =>
    rw [write, tokens, List.flatMap_append, List.flatMap_singleton]
    exact ⟨_, '\x7d', rfl, by decide⟩

theorem exists_separated_eq_concat (gap : List Char) (hne : ws ≠ []) :
    ∃ cs c, Command.separated gap (ws.map write) = cs ++ [c] ∧ isBlank c = false := by
  induction ws with
  | nil => exact absurd rfl hne
  | cons w ws ih =>
    cases ws with
    | nil =>
      rw [Command.separated, List.map_singleton, List.intercalate_singleton]
      exact w.exists_write_eq_concat
    | cons next rest =>
      obtain ⟨cs, c, hcs, hc⟩ := ih (List.cons_ne_nil _ _)
      rw [Command.separated] at hcs
      refine ⟨w.write ++ (',' :: gap) ++ cs, c, ?_, hc⟩
      rw [Command.separated, List.map_cons, List.map_cons, List.intercalate_cons_cons,
        ← List.map_cons, hcs]
      simp only [List.append_assoc]

end Wording

end WideColumn
