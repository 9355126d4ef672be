import WideColumn.Proofs.Command.Wording

/-! # Arguments are what the grammar derives

Exactly the lists of tokens that follow the grammar are read, each as what it spells. No list of
tokens can be derived in two ways. -/
namespace WideColumn
open WideColumn.Schema WideColumn.Text

variable {ts rest rest' : List Token} {ps : Properties} {a : Argument} {args : List Argument}
  {cs : List Char} {pairs pairs' : List (Literal × Literal)} {w w' : Wording}
  {ws ws' : List Wording}

namespace Argument

/-- What is read from one pair on ends at the first brace and spells the pairs. -/
theorem gives_pairs (ts : List Token) :
    Gives (fun r => ∃ us, ts = us ++ .rightBrace :: r.2 ∧ Pairs us r.1) (Argument.pairs ts) := by
  fun_induction Argument.pairs ts with
  | case7 k key hk v value hv ts ih =>
    refine ih.bind fun r hr => ?_
    obtain ⟨us, rfl, hus⟩ := hr
    exact ⟨k :: .arrow :: v :: .comma :: us, rfl, .more hk hv hus⟩
  | case8 k key hk v value hv ts => exact ⟨[k, .arrow, v], rfl, .one hk hv⟩
  | _ => exact rfl

theorem gives_braced (ts : List Token) :
    Gives (fun r => ∃ us, .leftBrace :: ts = us ++ r.2 ∧ Spells us (.map r.1)) (braced ts) := by
  unfold braced
  split
  · next ts => exact ⟨[.leftBrace, .rightBrace], rfl, .empty⟩
  · refine (gives_pairs _).mono fun r hr => ?_
    obtain ⟨us, rfl, hus⟩ := hr
    refine ⟨.leftBrace :: (us ++ [.rightBrace]), ?_, .map hus⟩
    rw [List.cons_append, List.append_assoc, List.singleton_append]

/-- What is read from one argument on spells the arguments. -/
theorem gives_separated (ts : List Token) : Gives (Lists ts) (separated ts) := by
  induction ts using separated.induct
    (fun a ts => Gives (fun args => ∀ us, Spells us a → Lists (us ++ ts) args)
        (separated.following a ts)) with
  | case1 a =>
    rw [separated.following]
    intro us hus
    rw [List.append_nil]
    exact .one hus
  | case2 a ts ih =>
    rw [separated.following]
    exact ih.bind fun args hargs us hus => .more hus hargs
  | case3 a t ts hcomma =>
    rw [separated.following]
    · exact rfl
    · exact hcomma
  | case4 =>
    rw [separated]
    exact rfl
  | case5 content ts ih =>
    rw [separated]
    exact ih.mono fun args hargs => hargs _ (.string content)
  | case6 ts e hbraced =>
    rw [separated_leftBrace, hbraced, error_bind]
    exact (gives_braced ts).code_eq hbraced
  | case7 ts ps after hbraced hlength ih =>
    rw [separated_leftBrace, hbraced, ok_bind]
    refine ih.mono fun args hargs => ?_
    obtain ⟨us, heq, hus⟩ := (gives_braced ts).of_eq_ok hbraced
    rw [heq]
    exact hargs us hus
  | case8 spelling ts =>
    rw [separated]
    exact rfl
  | case9 t ts hstring hbrace hword =>
    rw [separated]
    · exact rfl
    all_goals assumption

theorem gives_ofTokens (ts : List Token) : Gives (Derives ts) (ofTokens ts) := by
  cases ts with
  | nil => exact Derives.none
  | cons t ts => exact (gives_separated (t :: ts)).mono fun _ h => .some h

theorem gives_ofString (text : String) :
    Gives (fun args => ∃ ts, Token.ofString text = .ok ts ∧ Derives ts args) (ofString text) := by
  have htokens : Gives (fun ts => Token.ofString text = .ok ts) (Token.ofString text) :=
    (Token.gives_ofChars text.toList).strengthen fun _ h => h
  exact htokens.bind fun ts hts => (gives_ofTokens ts).mono fun _ h => ⟨ts, hts, h⟩

end Argument

theorem Literal.token_injective : Function.Injective Literal.token := by
  intro l l' h
  cases l <;> cases l' <;> cases h <;> rfl

theorem Literal.token_ne {t : Token} (l : Literal) (h : t.text? = none) : l.token ≠ t := by
  rintro rfl
  rw [l.text?_token] at h
  cases h

theorem exists_literal {t : Token} {s : String} (h : t.text? = some s) :
    ∃ l : Literal, l.token = t ∧ l.text = s := by
  cases t with
  | string content =>
    cases h
    exact ⟨.quoted s, rfl, rfl⟩
  | word spelling =>
    cases h
    exact ⟨.bare s, rfl, rfl⟩
  | _ => cases h

namespace Wording

/-- The closing brace ends the pairs, so what comes after it does not matter. -/
theorem pairTokens_cancel
    (h : pairTokens pairs ++ .rightBrace :: rest = pairTokens pairs' ++ .rightBrace :: rest') :
    pairs = pairs' ∧ rest = rest' := by
  fun_induction pairTokens pairs generalizing pairs' with
  | case1 =>
    cases pairs' with
    | nil => exact ⟨rfl, (List.cons.inj h).2⟩
    | cons p' more' => cases more' <;> exact absurd (List.cons.inj h).1.symm (p'.1.token_ne rfl)
  | case2 key value =>
    cases pairs' with
    | nil => exact absurd (List.cons.inj h).1 (key.token_ne rfl)
    | cons p' more' =>
      cases more' with
      | nil =>
        simp only [pairTokens, List.cons_append, List.nil_append, List.cons.injEq, true_and] at h
        obtain ⟨hkey, hvalue, hrest⟩ := h
        rw [Literal.token_injective hkey, Literal.token_injective hvalue]
        exact ⟨rfl, hrest⟩
      | cons next' more' =>
        -- a closing brace is no comma
        simp only [pairTokens, List.cons_append, List.cons.injEq] at h
        cases h.2.2.2
  | case3 key value next more ih =>
    cases pairs' with
    | nil => exact absurd (List.cons.inj h).1 (key.token_ne rfl)
    | cons p' more' =>
      cases more' with
      | nil =>
        simp only [pairTokens, List.cons_append, List.cons.injEq] at h
        cases h.2.2.2
      | cons next' more' =>
        simp only [pairTokens, List.cons_append, List.cons.injEq, true_and] at h
        obtain ⟨hkey, hvalue, hmore⟩ := h
        obtain ⟨hmore, hrest⟩ := ih hmore
        rw [Literal.token_injective hkey, Literal.token_injective hvalue, hmore]
        exact ⟨rfl, hrest⟩

theorem tokens_cancel (h : w.tokens ++ rest = w'.tokens ++ rest') : w = w' ∧ rest = rest' := by
  cases w with
  | string content =>
    cases w' with
    | string content' =>
      cases h
      exact ⟨rfl, rfl⟩
    | map pairs' => cases h
  | map pairs =>
    cases w' with
    | string content' => cases h
    | map pairs' =>
      simp only [tokens, List.cons_append, List.append_assoc, List.nil_append, List.cons.injEq,
        true_and] at h
      obtain ⟨rfl, rfl⟩ := pairTokens_cancel h
      exact ⟨rfl, rfl⟩

theorem tokens_ne_nil (w : Wording) : w.tokens ≠ [] := w.spells_tokens.ne_nil

/-- No list of tokens has two derivations. -/
theorem listed_inj (h : listed ws = listed ws') : ws = ws' := by
  fun_induction listed ws generalizing ws' with
  | case1 =>
    cases ws' with
    | nil => rfl
    | cons w' ws' => exact absurd h.symm (lists_listed (List.cons_ne_nil w' ws')).ne_nil
  | case2 w =>
    cases ws' with
    | nil => exact absurd h w.tokens_ne_nil
    | cons w' ws' =>
      cases ws' with
      | nil =>
        have heq : w.tokens ++ [] = w'.tokens ++ [] := congrArg (· ++ []) h
        rw [(tokens_cancel heq).1]
      | cons next' rest' =>
        have heq : w.tokens ++ [] = w'.tokens ++ .comma :: listed (next' :: rest') :=
          (List.append_nil _).trans h
        cases (tokens_cancel heq).2
  | case3 w next rest ih =>
    cases ws' with
    | nil => exact absurd h (List.append_ne_nil_of_left_ne_nil w.tokens_ne_nil _)
    | cons w' ws' =>
      cases ws' with
      | nil =>
        have heq : w.tokens ++ .comma :: listed (next :: rest) = w'.tokens ++ [] :=
          h.trans (List.append_nil _).symm
        cases (tokens_cancel heq).2
      | cons next' rest' =>
        obtain ⟨hw, hrest⟩ := tokens_cancel h
        rw [hw, ih (List.cons.inj hrest).2]

theorem derives_listed (ws : List Wording) : Argument.Derives (listed ws) (ws.map argument) := by
  cases ws with
  | nil => exact .none
  | cons w ws => exact .some (lists_listed (List.cons_ne_nil w ws))

theorem exists_pairTokens (h : Argument.Pairs ts ps) :
    ∃ pairs, pairs ≠ [] ∧ pairTokens pairs = ts ∧
    pairs.map (fun p => (p.1.text, p.2.text)) = ps := by
  induction h with
  | one hk hv =>
    obtain ⟨k, rfl, rfl⟩ := exists_literal hk
    obtain ⟨v, rfl, rfl⟩ := exists_literal hv
    exact ⟨[(k, v)], List.cons_ne_nil _ _, rfl, rfl⟩
  | more hk hv _ ih =>
    obtain ⟨k, rfl, rfl⟩ := exists_literal hk
    obtain ⟨v, rfl, rfl⟩ := exists_literal hv
    obtain ⟨pairs, hne, rfl, rfl⟩ := ih
    obtain ⟨p, pairs, rfl⟩ := List.exists_cons_of_ne_nil hne
    exact ⟨(k, v) :: p :: pairs, List.cons_ne_nil _ _, rfl, rfl⟩

theorem exists_tokens (h : Argument.Spells ts a) :
    ∃ w : Wording, w.tokens = ts ∧ w.argument = a := by
  cases h with
  | string content => exact ⟨.string content, rfl, rfl⟩
  | empty => exact ⟨.map [], rfl, rfl⟩
  | map h =>
    obtain ⟨pairs, -, rfl, rfl⟩ := exists_pairTokens h
    exact ⟨.map pairs, rfl, rfl⟩

theorem exists_listed (h : Argument.Lists ts args) :
    ∃ ws, ws ≠ [] ∧ listed ws = ts ∧ ws.map argument = args := by
  induction h with
  | one h =>
    obtain ⟨w, rfl, rfl⟩ := exists_tokens h
    exact ⟨[w], List.cons_ne_nil _ _, rfl, rfl⟩
  | more h _ ih =>
    obtain ⟨w, rfl, rfl⟩ := exists_tokens h
    obtain ⟨ws, hne, rfl, rfl⟩ := ih
    obtain ⟨next, rest, rfl⟩ := List.exists_cons_of_ne_nil hne
    exact ⟨w :: next :: rest, List.cons_ne_nil _ _, rfl, rfl⟩

/-- What the grammar derives is what has a derivation. -/
theorem derives_iff : Argument.Derives ts args ↔ ∃ ws, listed ws = ts ∧ ws.map argument = args := by
  constructor
  · intro h
    cases h with
    | none => exact ⟨[], rfl, rfl⟩
    | some h =>
      obtain ⟨ws, -, hts, hargs⟩ := exists_listed h
      exact ⟨ws, hts, hargs⟩
  · intro h
    obtain ⟨ws, rfl, rfl⟩ := h
    exact derives_listed ws

end Wording

/-- A text is read exactly if it is cut into tokens that the grammar derives, and then as the
arguments that they spell. The tokens that the grammar derives are those of a list of written
arguments, and of one such list only. Every other text is refused as an invalid argument. -/
theorem Argument.ofString_exact (text : String) :
    (∀ args, ofString text = .ok args ↔ ∃ ts, Token.ofString text = .ok ts ∧ Derives ts args) ∧
      (∀ ts args, Derives ts args ↔ ∃ ws, Wording.listed ws = ts ∧ ws.map Wording.argument = args) ∧
      Function.Injective Wording.listed ∧
      ∀ e, ofString text = .error e → e.code = .invalidArgument := by
  refine ⟨fun args => ⟨(gives_ofString text).of_eq_ok, fun h => ?_⟩,
    fun ts args => Wording.derives_iff,
    fun ws ws' => Wording.listed_inj, fun e => (gives_ofString text).code_eq⟩
  obtain ⟨ts, hts, h⟩ := h
  rw [ofString, hts]
  exact h.read

end WideColumn
