import WideColumn.Proofs.Command.Token
import WideColumn.Proofs.Sequence

/-! # The grammar of arguments

Arguments have a comma between two of them. An argument is a string, or a map in braces with a comma
between two of its pairs. A list of tokens that follows the grammar is read as what it spells. -/
namespace WideColumn.Argument
open WideColumn.Schema WideColumn.Text

variable {ts rest : List Token} {ps : Properties} {a : Argument} {args : List Argument}
  {cs : List Char}

inductive Pairs : List Token → Properties → Prop where
  | one {k v : Token} {key value : String} (hk : k.text? = some key) (hv : v.text? = some value) :
      Pairs [k, .arrow, v] [(key, value)]
  | more {k v : Token} {key value : String} {ts : List Token} {ps : Properties}
      (hk : k.text? = some key) (hv : v.text? = some value) (h : Pairs ts ps) :
      Pairs (k :: .arrow :: v :: .comma :: ts) ((key, value) :: ps)

inductive Spells : List Token → Argument → Prop where
  | string (content : String) : Spells [.string content] (.string content)
  | empty : Spells [.leftBrace, .rightBrace] (.map [])
  | map {ts : List Token} {ps : Properties} (h : Pairs ts ps) :
      Spells (.leftBrace :: (ts ++ [.rightBrace])) (.map ps)

inductive Lists : List Token → List Argument → Prop where
  | one {ts : List Token} {a : Argument} (h : Spells ts a) : Lists ts [a]
  | more {ts us : List Token} {a : Argument} {args : List Argument} (h : Spells ts a)
      (hs : Lists us args) : Lists (ts ++ .comma :: us) (a :: args)

/-- The tokens of any number of arguments. -/
inductive Derives : List Token → List Argument → Prop where
  | none : Derives [] []
  | some {ts : List Token} {args : List Argument} (h : Lists ts args) : Derives ts args

theorem Pairs.read (h : Pairs ts ps) : pairs (ts ++ .rightBrace :: rest) = .ok (ps, rest) := by
  induction h with
  | one hk hv => simp only [List.cons_append, List.nil_append, pairs, hk, hv]; rfl
  | more hk hv _ ih => simp only [List.cons_append, pairs, hk, hv, ih]; rfl

theorem Pairs.read_braced (h : Pairs ts ps) :
    braced (ts ++ .rightBrace :: rest) = .ok (ps, rest) := by
  rw [braced, h.read]
  -- the first token of a pair is no brace
  cases h with
  | one hk hv =>
    intro us hus
    cases hus
    cases hk
  | more hk hv _ =>
    intro us hus
    cases hus
    cases hk

theorem separated_leftBrace :
    separated (.leftBrace :: ts) = braced ts >>= fun r => separated.following (.map r.1) r.2 := by
  rw [separated.eq_def]
  dsimp only
  split
  · next he =>
    rw [he]
    rfl
  · next hok =>
    rw [hok]
    rfl

/-- An argument is read up to the token after it. -/
theorem Spells.read (h : Spells ts a) : separated (ts ++ rest) = separated.following a rest := by
  cases h with
  | string content => rw [List.singleton_append, separated]
  | empty =>
    rw [List.cons_append, List.singleton_append, separated_leftBrace]
    rfl
  | map h =>
    rw [List.cons_append, List.append_assoc, List.singleton_append, separated_leftBrace,
      h.read_braced, ok_bind]

theorem Lists.read (h : Lists ts args) : separated ts = .ok args := by
  induction h with
  | @one ts a h =>
    have hread : separated (ts ++ []) = _ := h.read
    rw [List.append_nil] at hread
    rw [hread, separated.following]
    rfl
  | more h _ ih =>
    rw [h.read, separated.following, ih]
    rfl

theorem Spells.ne_nil (h : Spells ts a) : ts ≠ [] := by
  cases h with
  | _ => exact List.cons_ne_nil _ _

theorem Lists.ne_nil (h : Lists ts args) : ts ≠ [] := by
  cases h with
  | one h => exact h.ne_nil
  | more h _ => exact List.append_ne_nil_of_left_ne_nil h.ne_nil _

/-- Tokens that follow the grammar are read as the arguments that they spell. -/
theorem Derives.read (h : Derives ts args) : ofTokens ts = .ok args := by
  cases h with
  | none => rfl
  | some h =>
    rw [ofTokens, h.read]
    exact h.ne_nil

theorem ofString_eq_ok (hw : Token.Written ts cs) (h : Derives ts args) :
    ofString (.ofList cs) = .ok args := by
  rw [ofString, Token.ofString, String.toList_ofList, hw.ofChars_eq]
  exact h.read

end WideColumn.Argument
