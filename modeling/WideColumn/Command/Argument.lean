import WideColumn.Command.Token
import WideColumn.Schema.Options

/-! # Arguments of a command

Arguments are separated by commas. Each is a quoted string or a map, that is, pairs of a key and a
value in braces; keys and values are quoted or bare. -/
namespace WideColumn
open WideColumn.Schema

inductive Argument where
  | string (content : String)
  | map (pairs : Properties)
  deriving DecidableEq, Repr

namespace Argument

def kind : Argument → ArgumentKind
  | string _ => .string
  | map _ => .map

def unexpected {α : Type} (t : Token) : Except Fault α := throw (.unexpectedToken t.shown)

/-- The pairs of a map from one pair on, up to its closing brace, and the tokens after it. -/
def pairs : List Token → Except Fault (Properties × List Token)
  | [] => throw .unterminatedMap
  | k :: ts =>
    match k.text? with
    | none => unexpected k
    | some key =>
      match ts with
      | [] => throw .unterminatedMap
      | a :: ts =>
        if a = .arrow then
          match ts with
          | [] => throw .unterminatedMap
          | v :: ts =>
            match v.text? with
            | none => unexpected v
            | some value =>
              match ts with
              | [] => throw .unterminatedMap
              | .comma :: ts => do
                let (more, after) ← pairs ts
                return ((key, value) :: more, after)
              | .rightBrace :: ts => return ([(key, value)], ts)
              | t :: _ => unexpected t
        else unexpected a

theorem length_pairs {ts after : List Token} {ps : Properties} (h : pairs ts = .ok (ps, after)) :
    after.length < ts.length := by
  fun_induction pairs ts generalizing ps after with
  | case7 k key hk v value hv ts ih =>
    cases hp : pairs ts with
    | error e => rw [hp] at h; cases h
    | ok r =>
      rw [hp] at h
      obtain ⟨more, after'⟩ := r
      cases h
      have := ih hp
      simp only [List.length_cons]
      omega
  | case8 =>
    cases h
    simp only [List.length_cons]
    omega
  | _ => cases h

def braced : List Token → Except Fault (Properties × List Token)
  | .rightBrace :: ts => return ([], ts)
  | ts => pairs ts

theorem length_braced {ts after : List Token} {ps : Properties} (h : braced ts = .ok (ps, after)) :
    after.length ≤ ts.length := by
  unfold braced at h
  split at h
  · cases h; simp
  · exact Nat.le_of_lt (length_pairs h)

def separated : List Token → Except Fault (List Argument)
  | [] => throw .noArgumentAfterComma
  | .string content :: ts => following (.string content) ts
  | .leftBrace :: ts =>
    match h : braced ts with
    | .error e => throw e
    | .ok (ps, after) =>
      have := length_braced h
      following (.map ps) after
  | .word spelling :: _ => throw (.bareWord spelling)
  | t :: _ => unexpected t
  termination_by ts => 2 * ts.length
where
  /-- An argument and those after it. -/
  following (a : Argument) : List Token → Except Fault (List Argument)
    | [] => return [a]
    | .comma :: ts => return a :: (← separated ts)
    | t :: _ => unexpected t
    termination_by ts => 2 * ts.length + 1

def ofTokens : List Token → Except Fault (List Argument)
  | [] => return []
  | ts => separated ts

def ofString (text : String) : Except Fault (List Argument) := do ofTokens (← Token.ofString text)

end Argument

end WideColumn
