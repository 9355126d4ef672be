import WideColumn.Fault
import WideColumn.Text.Basic

/-! # Tokens of the arguments of a command

Inside quotes a backslash before a quote or a backslash stands for that character; any other
backslash stands for itself. -/
namespace WideColumn
open WideColumn.Text

inductive Token where
  /-- A quoted string, as its content. -/
  | string (content : String)
  /-- A bare word or number. -/
  | word (spelling : String)
  | comma
  | leftBrace
  | rightBrace
  | arrow
  deriving DecidableEq, Repr

namespace Token

def shown : Token → String
  | string content => "'" ++ content ++ "'"
  | word spelling => spelling
  | comma => ","
  | leftBrace => "\x7b"
  | rightBrace => "\x7d"
  | arrow => "=>"

def text? : Token → Option String
  | string content => some content
  | word spelling => some spelling
  | _ => none

def isBare (c : Char) : Bool := isAlphanumeric c || c == '_' || c == '.' || c == '-' || c == ':'

/-- The content of a quoted string after its opening quote, and the text after its closing quote. -/
def unquote : List Char → Option (List Char × List Char)
  | [] => none
  | '\\' :: c :: rest =>
    if c == '\'' || c == '\\' then (unquote rest).map fun (cs, after) => (c :: cs, after)
    else (unquote (c :: rest)).map fun (cs, after) => ('\\' :: cs, after)
  | c :: rest =>
    if c == '\'' then some ([], rest)
    else (unquote rest).map fun (cs, after) => (c :: cs, after)

theorem length_unquote {cs content after : List Char} (h : unquote cs = some (content, after)) :
    after.length < cs.length := by
  fun_induction unquote cs generalizing content with
  | case1 => simp at h
  | case2 c rest hc ih =>
    obtain ⟨⟨cs', after'⟩, hu, heq⟩ := Option.map_eq_some_iff.1 h
    simp only [Prod.mk.injEq] at heq
    obtain ⟨-, rfl⟩ := heq
    have := ih hu
    simp only [List.length_cons]
    omega
  | case3 c rest hc ih =>
    obtain ⟨⟨cs', after'⟩, hu, heq⟩ := Option.map_eq_some_iff.1 h
    simp only [Prod.mk.injEq] at heq
    obtain ⟨-, rfl⟩ := heq
    have := ih hu
    simp only [List.length_cons] at this ⊢
    omega
  | case4 c rest hne hc =>
    simp only [Option.some.injEq, Prod.mk.injEq] at h
    obtain ⟨-, rfl⟩ := h
    simp
  | case5 c rest hne hc ih =>
    obtain ⟨⟨cs', after'⟩, hu, heq⟩ := Option.map_eq_some_iff.1 h
    simp only [Prod.mk.injEq] at heq
    obtain ⟨-, rfl⟩ := heq
    have := ih hu
    simp only [List.length_cons]
    omega

/-- The tokens of a text. The first character that starts none is refused. -/
def ofChars : List Char → Except Fault (List Token)
  | [] => pure []
  | c :: rest =>
    if isBlank c then ofChars rest
    else if c == ',' then return .comma :: (← ofChars rest)
    else if c == '\x7b' then return .leftBrace :: (← ofChars rest)
    else if c == '\x7d' then return .rightBrace :: (← ofChars rest)
    else if c == '=' then
      match rest with
      | '>' :: rest => return .arrow :: (← ofChars rest)
      | _ => throw .noArrowHead
    else if c == '\'' then
      match h : unquote rest with
      | none => throw .unterminatedString
      | some (content, after) =>
        have := length_unquote h
        return .string (.ofList content) :: (← ofChars after)
    else if isBare c then
      have := (List.dropWhile_suffix isBare (l := rest)).length_le
      return .word (.ofList (c :: rest.takeWhile isBare)) :: (← ofChars (rest.dropWhile isBare))
    else throw (.unexpectedCharacter c)
  termination_by cs => cs.length

def ofString (text : String) : Except Fault (List Token) := ofChars text.toList

end Token

end WideColumn
