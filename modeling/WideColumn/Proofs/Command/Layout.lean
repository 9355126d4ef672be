import Mathlib.Data.List.Chain
import WideColumn.Proofs.Command.Token

/-! # Tokens laid out with blanks

Tokens may have blanks before, between and after them, and none of them count. Only two words that
follow each other need a blank between them. -/
namespace WideColumn.Token
open WideColumn.Text

/-- A token with the blanks in front of it. -/
structure Piece where
  gap : List Char
  token : Token
  deriving DecidableEq, Repr

variable {t : Token} {cs last : List Char} {p : Piece} {pieces : List Piece}

/-- Tokens written out, each after its blanks, with blanks at the end. -/
def layOut (pieces : List Piece) (last : List Char) : List Char :=
  pieces.flatMap (fun p => p.gap ++ p.token.write) ++ last

def isWord : Token → Bool
  | word _ => true
  | _ => false

/-- A word is a run of word characters. Every other token can be written, whatever is in it. -/
def Legible : Token → Prop
  | word spelling => spelling.toList ≠ [] ∧ ∀ c ∈ spelling.toList, isBare c = true
  | _ => True

instance : DecidablePred Legible
  | word spelling =>
    decidable_of_iff (spelling.toList ≠ [] ∧ spelling.toList.all isBare = true)
      (and_congr_right fun _ => List.all_eq_true)
  | string _ | comma | leftBrace | rightBrace | arrow => .isTrue trivial

/-- There is a blank between two words. -/
def Apart (p q : Piece) : Prop := p.token.isWord = true → q.token.isWord = true → q.gap ≠ []

theorem stops_write (h : t.isWord = false) : Stops (t.write ++ cs) := by
  cases t with
  | word spelling => cases h
  | _ => exact .cons (by decide +kernel)

/-- A word ends where blanks or a token that is no word start. -/
theorem stops_layOut (hgaps : ∀ p ∈ pieces, ∀ c ∈ p.gap, isBlank c = true)
    (hlast : ∀ c ∈ last, isBlank c = true)
    (hnext : ∀ p ∈ pieces.head?, p.token.isWord = true → p.gap ≠ []) :
    Stops (layOut pieces last) := by
  cases pieces with
  | nil => exact fun c hc => not_isBare_of_isBlank (hlast c (List.mem_of_mem_head? hc))
  | cons p pieces =>
    have hp := hgaps p List.mem_cons_self
    rw [layOut, List.flatMap_cons, List.append_assoc, List.append_assoc]
    cases hgap : p.gap with
    | nil =>
      refine stops_write (Bool.eq_false_iff.mpr fun hword => ?_)
      exact hnext p rfl hword hgap
    | cons c gap =>
      rw [hgap] at hp
      exact .cons (not_isBare_of_isBlank (hp c List.mem_cons_self))

theorem written_layOut (hlegible : ∀ p ∈ pieces, p.token.Legible)
    (hgaps : ∀ p ∈ pieces, ∀ c ∈ p.gap, isBlank c = true) (hlast : ∀ c ∈ last, isBlank c = true)
    (hapart : pieces.IsChain Apart) : Written (pieces.map Piece.token) (layOut pieces last) := by
  induction pieces with
  | nil =>
    have hblank := Written.blanks hlast .nil
    rw [List.append_nil] at hblank
    exact hblank
  | cons p pieces ih =>
    obtain ⟨gap, t⟩ := p
    obtain ⟨ht, hlegible'⟩ := List.forall_mem_cons.mp hlegible
    obtain ⟨hgap, hgaps'⟩ := List.forall_mem_cons.mp hgaps
    obtain ⟨hnext, hapart'⟩ := List.isChain_cons.mp hapart
    have hrest := ih hlegible' hgaps' hapart'
    rw [layOut, List.flatMap_cons, List.append_assoc, List.append_assoc, ← layOut]
    refine .blanks hgap ?_
    cases t with
    | word spelling =>
      exact .word ht.1 ht.2 (stops_layOut hgaps' hlast fun q hq => hnext q hq rfl) hrest
    | _ => exact .token nofun hrest

/-- However tokens are written out, with any blanks before, between and after them and one at least
between two words, the text is cut into exactly these tokens. -/
theorem ofString_layOut (pieces : List Piece) (last : List Char)
    (hlegible : ∀ p ∈ pieces, p.token.Legible) (hgaps : ∀ p ∈ pieces, ∀ c ∈ p.gap, isBlank c = true)
    (hlast : ∀ c ∈ last, isBlank c = true) (hapart : pieces.IsChain Apart) :
    ofString (.ofList (layOut pieces last)) = .ok (pieces.map Piece.token) := by
  rw [ofString, String.toList_ofList]
  exact (written_layOut hlegible hgaps hlast hapart).ofChars_eq

def mixture : List Piece :=
  [⟨['\n'], .leftBrace⟩, ⟨[], .word "a.b"⟩, ⟨[], .arrow⟩, ⟨[], .string "it's \\"⟩,
    ⟨[], .string "\\\\'"⟩, ⟨[], .word "é"⟩, ⟨['\u3000', '\t'], .word "-1"⟩, ⟨[' '], .comma⟩,
    ⟨[], .string ""⟩, ⟨[], .rightBrace⟩]

theorem ofString_layOut_mixture :
    layOut mixture [' '] = "\n\x7ba.b=>'it\\'s \\\\''\\\\\\\\\\''é\u3000\t-1 ,''\x7d ".toList ∧
      ofString "\n\x7ba.b=>'it\\'s \\\\''\\\\\\\\\\''é\u3000\t-1 ,''\x7d " =
        .ok [.leftBrace, .word "a.b", .arrow, .string "it's \\", .string "\\\\'", .word "é",
          .word "-1", .comma, .string "", .rightBrace] := by
  have htext : layOut mixture [' '] =
    "\n\x7ba.b=>'it\\'s \\\\''\\\\\\\\\\''é\u3000\t-1 ,''\x7d ".toList := by decide
  have hgaps : ∀ p ∈ mixture, p.gap.all isBlank = true := by decide
  have hread := ofString_layOut mixture [' '] (by decide +kernel)
    (fun p hp => List.all_eq_true.mp (hgaps p hp)) (List.all_eq_true.mp (by decide))
    (by simp [mixture, Apart, isWord])
  rw [htext, String.ofList_toList] at hread
  exact ⟨htext, hread⟩

end WideColumn.Token
