import Mathlib.Data.List.Infix
import WideColumn.Pattern.Parser

/-! # Readers that do not look ahead

What a reader makes of a text is compared with what it makes of the text before the end of a group,
which is the end of the whole pattern. As a rule it comes to the same and leaves the end of the
group. Otherwise it needs more of the text, or it is in a comment, and runs over the closing
parenthesis. -/
namespace WideColumn.Pattern.Reader

/-- What was read, with the text after it. -/
class Rest (α : Type) where
  rest : α → List Char
  /-- There is more text after it. -/
  extend : α → List Char → α
  rest_extend : ∀ a cs, rest (extend a cs) = rest a ++ cs

instance : Rest (List Char) := ⟨id, (· ++ ·), fun _ _ => rfl⟩

instance {α β : Type} [Rest β] : Rest (α × β) where
  rest p := Rest.rest p.2
  extend p cs := (p.1, Rest.extend p.2 cs)
  rest_extend p cs := Rest.rest_extend p.2 cs

open Rest

/-- The end of the group around a pattern. -/
def close : List Char := [')', '$']

variable {α β γ : Type} [Rest α] [Rest β] [Rest γ]

/-- A text and the text before the end of the group are read alike, or the end of the group is run
over. Then nothing is left of the text alone, if it is read at all, and it ends in a comment. -/
def Alike (comment : Prop) (x y : Option α) : Prop :=
  (∃ a, x = some a ∧ y = some (extend a close)) ∨
    ((∀ a, x = some a → comment ∧ rest a = []) ∧ ∀ a, y = some a → rest a <:+ ['$'])

/-- A reader goes on from what was read before, and reads it alike before the end of the group. Only
a lax one may come to its end in a comment. -/
structure Local (lax : Prop) (h : α → Option β) : Prop where
  suffix : ∀ a b, h a = some b → rest b <:+ rest a
  alike : ∀ a, Alike (lax ∧ '#' ∈ rest a) (h a) (h (extend a close))

/-- What is made of what was read leaves the text after it as it is. -/
def Carries (f : α → β) : Prop := ∀ a, rest (f a) = rest a ∧ f (extend a close) = extend (f a) close

namespace Alike

variable {comment : Prop} {x y : Option α}

protected theorem none (h : ∀ a, y = some a → rest a <:+ ['$']) :
    Alike comment (none : Option α) y :=
  .inr ⟨fun _ h => (Option.some_ne_none _ h.symm).elim, h⟩

protected theorem weaken {comment' : Prop} (h : Alike comment x y) (himp : comment → comment') :
    Alike comment' x y := by
  rcases h with h | ⟨hx, hy⟩
  · exact .inl h
  · exact .inr ⟨fun a ha => ⟨himp (hx a ha).1, (hx a ha).2⟩, hy⟩

protected theorem map (h : Alike comment x y) {f : α → β} (hf : Carries f) :
    Alike comment (x.map f) (y.map f) := by
  rcases h with ⟨a, rfl, rfl⟩ | ⟨hx, hy⟩
  · exact .inl ⟨f a, rfl, congrArg some (hf a).2⟩
  · refine .inr ⟨fun b hb => ?_, fun b hb => ?_⟩
    · obtain ⟨a, ha, rfl⟩ := Option.map_eq_some_iff.mp hb
      exact (hf a).1.symm ▸ hx a ha
    · obtain ⟨a, ha, rfl⟩ := Option.map_eq_some_iff.mp hb
      exact (hf a).1.symm ▸ hy a ha

end Alike

namespace Local

variable {lax : Prop} {g : α → Option β} {h : β → Option γ}

protected theorem congr {h : α → Option β} (hg : Local lax g) (heq : ∀ a, h a = g a) :
    Local lax h :=
  funext heq ▸ hg

protected theorem none : Local lax fun _ : α => (none : Option β) :=
  ⟨fun _ _ h => (Option.some_ne_none _ h.symm).elim,
    fun _ => Alike.none fun _ h => (Option.some_ne_none _ h.symm).elim⟩

protected theorem pure {f : α → β} (hf : Carries f) : Local lax fun a => some (f a) where
  suffix a b h := by
    cases h
    exact (hf a).1 ▸ List.suffix_rfl
  alike a := .inl ⟨f a, rfl, congrArg some (hf a).2⟩

protected theorem bind (hg : Local lax g) (hh : Local lax h) : Local lax fun a => g a >>= h where
  suffix a c hc := by
    obtain ⟨b, hb, hc⟩ := Option.bind_eq_some_iff.mp hc
    exact (hh.suffix b c hc).trans (hg.suffix a b hb)
  alike a := by
    rcases hg.alike a with ⟨b, hx, hy⟩ | ⟨hx, hy⟩
    · rw [hx, hy]
      exact (hh.alike b).weaken fun h => ⟨h.1, (hg.suffix a b hx).subset h.2⟩
    · refine .inr ⟨fun c hc => ?_, fun c hc => ?_⟩
      · obtain ⟨b, hb, hc⟩ := Option.bind_eq_some_iff.mp hc
        obtain ⟨hcomment, hnil⟩ := hx b hb
        exact ⟨hcomment, List.suffix_nil.mp (hnil ▸ hh.suffix b c hc)⟩
      · obtain ⟨b, hb, hc⟩ := Option.bind_eq_some_iff.mp hc
        exact (hh.suffix b c hc).trans (hy b hb)

protected theorem map (hg : Local lax g) {f : β → γ} (hf : Carries f) :
    Local lax fun a => (g a).map f where
  suffix a c hc := by
    obtain ⟨b, hb, rfl⟩ := Option.map_eq_some_iff.mp hc
    exact (hf b).1.symm ▸ hg.suffix a b hb
  alike a := (hg.alike a).map hf

/-- What was read beside the text is settled before the text goes on. -/
protected theorem prod {δ : Type} {h : δ × α → Option β} (hh : ∀ d, Local lax fun a => h (d, a)) :
    Local lax h where
  suffix p := (hh p.1).suffix p.2
  alike p := (hh p.1).alike p.2

/-- What comes of a check that does not depend on the text. -/
protected theorem given {δ : Type} (x : Option δ) {h : δ → α → Option β}
    (hh : ∀ d, Local lax (h d)) :
    Local lax fun a => x >>= fun d => h d a := by
  cases x with
  | none => exact Local.none
  | some d => exact hh d

protected theorem ite {c : Prop} [Decidable c] {h : α → Option β} (hg : Local lax g)
    (hh : Local lax h) :
    Local lax fun a => if c then g a else h a := by
  by_cases hc : c
  · simpa only [if_pos hc] using hg
  · simpa only [if_neg hc] using hh

section

variable {g h : List Char → Option α}

/-- A reader that needs a character. -/
protected theorem cons {h : Char → List Char → Option α} (hh : ∀ c, Local lax (h c)) :
    Local lax fun cs => match cs with
      | [] => none
      | c :: cs => h c cs where
  suffix cs a ha := by
    cases cs with
    | nil => cases ha
    | cons c cs => exact ((hh c).suffix cs a ha).trans (List.suffix_cons c cs)
  alike cs := by
    cases cs with
    | nil => exact Alike.none fun a ha => (hh ')').suffix ['$'] a ha
    | cons c cs => exact ((hh c).alike cs).weaken fun h => ⟨h.1, List.mem_cons_of_mem c h.2⟩

/-- A reader that never leaves the whole text may as well begin after the first character. -/
protected theorem tail (hh : Local False h)
    (hless : ∀ cs a, h cs = some a → (rest a).length < cs.length) (c : Char) :
    Local lax fun cs => h (c :: cs) where
  suffix cs a ha := by
    rcases List.suffix_cons_iff.mp (hh.suffix _ a ha) with hsame | hsuffix
    · exact absurd (congrArg List.length hsame) (Nat.ne_of_lt (hless _ a ha))
    · exact hsuffix
  alike cs := (hh.alike (c :: cs)).weaken fun h => h.1.elim

/-- A choice that the end of the group does not change. -/
protected theorem cond {q : List Char → Bool} (hclose : ∀ cs, q (cs ++ close) = q cs)
    (hg : Local lax g) (hh : Local lax h) :
    Local lax fun cs => if q cs = true then g cs else h cs where
  suffix cs a ha := by
    split at ha
    · exact hg.suffix cs a ha
    · exact hh.suffix cs a ha
  alike cs := by
    have hclose : q (extend cs close) = q cs := hclose cs
    rw [hclose]
    split
    · exact hg.alike cs
    · exact hh.alike cs

/-- A choice by what comes next, which takes the closing parenthesis for the end of the text. -/
protected theorem choice {q : List Char → Bool} (hnil : q [] = false)
    (hclose : ∀ cs, q (cs ++ close) = q cs) (hg : ∀ c, Local lax fun cs => g (c :: cs))
    (hh : Local lax h) :
    Local lax fun cs => if q cs = true then g cs else h cs := by
  refine (Local.cond hclose (Local.cons hg) hh).congr fun cs => ?_
  cases cs with
  | nil => rw [hnil, if_neg Bool.false_ne_true, if_neg Bool.false_ne_true]
  | cons c cs => rfl

/-- A choice by whether a certain character comes next. -/
protected theorem head {b : Bool} {c : Char} (hc : b = true → c ≠ ')')
    (hg : ∀ c, Local lax fun cs => g (c :: cs)) (hh : Local lax h) :
    Local lax fun cs => if (b && cs.head? == some c) = true then g cs else h cs := by
  refine Local.choice (by simp) (fun cs => ?_) hg hh
  cases cs with
  | nil =>
    cases b with
    | false => rfl
    | true => simpa [close] using (hc rfl).symm
  | cons d cs => rfl

/-- A reader that stops at certain characters, and at the end. -/
protected theorem stop {p : Char → Bool} {e : List Char → α} {h : Char → List Char → Option α}
    (hp : p ')' = true) (he : Carries e) (hh : ∀ c, Local lax (h c)) :
    Local lax fun cs => match cs with
      | [] => some (e [])
      | c :: cs => if p c = true then some (e (c :: cs)) else h c cs where
  suffix cs a ha := by
    cases cs with
    | nil =>
      cases ha
      exact (he []).1 ▸ List.suffix_rfl
    | cons c cs =>
      dsimp only at ha
      split at ha
      · cases ha
        exact (he (c :: cs)).1 ▸ List.suffix_rfl
      · exact ((hh c).suffix cs a ha).trans (List.suffix_cons c cs)
  alike cs := by
    cases cs with
    | nil => exact .inl ⟨e [], rfl, (if_pos hp).trans (congrArg some (he []).2)⟩
    | cons c cs =>
      show Alike _ (if p c = true then some (e (c :: cs)) else h c cs)
        (if p c = true then some (e (c :: cs ++ close)) else h c (cs ++ close))
      split
      · exact .inl ⟨e (c :: cs), rfl, congrArg some (he (c :: cs)).2⟩
      · exact ((hh c).alike cs).weaken fun h => ⟨h.1, List.mem_cons_of_mem c h.2⟩

/-- A reader that may not apply, which the end of the group does not change. -/
protected theorem orElse {k : List Char → Option β} {g : β → Option α} (hk : Local lax k)
    (hclose : ∀ cs, (k (cs ++ close)).isSome = (k cs).isSome) (hg : Local lax g)
    (hh : Local lax h) :
    Local lax fun cs => match k cs with
      | some b => g b
      | none => h cs where
  suffix cs a ha := by
    cases hcs : k cs with
    | none =>
      rw [hcs] at ha
      exact hh.suffix cs a ha
    | some b =>
      rw [hcs] at ha
      exact (hg.suffix b a ha).trans (hk.suffix cs b hcs)
  alike cs := by
    have hbind := (Local.bind hk hg).alike cs
    have hclose : (k (extend cs close)).isSome = (k cs).isSome := hclose cs
    cases hcs : k cs with
    | none =>
      rw [hcs, Option.isSome_none, Option.isSome_eq_false_iff, Option.isNone_iff_eq_none] at hclose
      rw [hclose]
      exact hh.alike cs
    | some b =>
      rw [hcs] at hclose
      obtain ⟨b', hcs'⟩ := Option.isSome_iff_exists.mp hclose
      rw [hcs, hcs'] at hbind
      rw [hcs']
      exact hbind

end

end Local

theorem skipVerbose_suffix (inComment : Bool) (cs : List Char) :
    Flags.skipVerbose inComment cs <:+ cs := by
  induction cs generalizing inComment with
  | nil => exact List.suffix_rfl
  | cons c cs ih =>
    rw [Flags.skipVerbose]
    split
    · exact (ih _).trans (List.suffix_cons c cs)
    · split
      · exact (ih _).trans (List.suffix_cons c cs)
      · split
        · exact (ih _).trans (List.suffix_cons c cs)
        · exact List.suffix_rfl

theorem skip_suffix (f : Flags) (cs : List Char) : f.skip cs <:+ cs := by
  rw [Flags.skip]
  split
  · exact skipVerbose_suffix false cs
  · exact List.suffix_rfl

/-- The end of the group counts, unless it is in a comment. -/
theorem skipVerbose_close (inComment : Bool) (cs : List Char) :
    Flags.skipVerbose inComment (cs ++ close) = Flags.skipVerbose inComment cs ++ close ∨
      ((inComment = true ∨ '#' ∈ cs) ∧ Flags.skipVerbose inComment cs = [] ∧
        Flags.skipVerbose inComment (cs ++ close) = []) := by
  induction cs generalizing inComment with
  | nil =>
    cases inComment with
    | true => exact .inr ⟨.inl rfl, rfl, rfl⟩
    | false => exact .inl rfl
  | cons c cs ih =>
    simp only [List.cons_append, Flags.skipVerbose]
    split
    · next hcomment =>
      rcases ih (c != '\n') with h | ⟨-, h⟩
      · exact .inl h
      · exact .inr ⟨.inl hcomment, h⟩
    · split
      · rcases ih false with h | ⟨hcomment, h⟩
        · exact .inl h
        · exact .inr ⟨.inr (List.mem_cons_of_mem c (hcomment.resolve_left Bool.false_ne_true)), h⟩
      · split
        · next hhash =>
          rcases ih true with h | ⟨-, h⟩
          · exact .inl h
          · exact .inr ⟨.inr ((beq_iff_eq.mp hhash) ▸ List.mem_cons_self), h⟩
        · exact .inl rfl

theorem skip_close (f : Flags) (cs : List Char) : f.skip (cs ++ close) = f.skip cs ++ close ∨
    ('#' ∈ cs ∧ f.skip cs = [] ∧ f.skip (cs ++ close) = []) := by
  rw [Flags.skip, Flags.skip]
  split
  · rcases skipVerbose_close false cs with h | ⟨hcomment, h⟩
    · exact .inl h
    · exact .inr ⟨hcomment.resolve_left Bool.false_ne_true, h⟩
  · exact .inl rfl

section

variable {lax : Prop} {h : List Char → Option α}

protected theorem Local.skip (f : Flags) (hh : Local lax h) (hnil : lax ∨ h [] = none) :
    Local lax fun cs => h (f.skip cs) where
  suffix cs a ha := (hh.suffix _ a ha).trans (skip_suffix f cs)
  alike cs := by
    rcases skip_close f cs with heq | ⟨hcomment, hend, hover⟩
    · have heq : f.skip (extend cs close) = extend (f.skip cs) close := heq
      rw [heq]
      exact (hh.alike _).weaken fun h => ⟨h.1, (skip_suffix f cs).subset h.2⟩
    · have hover : f.skip (extend cs close) = [] := hover
      rw [hend, hover]
      have hrest (a : α) (ha : h [] = some a) : rest a = [] :=
        List.suffix_nil.mp (hh.suffix [] a ha)
      refine .inr ⟨fun a ha => ⟨⟨?_, hcomment⟩, hrest a ha⟩, fun a ha => hrest a ha
        ▸ List.nil_suffix⟩
      exact hnil.resolve_right fun hnone => Option.some_ne_none a (ha.symm.trans hnone)

/-- A reader that needs a character that counts. -/
protected theorem Local.next (f : Flags) {h : Char → List Char → Option α}
    (hh : ∀ c, Local lax (h c)) :
    Local lax fun cs => match f.skip cs with
      | [] => none
      | c :: cs => h c cs :=
  Local.skip f (Local.cons hh) (.inr rfl)

end

end WideColumn.Pattern.Reader
