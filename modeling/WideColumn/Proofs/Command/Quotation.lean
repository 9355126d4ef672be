import WideColumn.Proofs.Command.Token

/-! # Quotes that come to stand in a text unescaped

A text that is put between quotes as it is need not end at the second of them: a quote in the text
ends it sooner, and a backslash at its end takes the second quote with it, so that it goes on in
what follows. If what follows has no backslash, its quotes come in pairs, and then only one place is
left for the string to end. -/
namespace WideColumn.Token
open WideColumn.Text

variable {c : Char} {cs rest content after : List Char} {ts : List Token}

/-- Between quotes the text reads as itself: it has no quote and no two backslashes side by side,
and no backslash at its end. -/
structure Plain (cs : List Char) : Prop where
  noQuote : '\'' ∉ cs
  noPair : ¬['\\', '\\'] <:+: cs
  noLast : cs.getLast? ≠ some '\\'

/-- How a text between two quotes is read: to a quote in it, to the second quote either as it is or
with less characters, or past the second quote. -/
inductive Closing (cs : List Char) : Prop where
  | within (content after : List Char) (hquote : '\'' ∈ cs)
    (hlength : content.length + after.length < cs.length)
      (h : ∀ rest, unquote (cs ++ '\'' :: rest) = some (content, after ++ '\'' :: rest))
  | plain (hplain : Plain cs) (h : ∀ rest, unquote (cs ++ '\'' :: rest) = some (cs, rest))
  | shorter (content : List Char) (hplain : ¬Plain cs) (hlength : content.length < cs.length)
      (h : ∀ rest, unquote (cs ++ '\'' :: rest) = some (content, rest))
  | beyond (content : List Char) (hlast : cs.getLast? = some '\\')
      (h : ∀ rest, unquote (cs ++ '\'' :: rest) = (unquote rest).map fun r =>
        (content ++ '\'' :: r.1, r.2))

theorem Plain.tail (h : Plain (c :: cs)) : Plain cs where
  noQuote hmem := h.noQuote (List.mem_cons_of_mem c hmem)
  noPair hpair := h.noPair (hpair.trans (List.suffix_cons c cs).isInfix)
  noLast hlast := h.noLast (by rw [List.getLast?_cons, hlast, Option.getD_some])

theorem Plain.cons (h : Plain cs) (hquote : c ≠ '\'')
    (hslash : c = '\\' → ∃ d ds, cs = d :: ds ∧ d ≠ '\\') :
    Plain (c :: cs) where
  noQuote hmem := by
    rcases List.mem_cons.mp hmem with heq | hmem
    · exact hquote heq.symm
    · exact h.noQuote hmem
  noPair hpair := by
    rcases List.infix_cons_iff.mp hpair with hprefix | hpair
    · obtain ⟨heq, hprefix⟩ := List.cons_prefix_cons.mp hprefix
      obtain ⟨d, ds, rfl, hd⟩ := hslash heq.symm
      exact hd (List.cons_prefix_cons.mp hprefix).1.symm
    · exact h.noPair hpair
  noLast hlast := by
    cases cs with
    | nil =>
      obtain ⟨d, ds, hcs, -⟩ := hslash (Option.some.inj hlast)
      cases hcs
    | cons d ds => exact h.noLast (by simpa [List.getLast?_cons] using hlast)

namespace Closing

theorem cons (h : Closing cs) (hplain : Plain cs → Plain (c :: cs))
    (hstep : ∀ rest, unquote (c :: (cs ++ '\'' :: rest)) =
      (unquote (cs ++ '\'' :: rest)).map fun r => (c :: r.1, r.2)) : Closing (c :: cs) := by
  cases h with
  | within content after hquote hlength h =>
    refine .within (c :: content) after (List.mem_cons_of_mem c hquote) ?_ fun rest => ?_
    · simp only [List.length_cons]
      omega
    · rw [List.cons_append, hstep, h, Option.map_some]
  | plain hcs h =>
    refine .plain (hplain hcs) fun rest => ?_
    rw [List.cons_append, hstep, h, Option.map_some]
  | shorter content hcs hlength h =>
    refine .shorter (c :: content) (fun hcs' => hcs hcs'.tail) ?_ fun rest => ?_
    · simp only [List.length_cons]
      omega
    · rw [List.cons_append, hstep, h, Option.map_some]
  | beyond content hlast h =>
    refine .beyond (c :: content) (by rw [List.getLast?_cons, hlast, Option.getD_some])
      fun rest => ?_
    rw [List.cons_append, hstep, h, Option.map_map]
    rfl

/-- One more character behind a backslash, which is taken for the two of them. -/
theorem escape (h : Closing cs) (hc : c = '\'' ∨ c = '\\') : Closing ('\\' :: c :: cs) := by
  have hplain : ¬Plain ('\\' :: c :: cs) := by
    intro hplain
    rcases hc with rfl | rfl
    · exact hplain.noQuote (by simp)
    · exact hplain.noPair (List.prefix_append _ cs).isInfix
  have hstep : ∀ rest, unquote ('\\' :: c :: (cs ++ '\'' :: rest)) =
      (unquote (cs ++ '\'' :: rest)).map fun r => (c :: r.1, r.2) := by
    intro rest
    rw [unquote, if_pos (by simpa using hc)]
  cases h with
  | within content after hquote hlength h =>
    refine .within (c :: content) after (by simp [hquote]) ?_ fun rest => ?_
    · simp only [List.length_cons]
      omega
    · rw [List.cons_append, List.cons_append, hstep, h, Option.map_some]
  | plain _ h =>
    refine .shorter (c :: cs) hplain (by simp) fun rest => ?_
    rw [List.cons_append, List.cons_append, hstep, h, Option.map_some]
  | shorter content _ hlength h =>
    refine .shorter (c :: content) hplain ?_ fun rest => ?_
    · simp only [List.length_cons]
      omega
    · rw [List.cons_append, List.cons_append, hstep, h, Option.map_some]
  | beyond content hlast h =>
    refine .beyond (c :: content) (by simp [List.getLast?_cons, hlast]) fun rest => ?_
    rw [List.cons_append, List.cons_append, hstep, h, Option.map_map]
    rfl

end Closing

/-- Every text ends in one of these ways, told from the text alone. -/
theorem closing (cs : List Char) : Closing cs := by
  fun_induction unquote cs with
  | case1 => exact .plain ⟨by simp, by simp, by simp⟩ fun rest => rfl
  | case2 c rest hc ih => exact ih.escape (by simpa using hc)
  | case3 c rest hc ih =>
    simp only [Bool.or_eq_true, beq_iff_eq, not_or] at hc
    refine ih.cons (fun h => h.cons (by decide) fun _ => ⟨c, rest, rfl, hc.2⟩) fun after => ?_
    rw [List.cons_append, unquote, if_neg (by simp [hc])]
  | case4 c rest hslash hc =>
    rw [beq_iff_eq.mp hc]
    exact .within [] rest List.mem_cons_self (by simp) fun after => rfl
  | case5 c rest hslash hc ih =>
    by_cases hlast : c = '\\'
    · -- nothing comes after a backslash here
      cases rest with
      | cons d ds => exact absurd rfl (hslash d ds hlast)
      | nil =>
        rw [hlast]
        exact .beyond [] rfl fun after => rfl
    · refine ih.cons (fun h => h.cons (by simpa using hc) fun heq => absurd heq hlast)
        fun after => ?_
      rw [unquote, if_neg hc]
      exact fun d ds hd => absurd hd hlast

/-- A plain text ends at the second quote as it is. -/
theorem Plain.unquote_append (h : Plain cs) (rest : List Char) :
    unquote (cs ++ '\'' :: rest) = some (cs, rest) := by
  cases closing cs with
  | within content after hquote => exact absurd hquote h.noQuote
  | plain _ hread => exact hread rest
  | shorter content hplain => exact absurd h hplain
  | beyond content hlast => exact absurd hlast h.noLast

/-- `Cuts cs ts`: the text `cs` is cut into the tokens `ts`, one after the other. -/
inductive Cuts : List Char → List Token → Prop where
  | nil : Cuts [] []
  | blank {c : Char} {cs : List Char} {ts : List Token} (hc : isBlank c = true) (h : Cuts cs ts) :
    Cuts (c :: cs) ts
  | mark {t : Token} {cs : List Char} {ts : List Token}
    (ht : t ∈ [comma, leftBrace, rightBrace, arrow])
      (h : Cuts cs ts) : Cuts (t.write ++ cs) (t :: ts)
  | string {cs content after : List Char} {ts : List Token}
    (hread : unquote cs = some (content, after))
      (h : Cuts after ts) : Cuts ('\'' :: cs) (.string (.ofList content) :: ts)
  | word {c : Char} {cs : List Char} {ts : List Token} (hc : isBare c = true)
      (h : Cuts (cs.dropWhile isBare) ts) :
      Cuts (c :: cs) (.word (.ofList (c :: cs.takeWhile isBare)) :: ts)

theorem cuts_of_ofChars (h : ofChars cs = .ok ts) : Cuts cs ts := by
  fun_induction ofChars cs generalizing ts with
  | case1 =>
    cases h
    exact .nil
  | case2 c rest hc ih => exact .blank hc (ih h)
  | case3 c rest hblank hc ih =>
    obtain ⟨ts, hts, h⟩ := bind_eq_ok.mp h
    cases h
    rw [beq_iff_eq.mp hc]
    exact .mark (t := comma) (by simp) (ih hts)
  | case4 c rest hblank _ hc ih =>
    obtain ⟨ts, hts, h⟩ := bind_eq_ok.mp h
    cases h
    rw [beq_iff_eq.mp hc]
    exact .mark (t := leftBrace) (by simp) (ih hts)
  | case5 c rest hblank _ _ hc ih =>
    obtain ⟨ts, hts, h⟩ := bind_eq_ok.mp h
    cases h
    rw [beq_iff_eq.mp hc]
    exact .mark (t := rightBrace) (by simp) (ih hts)
  | case6 c hblank _ _ _ hc rest ih =>
    obtain ⟨ts, hts, h⟩ := bind_eq_ok.mp h
    cases h
    rw [beq_iff_eq.mp hc]
    exact .mark (t := arrow) (by simp) (ih hts)
  | case7 | case8 | case11 => cases h
  | case9 c rest hblank _ _ _ _ hc content after hread hlength ih =>
    obtain ⟨ts, hts, h⟩ := bind_eq_ok.mp h
    cases h
    rw [beq_iff_eq.mp hc]
    exact .string hread (ih hts)
  | case10 c rest hblank _ _ _ _ _ hc hlength ih =>
    obtain ⟨ts, hts, h⟩ := bind_eq_ok.mp h
    cases h
    exact .word hc (ih hts)

theorem Cuts.string_of_quote (h : Cuts ('\'' :: cs) ts) : ∃ content after us,
    unquote cs = some (content, after) ∧ Cuts after us ∧ ts = .string (.ofList content) :: us := by
  generalize htext : '\'' :: cs = text at h
  cases h with
  | nil => cases htext
  | blank hc _ =>
    cases htext
    exact absurd hc (by decide)
  | @mark t text ts ht _ =>
    have hall : ∀ t ∈ [comma, leftBrace, rightBrace, arrow], ∃ c ds, t.write = c :: ds ∧
        c ≠ '\'' := by
      simp [write, shown]
    obtain ⟨c, ds, hwrite, hc⟩ := hall t ht
    rw [hwrite] at htext
    exact absurd (List.cons.inj htext).1.symm hc
  | string hread h =>
    cases htext
    exact ⟨_, _, _, hread, h, rfl⟩
  | word hc _ =>
    cases htext
    exact absurd hc (by decide +kernel)

theorem Cuts.ofChars_eq (h : Cuts cs ts) : ofChars cs = .ok ts := by
  induction h with
  | nil =>
    rw [ofChars.eq_def]
    rfl
  | blank hc _ ih => rw [ofChars_blank hc, ih]
  | @mark t cs ts ht _ ih =>
    have hword : ∀ spelling, t ≠ .word spelling := by
      rintro spelling rfl
      simp at ht
    rw [ofChars_write hword, ih]
    rfl
  | string hread _ ih =>
    rw [ofChars_quote hread, ih]
    rfl
  | @word c cs ts hc _ ih =>
    have hbare : ∀ d ∈ c :: cs.takeWhile isBare, isBare d = true :=
      List.forall_mem_cons.mpr ⟨hc, fun d hd => List.mem_takeWhile_imp hd⟩
    have hread := ofChars_word (List.cons_ne_nil _ _) hbare
      (eq_false_of_mem_head?_dropWhile (l := cs))
    rw [List.cons_append, List.takeWhile_append_dropWhile, ih] at hread
    exact hread

theorem eq_append_of_unquote (hslash : '\\' ∉ cs) (h : unquote cs = some (content, after)) :
    cs = content ++ '\'' :: after ∧ '\'' ∉ content := by
  fun_induction unquote cs generalizing content with
  | case1 => cases h
  | case2 c rest | case3 c rest => exact absurd List.mem_cons_self hslash
  | case4 c rest _ hc =>
    cases h
    rw [beq_iff_eq.mp hc]
    exact ⟨rfl, List.not_mem_nil⟩
  | case5 c rest _ hc ih =>
    obtain ⟨r, hr, h⟩ := Option.map_eq_some_iff.mp h
    cases h
    obtain ⟨rfl, hquote⟩ := ih (fun hmem => hslash (List.mem_cons_of_mem c hmem)) hr
    refine ⟨rfl, fun hmem => ?_⟩
    rcases List.mem_cons.mp hmem with heq | hmem
    · exact hc (beq_iff_eq.mpr heq.symm)
    · exact hquote hmem

theorem not_mem_quote_of_isBare (h : ∀ d ∈ cs, isBare d = true) : '\'' ∉ cs := by
  intro hmem
  exact absurd (h _ hmem) (by decide +kernel)

/-- Every quote either opens a string or closes it, and none is in a token. -/
theorem Cuts.quotes (h : Cuts cs ts) (hslash : '\\' ∉ cs) :
    cs.count '\'' % 2 = 0 ∧ ∀ t ∈ ts, ∀ s ∈ t.text?, '\'' ∉ s.toList := by
  induction h with
  | nil => exact ⟨rfl, List.forall_mem_nil _⟩
  | @blank c cs ts hc _ ih =>
    have hne : c ≠ '\'' := by
      rintro rfl
      exact absurd hc (by decide)
    rw [List.count_cons_of_ne hne]
    exact ih fun hmem => hslash (List.mem_cons_of_mem c hmem)
  | @mark t cs ts ht _ ih =>
    have hall : ∀ t ∈ [comma, leftBrace, rightBrace, arrow], t.write.count '\'' = 0 ∧
      t.text? = none := by decide
    obtain ⟨hcount, htext⟩ := hall t ht
    obtain ⟨heven, htexts⟩ := ih fun hmem => hslash (List.mem_append_right _ hmem)
    rw [List.count_append, hcount, Nat.zero_add]
    refine ⟨heven, List.forall_mem_cons.mpr ⟨fun s hs => ?_, htexts⟩⟩
    rw [htext] at hs
    cases hs
  | @string cs content after ts hread _ ih =>
    obtain ⟨rfl, hquote⟩ :=
      eq_append_of_unquote (fun hmem => hslash (List.mem_cons_of_mem _ hmem)) hread
    obtain ⟨heven, htexts⟩ := ih fun hmem => hslash (by simp [hmem])
    refine ⟨?_, List.forall_mem_cons.mpr ⟨fun s hs => ?_, htexts⟩⟩
    · rw [List.count_cons_self, List.count_append, List.count_cons_self,
        List.count_eq_zero.mpr hquote]
      omega
    · cases hs
      rwa [String.toList_ofList]
  | @word c cs ts hc _ ih =>
    have hbare : ∀ d ∈ c :: cs.takeWhile isBare, isBare d = true :=
      List.forall_mem_cons.mpr ⟨hc, fun d hd => List.mem_takeWhile_imp hd⟩
    have hquote := not_mem_quote_of_isBare hbare
    obtain ⟨heven, htexts⟩ := ih fun hmem =>
      hslash (List.mem_cons_of_mem c ((List.dropWhile_suffix isBare).mem hmem))
    refine ⟨?_, List.forall_mem_cons.mpr ⟨fun s hs => ?_, htexts⟩⟩
    · have hsplit : c :: cs = (c :: cs.takeWhile isBare) ++ cs.dropWhile isBare := by
        rw [List.cons_append, List.takeWhile_append_dropWhile]
      rw [hsplit, List.count_append, List.count_eq_zero.mpr hquote, Nat.zero_add]
      exact heven
    · cases hs
      rwa [String.toList_ofList]

section

variable {tail : List Token} (hslash : '\\' ∉ rest) (htail : ofChars rest = .ok tail)
include hslash htail

/-- A string that is open where the quotes come in pairs does not end. -/
theorem not_cuts_of_unquote (hread : unquote rest = some (content, after)) : ¬Cuts after ts := by
  intro h
  have hrest := ((cuts_of_ofChars htail).quotes hslash).1
  obtain ⟨rfl, hquote⟩ := eq_append_of_unquote hslash hread
  have hafter := (h.quotes fun hmem => hslash (by simp [hmem])).1
  rw [List.count_append, List.count_cons_self, List.count_eq_zero.mpr hquote] at hrest
  omega

/-- If there is a quote between two texts, then a token is no longer than the first, or it is one of
the second. -/
theorem Cuts.length_le (h : Cuts (cs ++ '\'' :: rest) ts) :
    ∀ t ∈ ts, t ∈ tail ∨ ∀ s ∈ t.text?, s.toList.length ≤ cs.length := by
  generalize htext : cs ++ '\'' :: rest = text at h
  induction h generalizing cs with
  | nil => exact absurd htext (by simp)
  | @blank c text ts hc _ ih =>
    cases cs with
    | nil =>
      cases htext
      exact absurd hc (by decide)
    | cons d cs =>
      rw [List.cons_append, List.cons.injEq] at htext
      obtain ⟨rfl, rfl⟩ := htext
      exact fun t ht => (ih rfl t ht).imp_right fun hle s hs => (hle s hs).trans (Nat.le_succ _)
  | @mark t text ts ht _ ih =>
    have hall : ∀ t ∈ [comma, leftBrace, rightBrace, arrow], '\'' ∉ t.write ∧ t.text? = none := by
      decide
    obtain ⟨hquote, htext?⟩ := hall t ht
    have hfront : ∃ front, cs = t.write ++ front ∧ front ++ '\'' :: rest = text := by
      rcases List.append_eq_append_iff.mp htext with ⟨front, hwrite, hrest⟩ | ⟨front, hcs, hrest⟩
      · cases front with
        | nil => exact ⟨[], by simpa using hwrite.symm, hrest⟩
        | cons c front =>
          cases hrest
          exact absurd (by simp [hwrite]) hquote
      · exact ⟨front, hcs, hrest.symm⟩
    obtain ⟨front, rfl, hfront⟩ := hfront
    refine List.forall_mem_cons.mpr ⟨.inr fun s hs => ?_, fun u hu => ?_⟩
    · rw [htext?] at hs
      cases hs
    · refine (ih hfront u hu).imp_right fun hle s hs => (hle s hs).trans ?_
      rw [List.length_append]
      exact Nat.le_add_left _ _
  | @string text content after ts hread h ih =>
    cases cs with
    | nil =>
      cases htext
      exact absurd h (not_cuts_of_unquote hslash htail hread)
    | cons d cs =>
      rw [List.cons_append, List.cons.injEq] at htext
      obtain ⟨rfl, rfl⟩ := htext
      cases closing cs with
      | within content' front _ hlength hclose =>
        rw [hclose] at hread
        cases hread
        refine List.forall_mem_cons.mpr ⟨.inr fun s hs => ?_, fun t ht => ?_⟩
        · cases hs
          rw [String.toList_ofList, List.length_cons]
          omega
        · refine (ih rfl t ht).imp_right fun hle s hs => (hle s hs).trans ?_
          rw [List.length_cons]
          omega
      | plain _ hclose =>
        rw [hclose] at hread
        cases hread
        cases htail.symm.trans h.ofChars_eq
        refine List.forall_mem_cons.mpr ⟨.inr fun s hs => ?_, fun t ht => .inl ht⟩
        cases hs
        rw [String.toList_ofList]
        exact Nat.le_succ _
      | shorter content' _ hlength hclose =>
        rw [hclose] at hread
        cases hread
        cases htail.symm.trans h.ofChars_eq
        refine List.forall_mem_cons.mpr ⟨.inr fun s hs => ?_, fun t ht => .inl ht⟩
        cases hs
        rw [String.toList_ofList, List.length_cons]
        omega
      | beyond content' _ hclose =>
        rw [hclose] at hread
        obtain ⟨r, hr, hread⟩ := Option.map_eq_some_iff.mp hread
        cases hread
        exact absurd h (not_cuts_of_unquote hslash htail hr)
  | @word c text ts hc _ ih =>
    cases cs with
    | nil =>
      cases htext
      exact absurd hc (by decide +kernel)
    | cons d cs =>
      rw [List.cons_append, List.cons.injEq] at htext
      obtain ⟨rfl, rfl⟩ := htext
      have hquote : isBare '\'' = false := by decide +kernel
      rw [takeWhile_append_cons_of_neg hquote]
      refine List.forall_mem_cons.mpr ⟨.inr fun s hs => ?_, fun t ht => ?_⟩
      · cases hs
        rw [String.toList_ofList]
        exact Nat.succ_le_succ (List.takeWhile_prefix isBare).length_le
      · refine (ih (dropWhile_append_cons_of_neg hquote).symm t ht).imp_right fun hle s hs =>
          (hle s hs).trans ?_
        exact (List.dropWhile_suffix isBare).length_le.trans (Nat.le_succ _)

end

end WideColumn.Token
