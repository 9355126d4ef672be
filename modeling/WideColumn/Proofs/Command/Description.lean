import WideColumn.Proofs.Command.Grammar
import WideColumn.Proofs.Command.Line
import WideColumn.Proofs.Command.Quotation
import WideColumn.Proofs.Schema.Options

/-! # Descriptions of families read back

A description puts the name of a family and the texts of its options between quotes as they are. The
options read back whatever they are. The name reads back if it is plain, and otherwise no family of
that name is read. -/
namespace WideColumn
open WideColumn.Schema WideColumn.Text

/-- The families that a text lists, each with its name apart from its other properties, as for a new
table. -/
def readFamilies (text : String) : Except Fault (List Family) := do
  (← Argument.ofString text).mapM fun a => do
    let spec ← Command.familySpec a
    Family.ofProperties spec.name spec.properties

variable {f : Family} {o : Options} {batch : Properties} {cs content : List Char} {ts : List Token}
  {fs : List Family}

private theorem clean_of_all (h : (cs.all fun c => c != '\'' && c != '\\') = true) :
    ∀ c ∈ cs, c ≠ '\'' ∧ c ≠ '\\' := by
  simpa using h

/-- Neither a quote nor a backslash is in the text of an option. -/
theorem clean_get (o : Options) (p : Property) : ∀ c ∈ (o.get p).toList, c ≠ '\'' ∧ c ≠ '\\' := by
  have hdigits : ∀ n, ∀ c ∈ Numeral.write n, c ≠ '\'' ∧ c ≠ '\\' := by
    intro n c hc
    constructor <;> (rintro rfl; exact absurd (Numeral.isDigit_of_mem_write hc) (by decide))
  have hflags : ∀ b, ∀ c ∈ (flagLabel b).toList, c ≠ '\'' ∧ c ≠ '\\' := fun b =>
    clean_of_all (by cases b <;> decide)
  cases p with
  | dataBlockEncoding =>
    rw [Options.get]
    exact clean_of_all (by cases o.dataBlockEncoding <;> decide)
  | bloomFilter =>
    rw [Options.get]
    exact clean_of_all (by cases o.bloomFilter <;> decide)
  | compression =>
    rw [Options.get]
    exact clean_of_all (by cases o.compression <;> decide)
  | ttl =>
    rw [Options.get]
    cases o.ttl with
    | forever => exact clean_of_all (by decide)
    | seconds n =>
      rw [Ttl.label, String.toList_ofList]
      exact List.forall_mem_append.mpr ⟨hdigits _, clean_of_all (by decide)⟩
  | keepDeletedCells =>
    rw [Options.get]
    exact clean_of_all (by cases o.keepDeletedCells <;> decide)
  | inMemory | blockCache => exact hflags _
  | _ =>
    rw [Options.get, String.toList_ofList]
    exact hdigits _

namespace Wording

def bareKeys (batch : Properties) : List (Literal × Literal) :=
  batch.map fun p => (.bare p.1, .quoted p.2)

theorem texts_bareKeys (batch : Properties) :
    (bareKeys batch).map (fun p => (p.1.text, p.2.text)) = batch := by
  rw [bareKeys, List.map_map]
  exact List.map_id' batch

end Wording

theorem Token.escape_eq_self (h : ∀ c ∈ cs, c ≠ '\'' ∧ c ≠ '\\') : Token.escape cs = cs := by
  induction cs with
  | nil => rfl
  | cons c cs ih =>
    obtain ⟨hc, hcs⟩ := List.forall_mem_cons.mp h
    rw [Token.escape, List.flatMap_cons, ← Token.escape, ih hcs, if_neg (by simp [hc])]
    rfl

private theorem spaced_pair (key : String) {value : String}
    (h : ∀ c ∈ value.toList, c ≠ '\'' ∧ c ≠ '\\') :
    (Token.word key).spaced ++ (Token.arrow.spaced ++ (Token.string value).spaced) =
      (Family.describePair key value).toList := by
  simp [Token.spaced, Token.write, Token.quoted, Token.escape_eq_self h, Family.describePair,
    Token.shown]

/-- Where nothing has to be escaped, a description is written as a map is. -/
theorem flatMap_spaced_bareKeys (h : ∀ p ∈ batch, ∀ c ∈ p.2.toList, c ≠ '\'' ∧ c ≠ '\\') :
    (Wording.pairTokens (Wording.bareKeys batch)).flatMap Token.spaced =
      ", ".toList.intercalate (batch.map fun p => (Family.describePair p.1 p.2).toList) := by
  induction batch with
  | nil => rfl
  | cons p batch ih =>
    obtain ⟨hp, hbatch⟩ := List.forall_mem_cons.mp h
    have hpair := spaced_pair p.1 hp
    cases batch with
    | nil =>
      rw [List.map_singleton, List.intercalate_singleton, ← hpair]
      simp [Wording.bareKeys, Wording.pairTokens, Literal.token]
    | cons q batch =>
      have hrest := ih hbatch
      rw [List.map_cons] at hrest
      rw [List.map_cons, List.map_cons, List.intercalate_cons_cons, ← hrest, ← hpair]
      simp [Wording.bareKeys, Wording.pairTokens, Literal.token, Token.spaced, Token.write,
        Token.shown]

def afterName (o : Options) : List Char :=
  Token.comma.spaced ++ ((Wording.pairTokens (Wording.bareKeys o.described)).flatMap Token.spaced ++
    Token.rightBrace.spaced)

theorem toList_describe (f : Family) : f.describe.toList =
    Token.leftBrace.spaced ++ ((Token.word nameKey).spaced ++ (Token.arrow.spaced ++
      '\'' :: (f.name.toList ++ '\'' :: afterName f.options))) := by
  have hclean : ∀ p ∈ f.options.described, ∀ c ∈ p.2.toList, c ≠ '\'' ∧ c ≠ '\\' :=
    List.forall_mem_map.mpr fun p _ => clean_get f.options p
  have hne : (f.options.described.map fun p => (Family.describePair p.1 p.2).toList) ≠ [] := by
    simp [Options.described, Property.all]
  have hpairs : (Property.all.map fun p => Family.describePair p.label (f.options.get p)).map
    String.toList = f.options.described.map fun p => (Family.describePair p.1 p.2).toList := by
    rw [Options.described, List.map_map, List.map_map]
    rfl
  rw [Family.describe, String.toList_append, String.toList_append, String.toList_intercalate,
    List.map_cons, hpairs, List.intercalate_cons_of_ne_nil hne, ← flatMap_spaced_bareKeys hclean]
  simp [afterName, Family.describePair, Token.spaced, Token.write, Token.shown]

def tokensAfterName (o : Options) : List Token :=
  .comma :: (Wording.pairTokens (Wording.bareKeys o.described) ++ [.rightBrace])

theorem described_ne_nil (o : Options) : Wording.bareKeys o.described ≠ [] := by
  simp [Wording.bareKeys, Options.described, Property.all]

theorem ofChars_afterName (o : Options) :
    Token.ofChars (afterName o) = .ok (tokensAfterName o) := by
  have hlabel : ∀ p ∈ Property.all, p.label.toList ≠ [] ∧
    p.label.toList.all Token.isBare = true := by decide +kernel
  have hlegible : ∀ p ∈ Wording.bareKeys o.described, p.1.Legible ∧ p.2.Legible := by
    refine List.forall_mem_map.mpr (List.forall_mem_map.mpr fun p hp => ⟨?_, trivial⟩)
    exact ⟨(hlabel p hp).1, List.all_eq_true.mp (hlabel p hp).2⟩
  have hbrace : Token.Written [.rightBrace] (Token.rightBrace.spaced ++ []) := .rightBrace .nil
  rw [List.append_nil] at hbrace
  have hstops : Token.Stops Token.rightBrace.spaced := .cons (by decide +kernel)
  exact (Token.Written.comma (Wording.written_pairTokens hlegible hstops hbrace)).ofChars_eq

theorem ofChars_front (cs : List Char) :
    Token.ofChars (Token.leftBrace.spaced ++
      ((Token.word nameKey).spaced ++ (Token.arrow.spaced ++ cs))) =
      (fun ts => .leftBrace :: .word nameKey :: .arrow :: ts) <$> Token.ofChars cs := by
  have hbare : ∀ c ∈ nameKey.toList, Token.isBare c = true :=
    List.all_eq_true.mp (by decide +kernel)
  have hstops : Token.Stops (Token.arrow.spaced ++ cs) := .cons (by decide +kernel)
  have hblank : isBlank ' ' = true := by decide
  have hspaced : Token.arrow.spaced ++ cs = ' ' :: (Token.arrow.write ++ ' ' :: cs) := rfl
  have hword : (Token.word nameKey).spaced = nameKey.toList := rfl
  have hbrace : Token.leftBrace.spaced = Token.leftBrace.write := rfl
  rw [hbrace, hword, Token.ofChars_write (t := .leftBrace) nofun,
    Token.ofChars_word (by decide) hbare hstops, hspaced, Token.ofChars_blank hblank,
    Token.ofChars_write (t := .arrow) nofun, Token.ofChars_blank hblank,
    String.ofList_toList]
  cases Token.ofChars cs <;> rfl

/-- If the string of the name ends at its second quote, one family is read. -/
theorem readFamilies_describe (h : f.options.Lawful)
    (hread : ∀ rest, Token.unquote (f.name.toList ++ '\'' :: rest) = some (content, rest)) :
    readFamilies f.describe = .ok [⟨.ofList content, f.options⟩] := by
  have htokens : Token.ofChars f.describe.toList =
      .ok (.leftBrace :: .word nameKey :: .arrow :: .string (.ofList content) ::
          tokensAfterName f.options) := by
    rw [toList_describe, ofChars_front, Token.ofChars_quote (hread _), ofChars_afterName]
    rfl
  have hpairs := Wording.pairs_pairTokens (described_ne_nil f.options)
  rw [Wording.texts_bareKeys] at hpairs
  have hderives : Argument.Derives _ [.map ((nameKey, .ofList content) :: f.options.described)] :=
    .some (.one (.map (.more (k := .word nameKey) (v := .string (.ofList content)) rfl rfl hpairs)))
  have hkeys : ∀ p ∈ f.options.described, Command.isKey p.1 nameKey = false := by
    have hall : ∀ p ∈ Property.all, Command.isKey p.label nameKey = false := by decide +kernel
    exact List.forall_mem_map.mpr hall
  have hspec := Command.familySpec_cons (.ofList content) hkeys
  have hargs : Argument.ofString f.describe =
      .ok [.map ((nameKey, .ofList content) :: f.options.described)] := by
    rw [Argument.ofString, Token.ofString, htokens]
    exact hderives.read
  rw [readFamilies, hargs, ok_bind, List.mapM_cons, hspec, ok_bind, Family.ofProperties,
    Options.ofProperties_described h]
  rfl

theorem Argument.Pairs.exists_token {ps : Properties} (h : Argument.Pairs ts ps) :
    ∀ p ∈ ps, ∃ t ∈ ts, t.text? = some p.2 := by
  induction h with
  | one hk hv => exact List.forall_mem_singleton.mpr ⟨_, by simp, hv⟩
  | more hk hv _ ih =>
    refine List.forall_mem_cons.mpr ⟨⟨_, by simp, hv⟩, fun p hp => ?_⟩
    obtain ⟨t, ht, hp⟩ := ih p hp
    exact ⟨t, by simp [ht], hp⟩

/-- The name of a family is one of the tokens. -/
theorem Argument.Spells.exists_token {a : Argument} {spec : FamilySpec} (h : Argument.Spells ts a)
    (hspec : Command.familySpec a = .ok spec) : ∃ t ∈ ts, t.text? = some spec.name := by
  cases h with
  | string content =>
    cases hspec
    exact ⟨_, List.mem_singleton_self _, rfl⟩
  | empty => cases hspec
  | @map ts ps h =>
    rw [Command.familySpec] at hspec
    split at hspec
    · next key name hlast =>
      cases hspec
      obtain ⟨t, ht, htext⟩ := h.exists_token _ (List.mem_filter.mp (List.mem_of_getLast? hlast)).1
      exact ⟨t, by simp [ht], htext⟩
    · cases hspec

theorem Argument.Lists.exists_spells {args : List Argument} (h : Argument.Lists ts args) :
    ∀ a ∈ args, ∃ us, us ⊆ ts ∧ Argument.Spells us a := by
  induction h with
  | one h => exact List.forall_mem_singleton.mpr ⟨_, List.Subset.refl _, h⟩
  | more h _ ih =>
    refine List.forall_mem_cons.mpr ⟨⟨_, List.subset_append_left _ _, h⟩, fun a ha => ?_⟩
    obtain ⟨us, hus, h⟩ := ih a ha
    exact ⟨us, fun t ht => by simp [hus ht], h⟩

theorem exists_token_of_readFamilies {text : String} (hread : readFamilies text = .ok fs)
    (hf : f ∈ fs) :
    ∃ ts, Token.ofString text = .ok ts ∧ ∃ t ∈ ts, t.text? = some f.name := by
  obtain ⟨args, hargs, hfs⟩ := bind_eq_ok.mp hread
  obtain ⟨ts, hts, hderives⟩ := (Argument.gives_ofString text).of_eq_ok hargs
  obtain ⟨a, ha, hfamily⟩ := exists_of_mapM_eq_ok hfs hf
  obtain ⟨spec, hspec, hfamily⟩ := bind_eq_ok.mp hfamily
  obtain ⟨options, -, hfamily⟩ := bind_eq_ok.mp hfamily
  cases hfamily
  refine ⟨ts, hts, ?_⟩
  cases hderives with
  | none => cases ha
  | some h =>
    obtain ⟨us, hus, hspells⟩ := h.exists_spells a ha
    obtain ⟨t, ht, htext⟩ := hspells.exists_token hspec
    exact ⟨t, hus ht, htext⟩

theorem Wording.mem_pairTokens {pairs : List (Literal × Literal)} {t : Token}
    (h : t ∈ pairTokens pairs) :
    t = .arrow ∨ t = .comma ∨ ∃ p ∈ pairs, t = p.1.token ∨ t = p.2.token := by
  fun_induction pairTokens pairs with
  | case1 => cases h
  | case2 key value =>
    simp only [List.mem_cons, List.not_mem_nil, or_false] at h
    rcases h with h | h | h
    · exact .inr (.inr ⟨_, List.mem_cons_self, .inl h⟩)
    · exact .inl h
    · exact .inr (.inr ⟨_, List.mem_cons_self, .inr h⟩)
  | case3 key value next rest ih =>
    simp only [List.mem_cons] at h
    rcases h with h | h | h | h | h
    · exact .inr (.inr ⟨_, List.mem_cons_self, .inl h⟩)
    · exact .inl h
    · exact .inr (.inr ⟨_, List.mem_cons_self, .inr h⟩)
    · exact .inr (.inl h)
    · refine (ih h).imp_right fun h => h.imp_right fun h => ?_
      obtain ⟨p, hp, h⟩ := h
      exact ⟨p, List.mem_cons_of_mem _ hp, h⟩

theorem not_mem_afterName (o : Options) : '\\' ∉ afterName o := by
  have hmarks : ∀ t ∈ [Token.comma, Token.arrow, Token.rightBrace], '\\' ∉ t.spaced := by decide
  have hlabels : ∀ p ∈ Property.all, '\\' ∉ p.label.toList := by decide
  intro h
  rcases List.mem_append.mp h with h | h
  · exact hmarks _ (by simp) h
  rcases List.mem_append.mp h with h | h
  · obtain ⟨t, ht, h⟩ := List.mem_flatMap.mp h
    rcases Wording.mem_pairTokens ht with rfl | rfl | ⟨pair, hpair, ht⟩
    · exact hmarks _ (by simp) h
    · exact hmarks _ (by simp) h
    · obtain ⟨property, hproperty, rfl⟩ := List.mem_map.mp hpair
      obtain ⟨p, hp, rfl⟩ := List.mem_map.mp hproperty
      rcases ht with rfl | rfl
      · exact hlabels p hp h
      · have hclean := clean_get o p
        simp only [Literal.token, Token.spaced, Token.write, Token.quoted,
          Token.escape_eq_self hclean] at h
        simp only [List.mem_cons, List.mem_append, List.not_mem_nil, or_false] at h
        rcases h with (h | h) | h
        · cases h
        · exact (hclean _ h).2 rfl
        · cases h
  · exact hmarks _ (by simp) h

/-- Where the name of a family that is read from a description comes from. -/
theorem exists_string_of_describe (hread : readFamilies f.describe = .ok fs) {g : Family}
    (hg : g ∈ fs) :
    ∃ content after us, Token.unquote (f.name.toList ++ '\'' :: afterName f.options) =
      some (content, after) ∧
      Token.Cuts after us ∧
      (g.name = nameKey ∨ g.name = .ofList content ∨ ∃ t ∈ us, t.text? = some g.name) := by
  obtain ⟨ts, hts, t, ht, htext⟩ := exists_token_of_readFamilies hread hg
  rw [Token.ofString, toList_describe, ofChars_front] at hts
  obtain ⟨us, hus, rfl⟩ := map_eq_ok.mp hts
  obtain ⟨content, after, us, hunquote, hafter, rfl⟩ := (Token.cuts_of_ofChars hus).string_of_quote
  refine ⟨content, after, us, hunquote, hafter, ?_⟩
  simp only [List.mem_cons] at ht
  rcases ht with rfl | rfl | rfl | rfl | ht
  · cases htext
  · exact .inl (Option.some.inj htext).symm
  · cases htext
  · exact .inr (.inl (Option.some.inj htext).symm)
  · exact .inr (.inr ⟨t, ht, htext⟩)

/-- No family of a name that is not plain is read from its description. -/
theorem not_mem_of_readFamilies (hplain : ¬Token.Plain f.name.toList) (h : f.options.Lawful)
    (hread : readFamilies f.describe = .ok fs) {g : Family} (hg : g ∈ fs) : g.name ≠ f.name := by
  intro hname
  have htail := ofChars_afterName f.options
  have hslash := not_mem_afterName f.options
  obtain ⟨content', after', us, hunquote, hafter, hfrom⟩ := exists_string_of_describe hread hg
  rw [hname] at hfrom
  cases Token.closing f.name.toList with
  | plain hname => exact hplain hname
  | shorter content _ hlength hclose =>
    rw [readFamilies_describe h hclose] at hread
    cases hread
    rw [← hname, List.mem_singleton.mp hg, String.toList_ofList] at hlength
    exact absurd hlength (Nat.lt_irrefl _)
  | beyond content _ hclose =>
    rw [hclose] at hunquote
    obtain ⟨r, hr, hunquote⟩ := Option.map_eq_some_iff.mp hunquote
    cases hunquote
    exact Token.not_cuts_of_unquote hslash htail hr hafter
  | within content after hquote hlength hclose =>
    rw [hclose] at hunquote
    cases hunquote
    rcases hfrom with heq | heq | ⟨t, ht, htext⟩
    · rw [heq] at hquote
      exact absurd hquote (by decide)
    · rw [heq, String.toList_ofList] at hlength
      omega
    · rcases Token.Cuts.length_le hslash htail hafter t ht with ht | hle
      · exact ((Token.cuts_of_ofChars htail).quotes hslash).2 t ht _ htext hquote
      · have hle := hle _ htext
        omega

/-- However the options of a family came about, its description reads back as this family alone
exactly if its name is plain: it has no quote and no two backslashes side by side and does not end
in a backslash. If it is not, then no family of this name is read, be it alone or among others. -/
theorem readFamilies_describe_iff (f : Family) (h : f.options.Reachable) :
    (readFamilies f.describe = .ok [f] ↔
        '\'' ∉ f.name.toList ∧ ¬['\\', '\\'] <:+: f.name.toList ∧
        f.name.toList.getLast? ≠ some '\\') ∧
      ∀ fs, readFamilies f.describe = .ok fs → (∃ g ∈ fs, g.name = f.name) → fs = [f] := by
  have hread : Token.Plain f.name.toList → readFamilies f.describe = .ok [f] := by
    intro hplain
    have hname := readFamilies_describe h.lawful hplain.unquote_append
    rwa [String.ofList_toList] at hname
  refine ⟨⟨fun heq => ?_, fun hname => hread ⟨hname.1, hname.2.1, hname.2.2⟩⟩,
    fun fs hfs hname => ?_⟩
  · by_contra hname
    have hplain : ¬Token.Plain f.name.toList :=
      fun hplain => hname ⟨hplain.noQuote, hplain.noPair, hplain.noLast⟩
    exact not_mem_of_readFamilies hplain h.lawful heq List.mem_cons_self rfl
  · obtain ⟨g, hg, hname⟩ := hname
    have hplain : Token.Plain f.name.toList := by
      by_contra hplain
      exact not_mem_of_readFamilies hplain h.lawful hfs hg hname
    cases hfs.symm.trans (hread hplain)
    rfl

def unusual : Options :=
  { ttl := .seconds 60, keepDeletedCells := true, versions := 3, compression := .lz4 }

theorem readFamilies_describe_unusual : unusual.Reachable ∧
    readFamilies (Family.describe ⟨"it\\is", unusual⟩) = .ok [⟨"it\\is", unusual⟩] ∧
    readFamilies (Family.describe ⟨"it's", unusual⟩) ≠ .ok [⟨"it's", unusual⟩] := by
  have h : unusual.Reachable := Options.reachable_iff_lawful.mpr ⟨by decide, by decide⟩
  refine ⟨h, (readFamilies_describe_iff ⟨"it\\is", unusual⟩ h).1.mpr (by decide), fun heq => ?_⟩
  exact absurd ((readFamilies_describe_iff ⟨"it's", unusual⟩ h).1.mp heq) (by decide)

end WideColumn
