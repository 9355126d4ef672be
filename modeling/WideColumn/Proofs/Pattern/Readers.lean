import WideColumn.Proofs.Pattern.Local
import WideColumn.Proofs.Text.Character

/-! # The readers of a pattern do not look ahead

Each reader is put together from steps that do not, so it reads a text alike before the end of the
group. -/
namespace WideColumn.Pattern.Reader
open Rest WideColumn.Text

variable {lax : Prop}

theorem local_upTo {mark : Char} (hmark : mark ≠ ')') : Local lax (upTo mark) := by
  have hsuffix : ∀ cs a, upTo mark cs = some a → rest a <:+ cs := by
    intro cs
    induction cs with
    | nil =>
      intro a ha
      cases ha
    | cons c cs ih =>
      intro a ha
      rw [upTo] at ha
      split at ha
      · cases ha
        exact List.suffix_cons c cs
      · obtain ⟨p, hp, rfl⟩ := Option.map_eq_some_iff.mp ha
        exact (ih p hp).trans (List.suffix_cons c cs)
  refine ⟨hsuffix, fun cs => ?_⟩
  induction cs with
  | nil =>
    refine Alike.none fun a ha => ?_
    have hover : upTo mark close = (upTo mark ['$']).map fun p => (')' :: p.1, p.2) :=
      if_neg (by simpa using hmark.symm)
    obtain ⟨p, hp, rfl⟩ := Option.map_eq_some_iff.mp (hover.symm.trans ha)
    exact hsuffix ['$'] p hp
  | cons c cs ih =>
    show Alike _ (upTo mark (c :: cs)) (upTo mark (c :: extend cs close))
    rw [upTo, upTo]
    split
    · exact .inl ⟨_, rfl, rfl⟩
    · exact (ih.weaken fun h => ⟨h.1, List.mem_cons_of_mem c h.2⟩).map fun _ => ⟨rfl, rfl⟩

theorem local_inBraces (f : Flags) : Local lax (inBraces f) :=
  (local_upTo (by decide)).map fun _ => ⟨rfl, rfl⟩

theorem local_counted (f : Flags) (n : Nat) : Local lax (counted f n) := by
  induction n with
  | zero => exact Local.pure fun _ => ⟨rfl, rfl⟩
  | succ n ih => exact Local.next f fun c => ih.map fun _ => ⟨rfl, rfl⟩

theorem length_of_counted {f : Flags} {n : Nat} {cs : List Char} {p : List Char × List Char}
    (h : counted f n cs = some p) : p.2.length + n ≤ cs.length := by
  induction n generalizing cs p with
  | zero =>
    cases h
    exact Nat.le_refl _
  | succ n ih =>
    rw [counted] at h
    have hskip := (skip_suffix f cs).length_le
    cases hcs : f.skip cs with
    | nil =>
      rw [hcs] at h
      cases h
    | cons c ds =>
      rw [hcs] at h hskip
      obtain ⟨q, hq, rfl⟩ := Option.map_eq_some_iff.mp h
      have hlength := ih hq
      rw [List.length_cons] at hskip
      dsimp only
      omega

theorem local_hexEscape (f : Flags) {width : Nat} (hwidth : 0 < width) :
    Local lax (hexEscape f width) := by
  refine Local.next f fun c => Local.ite ?_ ?_
  · exact (local_inBraces f).bind <| Local.prod fun content =>
      Local.given (hexChar? content) fun d => Local.pure fun _ => ⟨rfl, rfl⟩
  · have hcounted : Local lax fun cs => counted f width (c :: cs) := by
      refine Local.tail (local_counted f width) (fun cs p hp => ?_) c
      have hlength := length_of_counted hp
      exact Nat.lt_of_lt_of_le (Nat.lt_add_of_pos_right hwidth) hlength
    exact hcounted.bind <| Local.prod fun content => Local.given (hexChar? content) fun d =>
      Local.ite Local.none (Local.pure fun _ => ⟨rfl, rfl⟩)

theorem local_propertyEscape (f : Flags) (inverse : Bool) :
    Local lax (propertyEscape f inverse) := by
  refine Local.next f fun c => Local.ite (Local.ite ?_ ?_) Local.none
  · exact (local_inBraces f).bind <| Local.prod fun name =>
      Local.given (Category.find? name) fun s => Local.pure fun _ => ⟨rfl, rfl⟩
  · exact Local.given (Category.find? [c]) fun s => Local.pure fun _ => ⟨rfl, rfl⟩

theorem head?_skip_close {p : Char → Bool} (hp : p ')' = false) (f : Flags) (cs : List Char) :
    (f.skip (cs ++ close)).head?.any p = (f.skip cs).head?.any p := by
  rcases skip_close f cs with h | ⟨-, hend, hover⟩
  · rw [h]
    cases f.skip cs with
    | nil => exact hp
    | cons c ds => rfl
  · rw [hend, hover]

theorem local_boundaryForm (f : Flags) : Local lax (boundaryForm f) := by
  refine (local_inBraces f).bind <| Local.prod fun name =>
    Local.ite (Local.pure fun _ => ⟨rfl, rfl⟩) ?_
  refine Local.ite (Local.pure fun _ => ⟨rfl, rfl⟩) ?_
  refine Local.ite (Local.pure fun _ => ⟨rfl, rfl⟩) ?_
  exact Local.ite (Local.pure fun _ => ⟨rfl, rfl⟩) Local.none

theorem local_boundaryEscape (f : Flags) : Local lax (boundaryEscape f) := by
  refine Local.choice ?_ (fun cs => ?_) (fun c => local_boundaryForm f)
    (Local.pure fun _ => ⟨rfl, rfl⟩)
  · rfl
  · cases cs with
    | nil => rfl
    | cons c cs =>
      show (_ && (f.skip (cs ++ close)).head?.any _) = _
      rw [head?_skip_close rfl]
      rfl

theorem local_escape (f : Flags) : Local lax (escape f) := by
  refine Local.cons fun c => ?_
  refine Local.ite ((local_hexEscape f (by decide)).map fun _ => ⟨rfl, rfl⟩) ?_
  refine Local.ite ((local_hexEscape f (by decide)).map fun _ => ⟨rfl, rfl⟩) ?_
  refine Local.ite ((local_hexEscape f (by decide)).map fun _ => ⟨rfl, rfl⟩) ?_
  refine Local.ite ((local_propertyEscape f false).map fun _ => ⟨rfl, rfl⟩) ?_
  refine Local.ite ((local_propertyEscape f true).map fun _ => ⟨rfl, rfl⟩) ?_
  refine Local.ite ((local_boundaryEscape f).map fun _ => ⟨rfl, rfl⟩) ?_
  exact Local.given (shortEscape f c) fun e => Local.pure fun _ => ⟨rfl, rfl⟩

theorem takeWhile_close {p : Char → Bool} (hp : p ')' = false) (cs : List Char) :
    (cs ++ close).takeWhile p = cs.takeWhile p := by
  induction cs with
  | nil => exact List.takeWhile_cons_of_neg (by simp [hp])
  | cons c cs ih => rw [List.cons_append, List.takeWhile_cons, List.takeWhile_cons, ih]

theorem dropWhile_close {p : Char → Bool} (hp : p ')' = false) (cs : List Char) :
    (cs ++ close).dropWhile p = cs.dropWhile p ++ close := by
  induction cs with
  | nil => exact List.dropWhile_cons_of_neg (by simp [hp])
  | cons c cs ih =>
    rw [List.cons_append, List.dropWhile_cons, List.dropWhile_cons, ih]
    split <;> rfl

theorem trimStart_close (cs : List Char) : trimStart (cs ++ close) = trimStart cs ++ close :=
  dropWhile_close rfl cs

theorem count_eq_some {cs : List Char} {p : Nat × List Char} (h : count cs = some p) :
    p.2 <:+ cs ∧ p.2.length < cs.length := by
  have htrim : trimStart cs <:+ cs := List.dropWhile_suffix _
  have hdrop : (trimStart cs).dropWhile Char.isDigit <:+ trimStart cs := List.dropWhile_suffix _
  obtain ⟨n, hn, rfl⟩ := Option.map_eq_some_iff.mp h
  have hrest : trimStart ((trimStart cs).dropWhile Char.isDigit) <:+ (trimStart cs).dropWhile
      Char.isDigit :=
    List.dropWhile_suffix _
  refine ⟨hrest.trans (hdrop.trans htrim), ?_⟩
  -- there is a digit
  have hdigits : 0 < ((trimStart cs).takeWhile Char.isDigit).length := by
    refine List.length_pos_iff.mpr fun hnil => ?_
    rw [hnil] at hn
    cases hn
  have hlength := congrArg List.length <|
    List.takeWhile_append_dropWhile (p := Char.isDigit) (l := trimStart cs)
  rw [List.length_append] at hlength
  have hle := htrim.length_le
  have hless := hrest.length_le
  dsimp only
  omega

theorem local_count : Local lax count where
  suffix _ _ h := (count_eq_some h).1
  alike cs := by
    have hclose : count (extend cs close) = (count cs).map fun p => extend p close := by
      show count (cs ++ close) = _
      rw [count, count, Option.map_map, trimStart_close, takeWhile_close rfl, dropWhile_close rfl,
        trimStart_close]
      rfl
    rw [hclose]
    cases count cs with
    | none => exact Alike.none fun _ h => (Option.some_ne_none _ h.symm).elim
    | some p => exact .inl ⟨p, rfl, rfl⟩

theorem local_upperBound (f : Flags) (least : Nat) : Local lax (upperBound f least) := by
  refine Local.next f fun c => Local.ite (Local.pure fun _ => ⟨rfl, rfl⟩) ?_
  have hcount : Local lax fun cs => count (c :: cs) :=
    local_count.tail (fun _ _ h => (count_eq_some h).2) c
  refine hcount.bind <| Local.prod fun most => Local.cons fun d => ?_
  exact Local.ite (Local.pure fun _ => ⟨rfl, rfl⟩) Local.none

theorem local_bounds (f : Flags) : Local lax (bounds f) := by
  refine (Local.skip f local_count (.inr rfl)).bind <| Local.prod fun least =>
    Local.cons fun c => ?_
  refine Local.ite (Local.pure fun _ => ⟨rfl, rfl⟩)
    (Local.ite (local_upperBound f least) Local.none)

theorem upTo_close {mark : Char} (hmark : mark ∉ close) (cs : List Char) :
    upTo mark (cs ++ close) = (upTo mark cs).map (extend · close) := by
  induction cs with
  | nil =>
    have hnone (ds : List Char) (hds : mark ∉ ds) : upTo mark ds = none := by
      induction ds with
      | nil => rfl
      | cons d ds ih =>
        obtain ⟨hne, hds⟩ := not_or.mp fun h => hds (List.mem_cons.mpr h)
        rw [upTo, if_neg (by simpa using Ne.symm hne), ih hds]
        rfl
    exact hnone close hmark
  | cons c cs ih =>
    rw [List.cons_append, upTo, upTo]
    split
    · rfl
    · rw [ih, Option.map_map, Option.map_map]
      rfl

theorem local_named (f : Flags) (inverse : Bool) : Local lax (namedClass.named f inverse) := by
  refine (local_upTo (by decide)).bind <| Local.prod fun name => Local.cons fun c =>
    Local.ite ?_ Local.none
  refine Local.given _ fun row => ?_
  obtain ⟨label, s⟩ := row
  exact Local.pure fun _ => ⟨rfl, rfl⟩

theorem local_namedClass (f : Flags) : Local lax (namedClass f) :=
  Local.cons fun c =>
    Local.ite (Local.head (b := true) (fun _ => by decide) (fun _ => local_named f true)
    (local_named f false)) Local.none

/-- The name of a class has no closing parenthesis, so whether there is one is settled before. -/
theorem namedClass_close (f : Flags) (cs : List Char) :
    namedClass f (cs ++ close) = (namedClass f cs).map (extend · close) := by
  have hnamed (inverse : Bool) (cs : List Char) : namedClass.named f inverse (cs ++ close) =
      (namedClass.named f inverse cs).map (extend · close) := by
    rw [namedClass.named, namedClass.named, upTo_close (by decide)]
    cases upTo ':' cs with
    | none => rfl
    | some p =>
      obtain ⟨name, ds⟩ := p
      cases ds with
      | nil => rfl
      | cons d ds =>
        show (if (d == ']') = true then _ else none) =
          (if (d == ']') = true then _ else none : Option _).map _
        split
        · cases CharSet.named.find? fun row => row.1.toList == name <;> rfl
        · rfl
  cases cs with
  | nil => rfl
  | cons c cs =>
    show (if (c == ':') = true then _ else none) =
      (if (c == ':') = true then _ else none : Option _).map _
    split
    · cases cs with
      | nil => exact hnamed false []
      | cons d ds =>
        show (if (some d == some '^') = true then _ else _) =
          (if (some d == some '^') = true then _ else _ : Option _).map _
        split
        · exact hnamed true ds
        · exact hnamed false (d :: ds)
    · rfl

theorem local_admittedMember (f : Flags) (e : Escape) : Local lax (admittedMember f e) := by
  cases e with
  | literal c => exact Local.ite (Local.pure fun _ => ⟨rfl, rfl⟩) Local.none
  | set s => exact Local.pure fun _ => ⟨rfl, rfl⟩
  | assertion a => exact Local.pure fun _ => ⟨rfl, rfl⟩

theorem local_member_cons (f : Flags) (c : Char) : Local lax fun cs => member f (c :: cs) :=
  Local.ite ((local_escape f).bind (Local.prod (local_admittedMember f)))
    (local_admittedMember f (.literal c))

theorem local_alone (f : Flags) (e : Escape) : Local lax (alone f e) := by
  cases e with
  | literal c => exact Local.pure fun _ => ⟨rfl, rfl⟩
  | set s => exact Local.pure fun _ => ⟨rfl, rfl⟩
  | assertion a => exact Local.none

theorem local_rangeEnd_cons (f : Flags) (first : Escape) (c : Char) :
    Local lax fun cs => rangeEnd f first (c :: cs) := by
  refine (local_member_cons f c).bind <| Local.prod fun last => ?_
  cases first with
  | literal low =>
    cases last with
    | literal high => exact Local.ite (Local.pure fun _ => ⟨rfl, rfl⟩) Local.none
    | set s => exact Local.none
    | assertion a => exact Local.none
  | set s => exact Local.none
  | assertion a => exact Local.none

theorem local_afterHyphen (f : Flags) : Local True (afterHyphen f) := by
  refine Local.next f fun c => Local.ite ?_ Local.none
  refine Local.cond (fun cs => head?_skip_close rfl f cs) Local.none ?_
  exact Local.skip f (Local.pure fun _ => ⟨rfl, rfl⟩) (.inl trivial)

theorem isSome_afterHyphen_close (f : Flags) (cs : List Char) :
    (afterHyphen f (cs ++ close)).isSome = (afterHyphen f cs).isSome := by
  rw [afterHyphen, afterHyphen]
  rcases skip_close f cs with h | ⟨-, hend, hover⟩
  · rw [h]
    cases f.skip cs with
    | nil => rfl
    | cons c ds =>
      dsimp only [List.cons_append]
      rw [head?_skip_close rfl]
      split
      · split <;> rfl
      · rfl
  · rw [hend, hover]

theorem local_rangeFrom (f : Flags) (first : Escape) : Local True (rangeFrom f first) := by
  have hrange : Local True (rangeEnd f first) := by
    refine (Local.cons (local_rangeEnd_cons f first)).congr fun cs => ?_
    cases cs <;> rfl
  refine (Local.orElse (local_afterHyphen f) (isSome_afterHyphen_close f) hrange
    (local_alone f first)).congr fun cs => ?_
  rw [rangeFrom]
  cases afterHyphen f cs <;> rfl

theorem local_memberOrRange_cons (f : Flags) (c : Char) :
    Local True fun cs => memberOrRange f (c :: cs) :=
  (local_member_cons f c).bind <| Local.prod fun first => local_rangeFrom f first

theorem hyphensOf_congr (f : Flags) {n m : Nat} {cs : List Char} (hn : cs.length ≤ n)
    (hm : cs.length ≤ m) :
    hyphensOf f n cs = hyphensOf f m cs := by
  induction n generalizing m cs with
  | zero =>
    obtain rfl := List.length_eq_zero_iff.mp (Nat.le_zero.mp hn)
    cases m <;> rfl
  | succ n ih =>
    cases cs with
    | nil => cases m <;> rfl
    | cons c cs =>
      cases m with
      | zero => cases hm
      | succ m =>
        have hskip := (skip_suffix f cs).length_le
        rw [hyphensOf, hyphensOf, ih (hskip.trans (Nat.le_of_succ_le_succ hn))
          (hskip.trans (Nat.le_of_succ_le_succ hm))]

theorem local_hyphensOf (f : Flags) (n : Nat) : Local True fun cs => some (hyphensOf f n cs) := by
  induction n with
  | zero => exact Local.pure fun _ => ⟨rfl, rfl⟩
  | succ n ih =>
    have hrest : Local True fun cs => some (true, (hyphensOf f n (f.skip cs)).2) :=
      (Local.skip f ih (.inl trivial)).map (f := fun p => (true, p.2)) fun _ => ⟨rfl, rfl⟩
    have hsucc : (fun cs => some (hyphensOf f (n + 1) cs)) = fun cs : List Char =>
        if (true && cs.head? == some '-') = true
          then some (true, (hyphensOf f n (f.skip cs.tail)).2)
        else some (false, cs) := by
      funext cs
      cases cs with
      | nil => rfl
      | cons c cs => exact apply_ite some _ _ _
    rw [hsucc]
    exact Local.head (fun _ => by decide) (fun _ => hrest) (Local.pure fun _ => ⟨rfl, rfl⟩)

theorem local_caret (f : Flags) : Local True fun cs => some (caret f cs) := by
  have hcaret : Local True fun cs : List Char =>
      if (true && cs.head? == some '^') = true then some (true, f.skip cs.tail)
      else some (false, cs) :=
    Local.head (fun _ => by decide)
      (fun _ => Local.skip f (h := fun cs => some (true, cs)) (Local.pure fun _ => ⟨rfl, rfl⟩)
        (.inl trivial))
      (Local.pure fun _ => ⟨rfl, rfl⟩)
  have heq : (fun cs => some (caret f cs)) = fun cs =>
      if (true && (f.skip cs).head? == some '^') = true then some (true, f.skip (f.skip cs).tail)
      else some (false, f.skip cs) := funext fun cs => apply_ite some _ _ _
  rw [heq]
  exact Local.skip f hcaret (.inl trivial)

theorem local_classStart (f : Flags) : Local True fun cs => some (classStart f cs) := by
  have hhyphens : Local True fun cs : List Char => some (hyphensOf f cs.length cs) := by
    refine ⟨fun cs => (local_hyphensOf f cs.length).suffix cs, fun cs => ?_⟩
    have hlonger : cs.length ≤ (extend cs close).length := by
      show cs.length ≤ (cs ++ close).length
      rw [List.length_append]
      exact Nat.le_add_right _ _
    rw [hyphensOf_congr f (Nat.le_refl cs.length) hlonger]
    exact (local_hyphensOf f (extend cs close).length).alike cs
  have hbracket : Local True fun cs : List Char => if (true && cs.head? == some ']') = true then
      some (CharSet.single ']', cs.tail) else some (.nothing, cs) :=
    Local.head (fun _ => by decide) (fun _ => Local.pure fun _ => ⟨rfl, rfl⟩)
      (Local.pure fun _ => ⟨rfl, rfl⟩)
  have hstart : Local True fun p : Bool × List Char =>
      if p.1 = true then some (CharSet.single '-', p.2)
      else if (true && p.2.head? == some ']') = true then some (.single ']', p.2.tail)
      else some (.nothing, p.2) :=
    Local.prod fun isHyphen => by
      cases isHyphen with
      | true => exact Local.pure fun _ => ⟨rfl, rfl⟩
      | false => exact hbracket
  refine (hhyphens.bind hstart).congr fun cs => ?_
  exact (apply_ite some _ _ _).trans (congrArg (ite _ _) (apply_ite some _ _ _))

theorem local_classPart {nested : List Char → Option (CharSet × List Char)}
    (hnested : Local True nested) (f : Flags) (pending : Option (CharSet × Operation)) (s : CharSet)
    (c : Char) :
    Local True (classPart nested f pending s c) := by
  have hmember : Local True fun p : CharSet × List Char =>
    some (pending, CharSet.union s p.1, p.2) :=
    Local.pure fun _ => ⟨rfl, rfl⟩
  refine Local.ite ?_ (Local.head (fun hc => ?_) (fun _ => Local.pure fun _ => ⟨rfl, rfl⟩) ?_)
  · have hnamed : Local True fun p : CharSet × Bool × List Char =>
        f.admitted? p.2.1 p.1 >>= fun t => some (pending, CharSet.union s t, p.2.2) :=
      Local.prod fun t => Local.prod fun inverse => Local.given (f.admitted? inverse t) fun t =>
        Local.pure fun _ => ⟨rfl, rfl⟩
    have hsome (cs : List Char) : (namedClass f (cs ++ close)).isSome =
        (namedClass f cs).isSome := by
      rw [namedClass_close, Option.isSome_map]
    refine (Local.orElse (local_namedClass f) hsome hnamed (hnested.bind hmember)).congr
      fun cs => ?_
    cases namedClass f cs <;> rfl
  · rintro rfl
    cases hc
  · exact (local_memberOrRange_cons f c).bind hmember

/-- Classes in brackets are read alike, however deep they are. -/
theorem local_class (fuel : Nat) (f : Flags) : Local True (classOf fuel f) ∧
    ∀ pending s, Local True (classRest fuel f pending s) := by
  induction fuel with
  | zero => exact ⟨Local.none, fun _ _ => Local.none⟩
  | succ fuel ih =>
    obtain ⟨hclass, hrest⟩ := ih
    constructor
    · show Local True fun cs => some (caret f cs) >>= fun p => some (classStart f p.2) >>= fun q =>
        classRest fuel f none q.1 q.2 >>= fun r => f.admitted? p.1 r.1 >>= fun t => some (t, r.2)
      have hmembers (inverse : Bool) (start : CharSet) : Local True fun cs =>
          classRest fuel f none start cs >>= fun r => f.admitted? inverse r.1 >>= fun t =>
            some (t, r.2) :=
        (hrest none start).bind <| Local.prod fun s => Local.given (f.admitted? inverse s) fun t =>
          Local.pure fun _ => ⟨rfl, rfl⟩
      have hstart (inverse : Bool) : Local True fun cs => some (classStart f cs) >>= fun q =>
          classRest fuel f none q.1 q.2 >>= fun r => f.admitted? inverse r.1 >>= fun t =>
            some (t, r.2) :=
        (local_classStart f).bind <| Local.prod (hmembers inverse)
      exact (local_caret f).bind <| Local.prod hstart
    · intro pending s
      refine Local.next f fun c => Local.ite (Local.pure fun _ => ⟨rfl, rfl⟩) ?_
      exact (local_classPart hclass f pending s c).bind <| Local.prod fun pending =>
        Local.prod fun s =>
        hrest pending s

theorem suffix_of_flagList {f : Flags} {negated : Bool} {seen cs : List Char}
    {a : Flags × Bool × Bool × List Char} (h : flagList f negated seen cs = some a) :
    rest a <:+ cs.tail := by
  induction cs generalizing f negated seen with
  | nil => cases h
  | cons c cs ih =>
    rw [flagList] at h
    split at h
    · split at h
      · cases h
      · cases h
        exact List.suffix_rfl
    · split at h
      · cases h
      · refine List.IsSuffix.trans ?_ (List.tail_suffix cs)
        split at h
        · exact ih h
        · obtain ⟨g, -, h⟩ := Option.bind_eq_some_iff.mp h
          exact ih h

theorem local_flagList (f : Flags) (negated : Bool) (seen : List Char) :
    Local lax (flagList f negated seen) := by
  constructor
  · exact fun cs a ha => (suffix_of_flagList ha).trans (List.tail_suffix cs)
  · intro cs
    induction cs generalizing f negated seen with
    | nil => exact Alike.none fun a ha => suffix_of_flagList ha
    | cons c cs ih =>
      have hrest (g : Flags) (negated : Bool) : Alike (lax ∧ '#' ∈ c :: cs)
          (flagList g negated (c :: seen) cs) (flagList g negated (c :: seen) (cs ++ close)) :=
        (ih g negated (c :: seen)).weaken fun h => ⟨h.1, List.mem_cons_of_mem c h.2⟩
      have hnone :
          Alike (lax ∧ '#' ∈ c :: cs) (none : Option (Flags × Bool × Bool × List Char)) none :=
        Alike.none fun a ha => (Option.some_ne_none a ha.symm).elim
      show Alike _ (flagList f negated seen (c :: cs))
        (flagList f negated seen (c :: (cs ++ close)))
      rw [flagList, flagList]
      split
      · split
        · exact hnone
        · exact .inl ⟨_, rfl, rfl⟩
      · split
        · exact hnone
        · split
          · exact hrest f true
          · cases f.set? c !negated with
            | none => exact hnone
            | some g => exact hrest g negated

/-- The flags of a group and what comes after them. -/
theorem local_flagList_cons (f : Flags) (negated : Bool) (seen : List Char) (c : Char) :
    Local lax fun cs => flagList f negated seen (c :: cs) := by
  refine Local.ite (Local.ite Local.none (Local.pure fun _ => ⟨rfl, rfl⟩)) ?_
  refine Local.ite Local.none (Local.ite (local_flagList _ _ _) ?_)
  exact Local.given (f.set? c !negated) fun g => local_flagList _ _ _

theorem local_groupName : Local lax groupName := by
  refine (local_upTo (by decide)).bind <| Local.prod fun name => ?_
  cases name with
  | nil => exact Local.none
  | cons c more => exact Local.ite (Local.pure fun _ => ⟨rfl, rfl⟩) Local.none

theorem local_named_group (f : Flags) : Local lax (opening.named f) :=
  local_groupName.map fun _ => ⟨rfl, rfl⟩

theorem local_marked (f : Flags) : Local lax (opening.marked f) := by
  refine Local.cons fun c =>
    Local.head (fun _ => by decide) (fun _ => local_named_group f) (Local.ite ?_ ?_)
  · refine Local.choice ?_ (fun cs => ?_) (fun _ => Local.none) (local_named_group f)
    · rfl
    · cases cs <;> rfl
  · refine (local_flagList_cons f false [] c).bind <| Local.prod fun g => Local.prod fun isEmpty =>
      Local.prod fun isClosed => ?_
    exact Local.ite (Local.ite Local.none (Local.pure fun _ => ⟨rfl, rfl⟩))
      (Local.pure fun _ => ⟨rfl, rfl⟩)

theorem local_opening (f : Flags) : Local True (opening f) := by
  have hmark : Local True fun cs : List Char => if (true && cs.head? == some '?') = true then
      opening.marked f cs.tail else some (.group f none, cs) :=
    Local.head (fun _ => by decide) (fun _ => local_marked f) (Local.pure fun _ => ⟨rfl, rfl⟩)
  refine (Local.skip f hmark (.inl trivial)).congr fun cs => ?_
  rw [opening]
  cases f.skip cs <;> rfl

theorem local_dropLazy {α : Type} [Rest α] {h : List Char → Option α} (hh : Local True h) :
    Local True fun cs => h (dropLazy cs) := by
  have hdrop : Local True fun cs : List Char =>
    if (true && cs.head? == some '?') = true then some cs.tail else some cs :=
    Local.head (fun _ => by decide) (fun _ => Local.pure fun _ => ⟨rfl, rfl⟩)
      (Local.pure fun _ => ⟨rfl, rfl⟩)
  refine (hdrop.bind hh).congr fun cs => ?_
  show h (if (cs.head? == some '?') = true then cs.tail else cs) =
    (if (cs.head? == some '?') = true then some cs.tail else some cs) >>= h
  split <;> rfl

theorem local_part {group : Flags → Names → List Char → Option (Node × Names × List Char)}
    {bracket : Flags → List Char → Option (CharSet × List Char)}
    (hgroup : ∀ f names, Local True (group f names)) (hbracket : ∀ f, Local True (bracket f))
    (f : Flags) (names : Names) (before : List (Option Node)) (c : Char) :
    Local True (part group bracket f names before c) := by
  have hgo (f : Flags) (names : Names) (before : List (Option Node)) :
      Local True fun rest : List Char => some (f, names, before, rest) := Local.pure fun _ =>
        ⟨rfl, rfl⟩
  have hrepeated (least : Nat) (most : Option Nat) : Local True fun rest : List Char =>
      repeatLast least most before >>= fun before => some (f, names, before, dropLazy rest) :=
    Local.given (repeatLast least most before) fun before => local_dropLazy (hgo f names before)
  have hset (s : CharSet) := hgo f names (some (.char s) :: before)
  have hplace (a : Assertion) := hgo f names (some (.assertion f.words a) :: before)
  -- a group, a class, the repetitions, a dot, the ends of a line, an escape and all others
  refine Local.ite ?_ <| Local.ite ?_ <|
    Local.ite (hrepeated _ _) <| Local.ite (hrepeated _ _) <| Local.ite (hrepeated _ _) <|
      Local.ite ?_ <|
    Local.ite ?_ <| Local.ite (hplace _) <| Local.ite (hplace _) <| Local.ite ?_ (hset _)
  · refine (local_opening f).bind <| Local.prod fun o => ?_
    cases o with
    | flags g => exact hgo g names (none :: before)
    | group g name =>
      refine Local.ite Local.none ?_
      refine (hgroup g _).bind <| Local.prod fun n => Local.prod fun names => Local.cons fun d => ?_
      exact Local.ite (hgo f names _) Local.none
  · exact (hbracket f).bind <| Local.prod fun s => hset s
  · refine (local_bounds f).bind <| Local.prod fun least => Local.prod fun most => ?_
    exact Local.skip f (hrepeated least most) (.inl trivial)
  · exact Local.given (f.admitted? false f.dot) fun s => hset s
  · refine (local_escape f).bind <| Local.prod fun e => ?_
    cases e with
    | literal c => exact hset _
    | set s => exact hset s
    | assertion a => exact hplace a

/-- Groups are read alike, however deep they are. -/
theorem local_group (fuel : Nat) : (∀ f names, Local True (alternatives fuel f names)) ∧
    ∀ f names before, Local True (parts fuel f names before) := by
  induction fuel with
  | zero => exact ⟨fun _ _ => Local.none, fun _ _ _ => Local.none⟩
  | succ fuel ih =>
    obtain ⟨halternatives, hparts⟩ := ih
    constructor
    · intro f names
      refine (hparts f names []).bind <| Local.prod fun n => Local.prod fun f =>
        Local.prod fun names => ?_
      refine Local.head (b := true) (fun _ => by decide) (fun _ => ?_)
        (Local.pure fun _ => ⟨rfl, rfl⟩)
      exact (halternatives f names).bind <| Local.prod fun m => Local.prod fun names =>
        Local.pure fun _ => ⟨rfl, rfl⟩
    · intro f names before
      have hpart (c : Char) : Local True fun cs =>
          part (alternatives fuel) (classOf fuel) f names before c cs >>= fun a =>
            parts fuel a.1 a.2.1 a.2.2.1 a.2.2.2 := by
        refine (local_part halternatives (fun f => (local_class fuel f).1) f names before c).bind ?_
        exact Local.prod fun f => Local.prod fun names => Local.prod fun before =>
          hparts f names before
      exact Local.skip f (Local.stop (p := fun c => c == '|' || c == ')')
        (e := fun cs => (sequence before, f, names, cs)) rfl (fun _ => ⟨rfl, rfl⟩) hpart)
          (.inl trivial)

end WideColumn.Pattern.Reader
