import WideColumn.Proofs.Catalog.Settled
import WideColumn.Proofs.Command.Line
import WideColumn.Proofs.Shell.Footprint

/-! # One family map, created with and altered with

A map names a family and gives its properties. Of several names, a table is created with the last
and altered with the first. Everything else about the map is read the same way. -/
namespace WideColumn.Shell
open WideColumn.Catalog WideColumn.Schema WideColumn.Text

variable {directory name : String} {m : Properties} {c : Catalog} {k : Machine} {t : Table}
  {turn : Turn} {confirm : List String → Bool}

/-- The names in a map, in order. -/
def namesOf (m : Properties) : List String :=
  (m.filter fun p => Command.isKey p.1 nameKey).map (·.2)

/-- The properties in a map. -/
def propertiesOf (m : Properties) : Properties := m.filter fun p => !Command.isKey p.1 nameKey

/-- The family that a map describes if this is its name. -/
def described (m : Properties) (name? : Option String) : Option Family := do
  let name ← name?
  (checkFamilyName name).toOption
  (Family.ofProperties name (propertiesOf m)).toOption

theorem familySpec_map : Command.familySpec (.map m) =
    match (namesOf m).getLast? with
    | some name => .ok { name, properties := propertiesOf m }
    | none => .error .createMapWithoutName := by
  rw [Command.familySpec, namesOf, List.getLast?_map]
  cases (m.filter fun p => Command.isKey p.1 nameKey).getLast? <;> rfl

theorem lookup_nameKey : lookup nameKey m = (namesOf m).head? := by
  rw [lookup, namesOf, List.head?_map, List.head?_filter]
  rfl

/-- Where no key is the one for methods, the others are the properties. -/
theorem filter_of_noMethod (h : ∀ p ∈ m, sameWord p.1 methodKey = false) :
    (m.filter fun p => !sameWord p.1 nameKey && !sameWord p.1 methodKey) = propertiesOf m := by
  refine List.filter_congr fun p hp => ?_
  rw [h p hp, Bool.not_false, Bool.and_true]
  rfl

theorem lookup_methodKey (h : ∀ p ∈ m, sameWord p.1 methodKey = false) :
    lookup methodKey m = none := by
  rw [lookup, List.find?_eq_none.mpr fun p hp => by simp [h p hp]]
  rfl

theorem described_some (m : Properties) (name : String) : described m (some name) =
    (checkFamilyName name).toOption.bind fun _ =>
      (Family.ofProperties name (propertiesOf m)).toOption := rfl

theorem described_of_error {e : Fault} (h : Options.ofProperties (propertiesOf m) = .error e)
    (name? : Option String) :
    described m name? = none := by
  cases name? with
  | none => rfl
  | some name =>
    rw [described_some, Family.ofProperties, h]
    cases checkFamilyName name <;> rfl

theorem described_of_ok {options : Options}
    (h : Options.ofProperties (propertiesOf m) = .ok options) (name? : Option String) :
    described m name? =
      (name?.filter fun name => (checkFamilyName name).isOk).map fun name => { name, options } := by
  cases name? with
  | none => rfl
  | some name =>
    rw [described_some, Family.ofProperties, h, Option.filter_some]
    cases checkFamilyName name <;> rfl

private theorem filter_eq_filter_iff {p : String → Bool} {a b : Option String} :
    a.filter p = b.filter p ↔ a = b ∨ (∀ x ∈ a, p x = false) ∧ ∀ x ∈ b, p x = false := by
  cases a with
  | none => cases b <;> simp [Option.filter]
  | some x =>
    cases b with
    | none => simp [Option.filter]
    | some y => cases hx : p x <;> cases hy : p y <;> simp [Option.filter, hx, hy] <;> grind

/-- Two names make the same of a map if they are the same, if neither is legal, or if the properties
are refused. -/
theorem described_eq_iff {a b : Option String} : described m a = described m b ↔
    a = b ∨ (∃ e, Options.ofProperties (propertiesOf m) = .error e) ∨
      (∀ name ∈ a, checkFamilyName name ≠ .ok ()) ∧ ∀ name ∈ b, checkFamilyName name ≠ .ok () := by
  cases h : Options.ofProperties (propertiesOf m) with
  | error e =>
    rw [described_of_error h, described_of_error h]
    simp
  | ok options =>
    have hinjective : Function.Injective fun name : String => ({ name, options } : Family) :=
      fun _ _ heq => congrArg Family.name heq
    have hillegal (name : String) : (checkFamilyName name).isOk = false ↔
        checkFamilyName name ≠ .ok () := by
      cases checkFamilyName name <;> simp [Except.isOk, Except.toBool]
    rw [described_of_ok h, described_of_ok h, (Option.map_injective hinjective).eq_iff,
      filter_eq_filter_iff]
    simp only [hillegal, reduceCtorEq, exists_false, false_or]

/-- In the end a table has this one family, or there was a fault. -/
def Made (r : Except Fault Outcome) (d : Catalog) (table : String) : Option Family → Prop
  | some f => (∃ o, r = .ok o) ∧ ∃ t, d.find? table = some t ∧ t.families = [f]
  | none => ∃ e, r = .error e

theorem Made.unique {r : Except Fault Outcome} {d : Catalog} {f g : Option Family}
    (hf : Made r d name f) (hg : Made r d name g) : f = g := by
  cases f with
  | none =>
    obtain ⟨e, rfl⟩ := hf
    cases g with
    | none => rfl
    | some g =>
      obtain ⟨⟨o, ho⟩, -⟩ := hg
      cases ho
  | some f =>
    obtain ⟨⟨o, rfl⟩, t, ht, hfamilies⟩ := hf
    cases g with
    | none =>
      obtain ⟨e, he⟩ := hg
      cases he
    | some g =>
      obtain ⟨-, s, hs, hfamilies'⟩ := hg
      cases ht.symm.trans hs
      rw [hfamilies] at hfamilies'
      rw [(List.cons.inj hfamilies').1]

private theorem exec_mapM_singleton {α β : Type} {g : α → Program β} {a : α} {b : β} {d : Catalog}
    {k' : Machine} (h : exec (g a) c k = ((.ok b, d), k')) :
    exec ([a].mapM g) c k = ((.ok [b], d), k') := by
  rw [List.mapM_cons, exec_bind_ok h]
  rfl

private theorem exec_mapM_singleton_error {α β : Type} {g : α → Program β} {a : α} {e : Fault}
    {d : Catalog} {k' : Machine} (h : exec (g a) c k = ((.error e, d), k')) :
    exec ([a].mapM g) c k = ((.error e, d), k') := by
  rw [List.mapM_cons, exec_bind_error h]

private theorem checkFamilies_singleton (f : Family) :
    Table.checkFamilies [] [f] = checkFamilyName f.name := by
  rw [Table.checkFamilies]
  cases checkFamilyName f.name <;> rfl

/-- A new table is made with the family of a name and some properties, if there is one. -/
theorem made_create (h : Settled directory c k) (hlegal : checkTableName name = .ok ())
    (hnew : c.find? name = none)
    (hmissing : k.volume.find? (Volume.path (c.filePath name)) = .error .missing)
    (family : String) :
    ∃ r d k', exec (perform confirm (.create name [⟨family, propertiesOf m⟩])) c k = ((r, d), k') ∧
      Made r d name (described m (some family)) := by
  let make (f : FamilySpec) : Program Family := liftM (Family.ofProperties f.name f.properties)
  have hmake : exec (make ⟨family, propertiesOf m⟩) c k =
      ((Family.ofProperties family (propertiesOf m), c), k) :=
    exec_lift _ c k
  have hcommand : perform confirm (.create name [⟨family, propertiesOf m⟩]) =
      [⟨family, propertiesOf m⟩].mapM make >>= fun families =>
        createTable name families >>= fun _ =>
        pure (.created name) := rfl
  rw [hcommand, described_some]
  -- the properties are read before the name of the family is checked, so a bad one hides a bad name
  cases hf : Family.ofProperties family (propertiesOf m) with
  | error e =>
    rw [hf] at hmake
    refine ⟨_, _, _, exec_bind_error (exec_mapM_singleton_error hmake), ?_⟩
    cases checkFamilyName family <;> exact ⟨e, rfl⟩
  | ok f =>
    rw [hf] at hmake
    have hname : f.name = family := by
      obtain ⟨options, -, hf⟩ := bind_eq_ok.mp hf
      cases hf
      rfl
    obtain ⟨id, now, k', hcreate⟩ := h.exec_createTable hlegal hnew hmissing [f]
    rw [checkFamilies_singleton, hname] at hcreate
    rw [exec_bind_ok (exec_mapM_singleton hmake)]
    cases hcheck : checkFamilyName family with
    | error e =>
      rw [hcheck] at hcreate
      exact ⟨_, _, _, exec_bind_error hcreate.1, e, rfl⟩
    | ok =>
      rw [hcheck] at hcreate
      rw [exec_bind_ok hcreate]
      exact ⟨_, _, _, rfl, ⟨_, rfl⟩, _, find?_add (t := .blank name [f] id now) hnew, rfl⟩

/-- A table without families gets the family of a name and some properties, if there is one. -/
private theorem createFamily_described (henabled : t.enabled = true) (hnone : t.families = [])
    (r : Readings) (family : String) : match t.createFamily r family (propertiesOf m) with
      | .ok next => ∃ f, described m (some family) = some f ∧ next.families = [f] ∧
        next.name = t.name
      | .error _ => described m (some family) = none := by
  have hon : t.disabled = false := by simpa [Table.enabled] using henabled
  have hnew : t.family? family = none := by rw [Table.family?, hnone]; rfl
  rw [described_some]
  -- here the name is checked first: which fault it is differs, but not whether there is one
  cases hrun : t.createFamily r family (propertiesOf m) with
  | ok next =>
    obtain ⟨-, hlegal, -, f, hf, rfl⟩ := Table.createFamily_eq_ok.mp hrun
    rw [hlegal, hf]
    exact ⟨f, rfl, by rw [hnone]; rfl, rfl⟩
  | error e =>
    cases hlegal : checkFamilyName family with
    | error e' => rfl
    | ok =>
      cases hf : Family.ofProperties family (propertiesOf m) with
      | error e' => rfl
      | ok f =>
        rw [Table.createFamily_eq_ok.mpr ⟨hon, hlegal, hnew, f, hf, rfl⟩] at hrun
        cases hrun

/-- A table without families is altered to have the family of the first name, if there is one. -/
theorem made_alter (h : Settled directory c k) (ht : c.find? name = some t)
    (henabled : t.enabled = true) (hnone : t.families = [])
    (hm : ∀ p ∈ m, sameWord p.1 methodKey = false) :
    ∃ r d k', exec (perform confirm (.alter name [m])) c k = ((r, d), k') ∧
      Made r d name (described m (namesOf m).head?) := by
  have hcommand : perform confirm (.alter name [m]) =
      [m].mapM (Catalog.alter name) >>= fun changes => pure (.altered changes) := rfl
  rw [hcommand]
  cases hname : (namesOf m).head? with
  | none =>
    have halter : exec (Catalog.alter name m) c k = ((.error .alterWithoutName, c), k) := by
      rw [Catalog.alter, lookup_nameKey, hname]
      rfl
    exact ⟨_, _, _, exec_bind_error (exec_mapM_singleton_error halter), _, rfl⟩
  | some family =>
    have hask : exec (ask (·.table name)) c k = ((.ok t, c), k) := exec_table ht k
    have habsent : (t.family? family).isSome = false := by rw [Table.family?, hnone]; rfl
    have hsame : ∀ r next, t.createFamily r family (propertiesOf m) = .ok next →
        next.name = t.name := by
      intro r next hok
      obtain ⟨-, -, -, f, -, rfl⟩ := Table.createFamily_eq_ok.mp hok
      rfl
    obtain ⟨r, k', hmutate⟩ :=
      h.exec_mutate_ (fun r t => t.createFamily r family (propertiesOf m)) ht hsame
    have halter : exec (Catalog.alter name m) c k =
        exec (mutate_ name (fun r t => t.createFamily r family (propertiesOf m)) >>= fun _ =>
          pure (.created family)) c k := by
      rw [Catalog.alter, lookup_nameKey, hname]
      dsimp only
      rw [filter_of_noMethod hm, lookup_methodKey hm]
      dsimp only
      rw [exec_bind_ok hask, habsent]
      rfl
    have hmade := createFamily_described (m := m) henabled hnone r family
    cases hrun : t.createFamily r family (propertiesOf m) with
    | error e =>
      rw [hrun] at hmutate hmade
      rw [exec_bind_error hmutate] at halter
      rw [hmade]
      exact ⟨_, _, _, exec_bind_error (exec_mapM_singleton_error halter), _, rfl⟩
    | ok next =>
      rw [hrun] at hmutate hmade
      obtain ⟨f, hf, hfamilies, hnext⟩ := hmade
      rw [exec_bind_ok hmutate] at halter
      rw [hf, exec_bind_ok (exec_mapM_singleton halter)]
      refine ⟨_, _, _, rfl, ⟨_, rfl⟩, next, ?_, hfamilies⟩
      exact find?_replace ht (hnext.trans (mem_of_find? ht).2)

/-- A line makes what its command makes. -/
def Turn.Makes (turn : Turn) (s : Catalog × Machine) (table : String) (f : Option Family) : Prop :=
  Made (turn.answer s.1 s.2).1.1.outcome (turn.step s).1 table f

theorem Turn.makes_of_exec {command : Command} {f : Option Family}
    (hparse : Command.parse turn.line = .ok command)
    (hrun : ∃ r d k', exec (perform turn.confirm command) c k.stopwatch.2 = ((r, d), k') ∧
      Made r d name f) :
    turn.Makes (c, k) name f := by
  obtain ⟨r, d, k', hrun, hmade⟩ := hrun
  obtain ⟨houtcome, hstep⟩ := turn.answer_of_exec hparse hrun
  rw [Turn.Makes, houtcome, hstep]
  exact hmade

theorem makes_create (h : Settled directory c k) (hlegal : checkTableName name = .ok ())
    (hnew : c.find? name = none)
    (hmissing : k.volume.find? (Volume.path (c.filePath name)) = .error .missing)
    (hline : Command.Reads turn.line .create [.string name, .map m]) :
    turn.Makes (c, k) name (described m (namesOf m).getLast?) := by
  have hwatch : Settled directory c k.stopwatch.2 := h
  have hparse : Command.parse turn.line = .create name <$> [Argument.map m].mapM
      Command.familySpec :=
    hline.parse_eq.trans (Command.ofArguments_create (List.cons_ne_nil _ _))
  rw [List.mapM_cons, familySpec_map] at hparse
  cases hname : (namesOf m).getLast? with
  | none =>
    rw [hname] at hparse
    exact ⟨_, (turn.answer_of_error hparse c k).1⟩
  | some family =>
    rw [hname] at hparse
    exact Turn.makes_of_exec hparse (made_create hwatch hlegal hnew hmissing family)

theorem makes_alter (h : Settled directory c k) (ht : c.find? name = some t)
    (henabled : t.enabled = true) (hnone : t.families = [])
    (hm : ∀ p ∈ m, sameWord p.1 methodKey = false)
    (hline : Command.Reads turn.line .alter [.string name, .map m]) :
    turn.Makes (c, k) name (described m (namesOf m).head?) := by
  have hwatch : Settled directory c k.stopwatch.2 := h
  have hparse : Command.parse turn.line = .alter name <$> [Argument.map m].mapM Command.alterMap :=
    hline.parse_eq.trans (Command.ofArguments_alter (List.cons_ne_nil _ _))
  exact Turn.makes_of_exec hparse (made_alter hwatch ht henabled hnone hm)

/-- A table that has lost its only family. -/
def noFamilies : Catalog × Machine :=
  after [.createTable "t" [{ name := "x" }], .mutate "t" (.deleteFamily "x")] (⟨"d", []⟩, opened.2)

theorem settled_noFamilies : Settled "d" noFamilies.1 noFamilies.2 :=
  stable_settled.after _ settled_opened

theorem find?_noFamilies :
    ∃ t, noFamilies.1.find? "t" = some t ∧ t.enabled = true ∧ t.families = [] := by
  have hmap : (noFamilies.1.find? "t").map (fun t => (t.enabled, t.families)) =
      some (true, []) := by
    decide +kernel
  obtain ⟨t, ht, h⟩ := Option.map_eq_some_iff.mp hmap
  obtain ⟨henabled, hnone⟩ := Prod.mk.inj h
  exact ⟨t, ht, henabled, hnone⟩

theorem missing_opened :
    opened.2.volume.find? (Volume.path (filePath ⟨"d", []⟩ "t")) = .error .missing := by
  decide +kernel

/-- Two lines make the same family of a table, or both fail. -/
def Alike (table : String) (turn turn' : Turn) (s s' : Catalog × Machine) : Prop :=
  ∃ f, turn.Makes s table f ∧ turn'.Makes s' table f

/-- To create a table with a family map and to alter a table without families by it is the same just
where the first name in the map is the last, the properties are refused, or neither of the two names
is legal. -/
theorem alike_iff {directory' : String} {c' : Catalog} {k' : Machine} {turn' : Turn}
    (h : Settled directory c k) (hnew : c.find? name = none)
    (hmissing : k.volume.find? (Volume.path (c.filePath name)) = .error .missing)
    (h' : Settled directory' c' k') (ht : c'.find? name = some t) (henabled : t.enabled = true)
    (hnone : t.families = []) (hm : ∀ p ∈ m, sameWord p.1 methodKey = false)
    (hcreate : Command.Reads turn.line .create [.string name, .map m])
    (halter : Command.Reads turn'.line .alter [.string name, .map m]) :
    Alike name turn turn' (c, k) (c', k') ↔
      (namesOf m).head? = (namesOf m).getLast? ∨
      (∃ e, Options.ofProperties (propertiesOf m) = .error e) ∨
        (∀ family ∈ (namesOf m).head?, checkFamilyName family ≠ .ok ()) ∧
          ∀ family ∈ (namesOf m).getLast?, checkFamilyName family ≠ .ok () := by
  obtain ⟨hmem, hname⟩ := mem_of_find? ht
  have hlast := makes_create h (hname ▸ h'.agrees.legal t hmem) hnew hmissing hcreate
  have hfirst := makes_alter h' ht henabled hnone hm halter
  rw [← described_eq_iff]
  constructor
  · intro h
    obtain ⟨f, hf, hf'⟩ := h
    exact (hfirst.unique hf').trans (hf.unique hlast)
  · intro h
    exact ⟨_, hlast, h ▸ hfirst⟩

theorem alike_of_oneName :
    Alike "t" ⟨"create 't', \x7bNAME => 'a', VERSIONS => 3\x7d", fun _ => true⟩
      ⟨"alter 't', \x7bNAME => 'a', VERSIONS => 3\x7d", fun _ => true⟩
      (⟨"d", []⟩, opened.2) noFamilies := by
  obtain ⟨t, ht, henabled, hnone⟩ := find?_noFamilies
  refine (alike_iff (m := [("NAME", "a"), ("VERSIONS", "3")]) settled_opened rfl missing_opened
    settled_noFamilies ht henabled hnone (by decide) ?_ ?_).mpr (.inl rfl)
  · exact ⟨" 't', \x7bNAME => 'a', VERSIONS => 3\x7d".toList, by decide +kernel,
      eq_ok_of_toOption (by decide +kernel)⟩
  · exact ⟨" 't', \x7bNAME => 'a', VERSIONS => 3\x7d".toList, by decide +kernel,
      eq_ok_of_toOption (by decide +kernel)⟩

/-- A table is created with the last of two names and altered with the first. -/
theorem not_alike_twoNames :
    let create : Turn := ⟨"create 't', \x7bNAME => 'a', NAME => 'b'\x7d", fun _ => true⟩
    let alter : Turn := ⟨"alter 't', \x7bNAME => 'a', NAME => 'b'\x7d", fun _ => true⟩
    create.Makes (⟨"d", []⟩, opened.2) "t" (some { name := "b" }) ∧
      alter.Makes noFamilies "t" (some { name := "a" }) ∧
      ¬ Alike "t" create alter (⟨"d", []⟩, opened.2) noFamilies := by
  intro create alter
  have hcreate : Command.Reads create.line .create [.string "t",
      .map [("NAME", "a"), ("NAME", "b")]] :=
    ⟨" 't', \x7bNAME => 'a', NAME => 'b'\x7d".toList, by decide +kernel,
      eq_ok_of_toOption (by decide +kernel)⟩
  have halter : Command.Reads alter.line .alter [.string "t",
      .map [("NAME", "a"), ("NAME", "b")]] :=
    ⟨" 't', \x7bNAME => 'a', NAME => 'b'\x7d".toList, by decide +kernel,
      eq_ok_of_toOption (by decide +kernel)⟩
  obtain ⟨t, ht, henabled, hnone⟩ := find?_noFamilies
  have hlast := makes_create settled_opened (by decide) rfl missing_opened hcreate
  have hfirst := makes_alter settled_noFamilies ht henabled hnone (by decide) halter
  refine ⟨hlast, hfirst, fun h => ?_⟩
  obtain ⟨f, hf, hf'⟩ := h
  exact absurd ((hf.unique hlast).symm.trans (hf'.unique hfirst)) (by decide)

end WideColumn.Shell
