import WideColumn.Proofs.Table.Families
import WideColumn.Proofs.Table.Refinement
import WideColumn.Table.Read

/-! # Histories of tables and of plain maps

A table that was created from a schema answers every write of a history as the plain map does, and
so it does every read afterwards. -/
namespace WideColumn
open WideColumn.Schema WideColumn.Time

theorem CellPlace.lt_iff {j k : CellPlace} : j < k ↔ j.row < k.row ∨
    j.row = k.row ∧ (j.family < k.family ∨ j.family = k.family ∧ j.qualifier < k.qualifier) := by
  change j.toTriple < k.toTriple ↔ _
  simp only [toTriple, Prod.Lex.toLex_lt_toLex]

/-- What a read of a cell says but for its time. -/
def Cell.reading (c : Cell) : Reading := (⟨c.row, c.family, c.qualifier⟩, c.version, c.value)

namespace Entry

variable {e : Entry}

/-- The places of the cells of an entry. -/
def places (e : Entry) : List CellPlace := e.cells.map fun c => ⟨e.row, e.family, c.1⟩

theorem reading_read (most : Nat) (qualifier : String) (h : History) :
    (e.read most qualifier h).map Cell.reading =
      PlainTable.newest most ⟨e.row, e.family, qualifier⟩ h.values.val := by
  rw [read, PlainTable.newest, History.values, History.numbered_eq, List.zipIdx_map,
    ← List.map_reverse, ← List.map_take, ← List.map_take, List.map_map, List.map_map, List.map_map]
  rfl

end Entry

namespace Table.Operation

variable {op : Operation} {answer : Option Nat}

theorem report_of_lt (h : ∀ n ∈ answer, n < 2 ^ 32) : op.report answer = answer := by
  cases op with
  | put row family qualifier value =>
    cases answer with
    | none => rfl
    | some n => exact congrArg some (UInt32.toNat_ofNat_of_lt' (h n rfl))
  | _ => rfl

end Table.Operation

namespace PlainTable

variable {p : PlainTable} {name : String}

theorem reports_cons (op : Table.Operation) (ops : List Table.Operation) :
    p.reports name (op :: ops) =
      ((p.run name op).map (·.1)).map op.report :: (p.step name op).reports name ops := rfl

/-- Numbers below 2^32 are reported as they are. -/
theorem reports_of_lt {ops : List Table.Operation}
    (h : ∀ n, .ok (some n) ∈ p.answers name ops → n < 2 ^ 32) :
    p.reports name ops = p.answers name ops := by
  induction ops generalizing p with
  | nil => rfl
  | cons op ops ih =>
    have hrest := ih fun n hn => h n (List.mem_cons_of_mem _ hn)
    have hfirst : ((p.run name op).map (·.1)).map op.report = (p.run name op).map (·.1) := by
      cases hrun : (p.run name op).map (·.1) with
      | error e => rfl
      | ok answer =>
        refine congrArg Except.ok (Table.Operation.report_of_lt fun n hn => h n ?_)
        rw [PlainTable.answers, hrun, ← Option.mem_def.mp hn]
        exact List.mem_cons_self
    rw [reports_cons, hfirst, hrest, PlainTable.answers]

end PlainTable

namespace Table

variable {t : Table} {p : PlainTable}

/-- The places of all cells, as the entries have them. -/
def places (t : Table) : List CellPlace := t.entries.flatMap Entry.places

theorem Represents.mem_places (h : Represents t p) {k : CellPlace} :
    k ∈ t.places ↔ k ∈ p.cells.keys := by
  rw [h.mem_keys, places, List.mem_flatMap]
  refine exists_congr fun e => and_congr_right fun _ => ?_
  rw [Entry.places, List.mem_map]
  constructor
  · intro h
    obtain ⟨c, hc, rfl⟩ := h
    exact ⟨rfl, rfl, List.mem_map.mpr ⟨c, hc, rfl⟩⟩
  · intro h
    obtain ⟨hrow, hfamily, hq⟩ := h
    obtain ⟨c, hc, hcq⟩ := List.mem_map.mp hq
    exact ⟨c, hc, CellPlace.ext hrow hfamily hcq⟩

theorem ascending_places (h : Entries.Sound t.entries) : t.places.Pairwise (· < ·) := by
  refine List.pairwise_flatMap.mpr ⟨fun e he => ?_, h.ordered.1.imp fun hab => ?_⟩
  · refine List.pairwise_map.mpr (List.Pairwise.imp ?_ (h.ascending e he))
    intro c d hlt
    exact CellPlace.lt_iff.mpr (.inr ⟨rfl, .inr ⟨rfl, hlt⟩⟩)
  · intro j hj k hk
    obtain ⟨c, -, rfl⟩ := List.mem_map.mp hj
    obtain ⟨d, -, rfl⟩ := List.mem_map.mp hk
    exact CellPlace.lt_iff.mpr <| (Entry.precedes_iff.mp hab).imp_right fun hf => ⟨hf.1, .inl hf.2⟩

/-- The places of the map in order are those of the entries, left to right. -/
theorem Represents.sort_keys (h : Represents t p) (q : CellPlace → Prop) [DecidablePred q] :
    (p.cells.keys.filter q).sort = t.places.filter q := by
  have hpairwise := (ascending_places h.sound).filter fun k => decide (q k)
  have hset : p.cells.keys.filter q = (t.places.filter q).toFinset := by
    ext k
    simp only [Finset.mem_filter, List.mem_toFinset, List.mem_filter, h.mem_places,
      decide_eq_true_eq]
  rw [hset]
  exact (List.toFinset_sort _ (hpairwise.imp ne_of_lt)).mpr (hpairwise.imp le_of_lt)

private theorem flatMap_filter_eq {α β : Type} {l : List α} {keep : α → Bool} {f g : α → List β}
    (hkeep : ∀ a ∈ l, keep a = true → f a = g a) (hdrop : ∀ a ∈ l, keep a = false → g a = []) :
    (l.filter keep).flatMap f = l.flatMap g := by
  induction l with
  | nil => rfl
  | cons a l ih =>
    have ih := ih (fun b hb => hkeep b (List.mem_cons_of_mem a hb))
      fun b hb => hdrop b (List.mem_cons_of_mem a hb)
    cases h : keep a with
    | false =>
      rw [List.filter_cons_of_neg (by simp [h]), List.flatMap_cons,
        hdrop a List.mem_cons_self h, ih]
      rfl
    | true =>
      rw [List.filter_cons_of_pos h, List.flatMap_cons, List.flatMap_cons,
        hkeep a List.mem_cons_self h, ih]

variable {row : String} {family qualifier : Option String} {versions : Nat}

private theorem Represents.valuesAt_eq (h : Represents t p) {e : Entry} (he : e ∈ t.entries)
    {c : String × History} (hc : c ∈ e.cells) (most : Nat) :
    p.valuesAt most ⟨e.row, e.family, c.1⟩ = (e.read most c.1 c.2).map Cell.reading := by
  have hfind := KeyedList.find?_of_mem (h.sound.ascending e he).nodup_keys hc
  rw [PlainTable.valuesAt, h.lookup, h.sound.ordered.find?_of_mem he, hfind, Entry.reading_read]
  simp

private theorem forall_mem_eq_iff {o : Option String} {a : String} :
    (∀ b ∈ o, a = b) ↔ o.all (· == a) = true := by
  cases o with
  | none => simp
  | some b =>
    rw [Option.all_some, beq_iff_eq]
    exact ⟨fun h => (h b rfl).symm, fun h _ hb => h.symm.trans (Option.some.inj hb)⟩

/-- The condition on a place, split between its entry and its qualifier. -/
private theorem Represents.shows_iff (h : Represents t p) (e : Entry) (q : String) :
    p.Shows row family qualifier ⟨e.row, e.family, q⟩ ↔
      (e.row == row && (family.all (· == e.family) && t.isReadable e)) = true ∧
        qualifier.all (· == q) = true := by
  rw [PlainTable.Shows, forall_mem_eq_iff, forall_mem_eq_iff, h.has_eq, isReadable,
    Bool.and_eq_true, Bool.and_eq_true, beq_iff_eq]
  constructor
  · intro h
    obtain ⟨hrow, hfamily, hq, hread⟩ := h
    exact ⟨⟨hrow, hfamily, hread⟩, hq⟩
  · intro h
    obtain ⟨⟨hrow, hfamily, hread⟩, hq⟩ := h
    exact ⟨hrow, hfamily, hq, hread⟩

private theorem Represents.read_entry (h : Represents t p) {e : Entry} (he : e ∈ t.entries)
    (hshown : (e.row == row && (family.all (· == e.family) && t.isReadable e)) = true)
    (most : Nat) :
    ((e.cells.filter fun (name, _) => qualifier.all (· == name)).flatMap fun (name, history) =>
      e.read most name history).map Cell.reading =
      (e.places.filter (p.Shows row family qualifier)).flatMap (p.valuesAt most) := by
  have hfilter : (e.cells.filter fun (name, _) => qualifier.all (· == name)) =
      e.cells.filter ((fun k => decide (p.Shows row family qualifier k)) ∘ fun c =>
        ⟨e.row, e.family, c.1⟩) :=
    List.filter_congr fun c _ => by
      rw [Bool.eq_iff_iff, Function.comp_apply, decide_eq_true_iff, h.shows_iff,
        and_iff_right hshown]
  rw [Entry.places, List.filter_map, List.flatMap_map, List.map_flatMap, ← hfilter]
  exact List.flatMap_congr fun c hc => (h.valuesAt_eq he (List.mem_filter.mp hc).1 most).symm

/-- A read shows one entry after the other, and in each the places that it names. -/
theorem Represents.read_row (h : Represents t p) (row : String) (family qualifier : Option String)
    (most : Nat) :
    (((Entries.ofRow t.entries row).filter fun e =>
        family.all (· == e.family) && t.isReadable e).flatMap fun e =>
      (e.cells.filter fun (name, _) => qualifier.all (· == name)).flatMap fun (name, history) =>
        e.read most name history).map Cell.reading =
      (p.cells.keys.filter (p.Shows row family qualifier)).sort.flatMap (p.valuesAt most) := by
  rw [h.sound.ordered.ofRow_eq, List.filter_filter, List.map_flatMap, h.sort_keys, places,
    List.filter_flatMap, List.flatMap_assoc]
  refine flatMap_filter_eq (fun e he hshown => ?_) fun e he hnot => ?_
  · exact h.read_entry he (Bool.and_comm _ _ ▸ hshown) most
  · have hnone : e.places.filter (p.Shows row family qualifier) = [] :=
      List.filter_eq_nil_iff.mpr fun k hk => by
        obtain ⟨c, -, rfl⟩ := List.mem_map.mp hk
        rw [decide_eq_true_iff, h.shows_iff, Bool.and_comm, hnot]
        simp
    rw [hnone]
    rfl

/-- A read of the table is a read of the map. -/
theorem Represents.getVersions (h : Represents t p) (row : String)
    (family qualifier : Option String) (versions : Nat) :
    (t.getVersions row family qualifier versions).map (List.map Cell.reading) =
      p.getVersions t.name row family qualifier versions := by
  have hread := h.read_row row family qualifier (max versions 1)
  simp only [Table.getVersions, PlainTable.getVersions, checkEnabled, ← hread, h.disabled_iff]
  by_cases hd : t.disabled = true
  · simp only [if_pos hd]
    rfl
  simp only [if_neg hd]
  cases (qualifier.isSome && family.isNone) with
  | true => rfl
  | false =>
    cases family with
    | none => rfl
    | some f =>
      simp only [checkFamily_eq, h.has_eq]
      cases (t.family? f).isSome <;> rfl

/-- What the writes of a history answer, one after the other. -/
def answers (t : Table) : List (Operation × Readings) → List (Except Fault (Option Nat))
  | [] => []
  | (op, r) :: rest => (op.run r t).map (·.1) :: (op.step r t).answers rest

variable {op : Operation} {r : Readings}

theorem Operation.step_name : (op.step r t).name = t.name := by
  rw [step]
  split
  · next h => exact (run_eq_ok h).1
  · rfl

theorem Represents.answer (h : Represents t p) (op : Operation) (r : Readings) :
    (op.run r t).map (·.1) = ((p.run t.name op).map (·.1)).map op.report := by
  have hrun := h.run (r := r) op
  generalize op.run r t = x, p.run t.name op = y at hrun ⊢
  cases hrun <;> rfl

theorem Represents.step (h : Represents t p) (op : Operation) (r : Readings) :
    Represents (op.step r t) (p.step t.name op) := by
  have hrun := h.run (r := r) op
  rw [Operation.step, PlainTable.step]
  generalize op.run r t = x, p.run t.name op = y at hrun ⊢
  cases hrun with
  | answered hnext => exact hnext
  | refused => exact h

theorem Represents.after (h : Represents t p) (ops : List (Operation × Readings)) :
    Represents (t.after ops) (p.after t.name (ops.map (·.1))) := by
  induction ops generalizing t p with
  | nil => exact h
  | cons step ops ih =>
    have hnext := ih (h.step step.1 step.2)
    rw [Operation.step_name] at hnext
    exact hnext

theorem Represents.answers (h : Represents t p) (ops : List (Operation × Readings)) :
    t.answers ops = p.reports t.name (ops.map (·.1)) := by
  induction ops generalizing t p with
  | nil => rfl
  | cons step ops ih =>
    have hnext := ih (h.step step.1 step.2)
    rw [Operation.step_name] at hnext
    rw [Table.answers, List.map_cons, PlainTable.reports_cons, h.answer, hnext]

theorem after_name (ops : List (Operation × Readings)) : (t.after ops).name = t.name := by
  induction ops generalizing t with
  | nil => rfl
  | cons step ops ih => exact ih.trans Operation.step_name

variable {name : String} {families : List Family} {id : Uuid} {now : Instant}

theorem represents_of_create (h : create name families id now = .ok t) :
    Represents t (.blank families) := by
  obtain ⟨hnew, rfl⟩ := create_eq_ok.mp h
  obtain ⟨-, -, hfamilies⟩ := bind_eq_ok.mp hnew
  exact ⟨.nil, (checkFamilies_eq_ok_iff.mp hfamilies).1, rfl, rfl, fun k => rfl⟩

/-- A table that was created behaves as the plain map with its families: after any history all
answers were those of the map, schema, state and values are those of the map, and so is what reads
show. The numbers of versions are told in 32 bits, which is all of them until a cell has 2^32
values. -/
theorem agrees_of_create (h : create name families id now = .ok t)
    (ops : List (Operation × Readings)) :
    t.answers ops = (PlainTable.blank families).reports name (ops.map (·.1)) ∧
      ((∀ n, .ok (some n) ∈ (PlainTable.blank families).answers name (ops.map (·.1)) → n < 2 ^ 32) →
        t.answers ops = (PlainTable.blank families).answers name (ops.map (·.1))) ∧
      Represents (t.after ops) ((PlainTable.blank families).after name (ops.map (·.1))) ∧
      ∀ row family qualifier versions,
        ((t.after ops).getVersions row family qualifier versions).map (List.map Cell.reading) =
          ((PlainTable.blank families).after name (ops.map (·.1))).getVersions name row family
            qualifier versions := by
  have hname : t.name = name := by
    obtain ⟨-, rfl⟩ := create_eq_ok.mp h
    rfl
  subst hname
  have hafter := (represents_of_create h).after ops
  have hanswers := (represents_of_create h).answers ops
  refine ⟨hanswers, fun hfew => ?_, hafter, fun row family qualifier versions => ?_⟩
  · rw [hanswers, PlainTable.reports_of_lt hfew]
  · rw [hafter.getVersions, after_name]

theorem agrees_blank :
    create "t" [{ name := "f" }] (.ofRandom 7) .epoch =
        .ok (blank "t" [{ name := "f" }] (.ofRandom 7) .epoch) ∧
      (∀ n, .ok (some n) ∈ (PlainTable.blank [{ name := "f" }]).answers "t"
        [.put "r" "f" "q" "v", .put "r" "f" "q" "w", .put "r" "g" "q" "v", .deleteRow "r"] →
        n < 2 ^ 32) ∧
      (blank "t" [{ name := "f" }] (.ofRandom 7) .epoch).answers
          [(.put "r" "f" "q" "v", ⟨.epoch, .epoch⟩), (.put "r" "f" "q" "w", ⟨.epoch, .epoch⟩),
            (.put "r" "g" "q" "v", ⟨.epoch, .epoch⟩), (.deleteRow "r", ⟨.epoch, .epoch⟩)] =
        [.ok (some 1), .ok (some 2), .error (.noFamily "g" "t"), .ok (some 1)] := by
  have hanswers : (PlainTable.blank [{ name := "f" }]).answers "t"
      [.put "r" "f" "q" "v", .put "r" "f" "q" "w", .put "r" "g" "q" "v", .deleteRow "r"] =
        [.ok (some 1), .ok (some 2), .error (.noFamily "g" "t"), .ok (some 1)] := rfl
  have hfew : ∀ n, .ok (some n) ∈ (PlainTable.blank [{ name := "f" }]).answers "t"
      [.put "r" "f" "q" "v", .put "r" "f" "q" "w", .put "r" "g" "q" "v", .deleteRow "r"] →
          n < 2 ^ 32 := by
    intro n hn
    rw [hanswers] at hn
    simp only [List.mem_cons, Except.ok.injEq, Option.some.injEq, reduceCtorEq, false_or,
      List.not_mem_nil, or_false] at hn
    omega
  exact ⟨rfl, hfew, ((agrees_of_create rfl _).2.1 hfew).trans hanswers⟩

end Table

end WideColumn
