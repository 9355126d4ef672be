import Mathlib.Data.List.Sort
import WideColumn.Proofs.Table.Agreement
import WideColumn.Proofs.Table.RowCount

/-! # Puts to different cells may change places

What a put stores depends on what was stored in its cell and on nothing else. So two orders of the
same puts that agree on each single cell give each put the same number and end in the same entries,
however the entries came to be inserted; only the times of the versions may differ. -/
namespace WideColumn
open WideColumn.Schema WideColumn.Time

theorem eq_of_mem_iff_of_asymm {α : Type} {r : α → α → Prop} {l l' : List α}
    (hasymm : ∀ a b, r a b → ¬ r b a) (h : l.Pairwise r) (h' : l'.Pairwise r)
    (hmem : ∀ a, a ∈ l ↔ a ∈ l') : l = l' := by
  have hantisymm : Std.Antisymm r := ⟨fun a b hab hba => absurd hba (hasymm a b hab)⟩
  have hirrefl : Std.Irrefl r := ⟨fun a haa => hasymm a a haa haa⟩
  exact h.eq_of_mem_iff h' hmem

namespace KeyedList

variable {β γ : Type} {f : β → γ} {l l' : KeyedList β}

theorem mem_map_iff (h : Ascending l) {p : String × γ} :
    p ∈ l.map (fun q => (q.1, f q.2)) ↔ (find? p.1 l).map f = some p.2 := by
  rw [List.mem_map, Option.map_eq_some_iff]
  constructor
  · rintro ⟨q, hq, rfl⟩
    exact ⟨q.2, find?_of_mem h.nodup_keys hq, rfl⟩
  · rintro ⟨b, hb, hp⟩
    exact ⟨(p.1, b), mem_of_find? hb, Prod.ext rfl hp⟩

/-- Ascending lists in which the same is found are the same, as far as it shows. -/
theorem map_eq_of_find? (h : Ascending l) (h' : Ascending l')
    (hfind : ∀ k, (find? k l).map f = (find? k l').map f) :
    l.map (fun q => (q.1, f q.2)) = l'.map fun q => (q.1, f q.2) := by
  refine eq_of_mem_iff_of_asymm (r := fun p q => p.1 < q.1) (fun _ _ => String.lt_asymm) ?_ ?_
    fun p => ?_
  · exact List.pairwise_map.mpr h
  · exact List.pairwise_map.mpr h'
  · rw [mem_map_iff h, mem_map_iff h', hfind]

end KeyedList

namespace History

/-- The versions with their numbers, the newest first, without their times. -/
def untimed (h : History) : List (Nat × String) := h.numbered.map fun v => (v.1, v.2.value)

/-- The values of a cell, the oldest first; none if there is no history of it. -/
def stored (h : Option History) : List String := h.elim [] fun h => h.oldestFirst.map (·.value)

theorem untimed_eq (h : History) :
    h.untimed = ((h.oldestFirst.map (·.value)).zipIdx 1).reverse.map Prod.swap := by
  rw [untimed, numbered_eq, List.zipIdx_map, ← List.map_reverse, List.map_map, List.map_map]
  rfl

theorem stored_ne_nil (h : History) : stored (some h) ≠ [] := by
  simpa [stored] using h.oldestFirst_ne_nil

/-- The values of a cell, with their numbers, are given by their order. -/
theorem map_untimed_eq {h h' : Option History} (heq : stored h = stored h') :
    h.map untimed = h'.map untimed := by
  cases h with
  | none =>
    cases h' with
    | none => rfl
    | some h' => exact absurd heq.symm (stored_ne_nil h')
  | some h =>
    cases h' with
    | none => exact absurd heq (stored_ne_nil h)
    | some h' =>
      have hvalues : h.oldestFirst.map (·.value) = h'.oldestFirst.map (·.value) := heq
      rw [Option.map_some, Option.map_some, untimed_eq, untimed_eq, hvalues]

theorem stored_extend (h : Option History) (now : Instant) (value : String) :
    stored (some (extend h now value)) = stored h ++ [value] := by
  cases h with
  | none => rfl
  | some h => simp [stored, extend, push, oldestFirst, newestFirst]

theorem length_stored (h : History) : (stored (some h)).length = h.length := by
  rw [stored, Option.elim_some, List.length_map, length_oldestFirst]

end History

def Entry.untimed (e : Entry) : String × String × List (String × List (Nat × String)) :=
  (e.row, e.family, e.cells.map fun cell => (cell.1, cell.2.untimed))

namespace Entries

variable {es fs : List Entry} {e : Entry}

private theorem mem_map_untimed (hs : Sound es) (ht : Sound fs)
    (hfind : ∀ row family qualifier, (find? es row family qualifier).map History.untimed =
      (find? fs row family qualifier).map History.untimed)
    (he : e ∈ es) : e.untimed ∈ fs.map Entry.untimed := by
  obtain ⟨cell, hcell⟩ := List.exists_mem_of_ne_nil _ (hs.ordered.2 e he)
  have hthere : find? es e.row e.family cell.1 = KeyedList.find? cell.1 e.cells :=
    hs.ordered.find?_of_mem he
  rw [KeyedList.find?_of_mem (hs.ascending e he).nodup_keys hcell] at hthere
  have hsame := hfind e.row e.family cell.1
  rw [hthere, Option.map_some, eq_comm, Option.map_eq_some_iff] at hsame
  obtain ⟨h, hh, -⟩ := hsame
  obtain ⟨a, ha, hrow, hfamily, -⟩ := ht.ordered.mem_of_find? hh
  refine List.mem_map.mpr ⟨a, ha, ?_⟩
  rw [Entry.untimed, Entry.untimed, hrow, hfamily]
  refine congrArg (fun cells => (e.row, e.family, cells)) ?_
  refine KeyedList.map_eq_of_find? (ht.ascending a ha) (hs.ascending e he) fun q => ?_
  rw [← hs.ordered.find?_of_mem he, ← ht.ordered.find?_of_mem ha, hrow, hfamily, hfind]

/-- Entries are given by the histories of the cells: there is one order, one grouping of them. -/
theorem map_untimed_eq_of_find? (hs : Sound es) (ht : Sound fs)
    (hfind : ∀ row family qualifier, (find? es row family qualifier).map History.untimed =
      (find? fs row family qualifier).map History.untimed)
    : es.map Entry.untimed = fs.map Entry.untimed := by
  have hpairwise {es : List Entry} (hs : Sound es) : (es.map Entry.untimed).Pairwise fun a b =>
      a.1 < b.1 ∨ a.1 = b.1 ∧ a.2.1 < b.2.1 :=
    List.pairwise_map.mpr (hs.ordered.1.imp Entry.precedes_iff.mp)
  refine eq_of_mem_iff_of_asymm (fun a b hab hba => ?_) (hpairwise hs) (hpairwise ht) fun a =>
    ⟨?_, ?_⟩
  · rcases hab with hrow | ⟨hrow, hfamily⟩
    · rcases hba with hrow' | ⟨hrow', -⟩
      · exact String.lt_asymm hrow hrow'
      · exact String.lt_irrefl _ (hrow' ▸ hrow)
    · rcases hba with hrow' | ⟨-, hfamily'⟩
      · exact String.lt_irrefl _ (hrow ▸ hrow')
      · exact String.lt_asymm hfamily hfamily'
  · intro ha
    obtain ⟨e, he, rfl⟩ := List.mem_map.mp ha
    exact mem_map_untimed hs ht hfind he
  · intro ha
    obtain ⟨e, he, rfl⟩ := List.mem_map.mp ha
    exact mem_map_untimed ht hs (fun _ _ _ => (hfind ..).symm) he

end Entries

namespace Table

structure Put where
  cell : CellPlace
  value : String

def puts (ps : List (Put × Readings)) : List (Operation × Readings) :=
  ps.map fun p => (.put p.1.cell.row p.1.cell.family p.1.cell.qualifier p.1.value, p.2)

theorem puts_cons (p : Put) (r : Readings) (ps : List (Put × Readings)) :
    puts ((p, r) :: ps) = (.put p.cell.row p.cell.family p.cell.qualifier p.value, r) :: puts ps :=
      rfl

def valuesAt (t : Table) (c : CellPlace) : List String :=
  History.stored (t.history? c.row c.family c.qualifier)

/-- Puts have been carried out on a table, and answered with the numbers of the versions. -/
structure Stored (t : Table) (ps : List Put) (numbers : List UInt32) (next : Table) : Prop where
  enabled : next.disabled = false
  families : next.families = t.families
  sound : Entries.Sound next.entries
  values : ∀ c, next.valuesAt c = t.valuesAt c ++ (ps.filter fun p => p.cell = c).map (·.value)
  numbers : ∀ c, (ps.zip numbers).filter (fun p => p.1.cell = c) =
    ((ps.filter fun p => p.cell = c).zipIdx ((t.valuesAt c).length + 1)).map fun p =>
      (p.1, .ofNat p.2)
  /-- The count went up with the entries. -/
  counted : ∃ k, next.rowCount = t.rowCount + .ofNat k ∧ next.entries.length = t.entries.length + k

variable {t next : Table} {p : Put} {r : Readings} {ps qs : List (Put × Readings)}

private theorem cell_eq_iff {c d : CellPlace} :
    c = d ↔ d.row = c.row ∧ d.family = c.family ∧ d.qualifier = c.qualifier := by
  rw [CellPlace.ext_iff, eq_comm, eq_comm (a := c.family), eq_comm (a := c.qualifier)]

theorem valuesAt_put {n : UInt32} (hs : Entries.Sound t.entries)
    (h : t.put r p.cell.row p.cell.family p.cell.qualifier p.value = .ok (n, next))
    (c : CellPlace) :
    next.valuesAt c = t.valuesAt c ++ ([p].filter fun p => p.cell = c).map (·.value) := by
  obtain ⟨-, -, -, rfl⟩ := put_eq_ok.mp h
  refine (congrArg History.stored (hs.find?_put ..)).trans ?_
  by_cases hc : p.cell = c
  · subst hc
    rw [if_pos ⟨rfl, rfl, rfl⟩, History.stored_extend]
    simp [valuesAt, history?]
  · rw [if_neg fun h => hc (cell_eq_iff.mpr h)]
    simp [hc, valuesAt, history?]

theorem number_of_put {n : UInt32} (hs : Entries.Sound t.entries)
    (h : t.put r p.cell.row p.cell.family p.cell.qualifier p.value = .ok (n, next)) :
    n = .ofNat ((t.valuesAt p.cell).length + 1) := by
  obtain ⟨-, -, rfl, -⟩ := put_eq_ok.mp h
  rw [hs.ordered.put_number, History.count, ← History.length_stored, History.stored_extend,
    List.length_append]
  rfl

theorem counted_of_put {row family qualifier value : String} {n : UInt32}
    (hs : Entries.Sound t.entries) (h : t.put r row family qualifier value = .ok (n, next)) :
    ∃ k, next.rowCount = t.rowCount + .ofNat k ∧ next.entries.length = t.entries.length + k := by
  obtain ⟨-, -, -, rfl⟩ := put_eq_ok.mp h
  have hlength := hs.ordered.length_put row family qualifier r.version value
  cases hnew : (Entries.put t.entries row family qualifier r.version value).2.2 with
  | true => exact ⟨1, rfl, by rwa [hnew] at hlength⟩
  | false => exact ⟨0, (UInt64.add_zero _).symm, by rwa [hnew] at hlength⟩

theorem stored_of_put {n : UInt32} (hs : Entries.Sound t.entries)
    (h : t.put r p.cell.row p.cell.family p.cell.qualifier p.value = .ok (n, next)) :
    Stored t [p] [n] next := by
  have hkept : next.disabled = false ∧ next.families = t.families ∧ Entries.Sound next.entries := by
    obtain ⟨henabled, -, -, rfl⟩ := put_eq_ok.mp h
    exact ⟨henabled, rfl, hs.put ..⟩
  obtain ⟨henabled, hfamilies, hsound⟩ := hkept
  refine ⟨henabled, hfamilies, hsound, valuesAt_put hs h, fun c => ?_, counted_of_put hs h⟩
  by_cases hc : p.cell = c
  · subst hc
    simp [number_of_put hs h]
  · simp [hc]

theorem Stored.nil (hs : Entries.Sound t.entries) (henabled : t.disabled = false) :
    Stored t [] [] t :=
  ⟨henabled, rfl, hs, by simp, by simp, 0, (UInt64.add_zero _).symm, rfl⟩

theorem Stored.cons {mid : Table} {n : UInt32} {ps : List Put} {ns : List UInt32}
    (h : Stored t [p] [n] mid) (hrest : Stored mid ps ns next) :
    Stored t (p :: ps) (n :: ns) next := by
  refine ⟨hrest.enabled, hrest.families.trans h.families, hrest.sound, fun c => ?_, fun c => ?_, ?_⟩
  · rw [hrest.values, h.values, List.append_assoc, ← List.map_append, ← List.filter_append,
      List.singleton_append]
  · have hfirst := h.numbers c
    have hvalues := h.values c
    rw [List.zip_cons_cons]
    by_cases hc : p.cell = c
    · simp only [hc, List.filter_cons, decide_true, if_true, List.zip_cons_cons, List.zip_nil_left,
        List.filter_nil, List.zipIdx_cons, List.zipIdx_nil, List.map_cons, List.map_nil]
        at hfirst hvalues ⊢
      rw [hrest.numbers, hvalues, List.length_append]
      rw [(List.cons.inj hfirst).1]
      rfl
    · simp only [hc, List.filter_cons, decide_false, Bool.false_eq_true, if_false, List.filter_nil,
        List.map_nil, List.append_nil] at hvalues ⊢
      rw [hrest.numbers, hvalues]
  · obtain ⟨k, hcount, hlength⟩ := h.counted
    obtain ⟨k', hcount', hlength'⟩ := hrest.counted
    refine ⟨k + k', ?_, ?_⟩
    · rw [hcount', hcount, UInt64.ofNat_add, UInt64.add_assoc]
    · rw [hlength', hlength, Nat.add_assoc]

/-- Puts on an enabled table and families of its schema go through, one after the other. -/
theorem exists_stored (hs : Entries.Sound t.entries) (henabled : t.disabled = false)
    (hfamilies : ∀ p ∈ ps, (t.family? p.1.cell.family).isSome = true) :
    ∃ ns, t.answers (puts ps) = ns.map (fun n => .ok (some n.toNat)) ∧
      Stored t (ps.map (·.1)) ns (t.after (puts ps)) := by
  induction ps generalizing t with
  | nil => exact ⟨[], rfl, .nil hs henabled⟩
  | cons p ps ih =>
    obtain ⟨p, r⟩ := p
    obtain ⟨hfamily, hfamilies⟩ := List.forall_mem_cons.mp hfamilies
    obtain ⟨⟨n, next⟩, hput⟩ : ∃ a,
        t.put r p.cell.row p.cell.family p.cell.qualifier p.value = .ok a :=
      ⟨_, put_eq_ok.mpr ⟨henabled, hfamily, rfl, rfl⟩⟩
    have hrun : (Operation.put p.cell.row p.cell.family p.cell.qualifier p.value).run r t =
        .ok (some n.toNat, next) := by
      rw [Operation.run, hput]
      rfl
    have hstep :
        (Operation.put p.cell.row p.cell.family p.cell.qualifier p.value).step r t = next := by
      rw [Operation.step, hrun]
    have hfirst := stored_of_put hs hput
    obtain ⟨ns, hanswers, hstored⟩ := ih hfirst.sound hfirst.enabled fun q hq => by
      rw [family?, hfirst.families]
      exact hfamilies q hq
    refine ⟨n :: ns, ?_, ?_⟩
    · rw [puts_cons, answers, hstep, hanswers, hrun]
      rfl
    · rw [puts_cons, after, List.foldl_cons, hstep]
      exact hfirst.cons hstored

/-- Two lists of the same puts which have the puts to each cell in one order. -/
structure Rearranged (ps qs : List Put) : Prop where
  perm : ps.Perm qs
  order : ∀ c : CellPlace, (ps.filter fun p => p.cell = c) = qs.filter fun p => p.cell = c

/-- Batches that have no cell in common may change places. -/
theorem Rearranged.append_comm {ps qs : List Put} (h : ∀ p ∈ ps, ∀ q ∈ qs, p.cell ≠ q.cell) :
    Rearranged (ps ++ qs) (qs ++ ps) := by
  refine ⟨List.perm_append_comm, fun c => ?_⟩
  rw [List.filter_append, List.filter_append]
  by_cases hc : ∃ p ∈ ps, p.cell = c
  · obtain ⟨p, hp, rfl⟩ := hc
    have hnone : (qs.filter fun q => q.cell = p.cell) = [] :=
      List.filter_eq_nil_iff.mpr fun q hq => by simpa using (h p hp q hq).symm
    rw [hnone, List.append_nil, List.nil_append]
  · have hnone : (ps.filter fun p => p.cell = c) = [] :=
      List.filter_eq_nil_iff.mpr fun p hp hpc => hc ⟨p, hp, of_decide_eq_true hpc⟩
    rw [hnone, List.append_nil, List.nil_append]

/-- Two runs of the same puts: every put is answered with a number, the same in both for the first
put to a cell, for the second and so on, and the tables are alike but for the times. -/
structure Alike (t : Table) (ps qs : List (Put × Readings)) (ns ms : List UInt32) : Prop where
  answers : t.answers (puts ps) = ns.map fun n => .ok (some n.toNat)
  answers' : t.answers (puts qs) = ms.map fun n => .ok (some n.toNat)
  numbers : ∀ c, ((ps.map (·.1)).zip ns).filter (fun p => p.1.cell = c) =
    ((qs.map (·.1)).zip ms).filter fun p => p.1.cell = c
  rowCount : (t.after (puts ps)).rowCount = (t.after (puts qs)).rowCount
  entries : (t.after (puts ps)).entries.map Entry.untimed = (t.after (puts qs)).entries.map
    Entry.untimed

/-- The order of puts shows in the order of the values of each single cell, and in nothing else but
times. -/
theorem puts_rearranged (henabled : t.disabled = false) (hs : Entries.Sound t.entries)
    (hfamilies : ∀ p ∈ ps, (t.family? p.1.cell.family).isSome = true)
    (h : Rearranged (ps.map (·.1)) (qs.map (·.1))) : ∃ ns ms, Alike t ps qs ns ms := by
  have hfamilies' : ∀ p ∈ qs, (t.family? p.1.cell.family).isSome = true := fun q hq => by
    have hmem := h.perm.mem_iff.mpr (List.mem_map_of_mem hq)
    obtain ⟨p, hp, hpq⟩ := List.mem_map.mp hmem
    rw [← hpq]
    exact hfamilies p hp
  obtain ⟨ns, hns, hps⟩ := exists_stored hs henabled hfamilies
  obtain ⟨ms, hms, hqs⟩ := exists_stored hs henabled hfamilies'
  have hentries : (t.after (puts ps)).entries.map Entry.untimed = (t.after (puts qs)).entries.map
      Entry.untimed :=
    Entries.map_untimed_eq_of_find? hps.sound hqs.sound fun row family qualifier =>
      History.map_untimed_eq ((hps.values ⟨row, family, qualifier⟩).trans <| by
        rw [h.order, ← hqs.values]; rfl)
  refine ⟨ns, ms, hns, hms, fun c => by rw [hps.numbers, hqs.numbers, h.order], ?_, hentries⟩
  obtain ⟨k, hcount, hlength⟩ := hps.counted
  obtain ⟨k', hcount', hlength'⟩ := hqs.counted
  have hsame := congrArg List.length hentries
  rw [List.length_map, List.length_map, hlength, hlength'] at hsame
  rw [hcount, hcount', Nat.add_left_cancel hsame]

def batch : List Put := [⟨⟨"r", "f", "q"⟩, "1"⟩, ⟨⟨"r", "f", "p"⟩, "2"⟩, ⟨⟨"r", "f", "q"⟩, "3"⟩]

def apart : List Put := [⟨⟨"r", "f", "o"⟩, "4"⟩, ⟨⟨"a", "f", "q"⟩, "5"⟩]

theorem puts_rearranged_batches : ∃ t, Reachable t ∧ t.valuesAt ⟨"r", "f", "q"⟩ = ["0"] ∧ ∃ ns ms,
    Alike t ((batch ++ apart).map fun p => (p, ⟨.epoch, .epoch⟩))
      ((apart ++ batch).map fun p => (p, ⟨.epoch, .epoch⟩)) ns ms := by
  have hcreated : Reachable (blank "t" [{ name := "f" }] (.ofRandom 7) .epoch) :=
    .created (create_eq_ok.mpr ⟨rfl, rfl⟩)
  have hreachable := hcreated.step (.put "r" "f" "q" "0") ⟨.epoch, .epoch⟩
  refine ⟨_, hreachable, by decide +kernel, ?_⟩
  refine puts_rearranged (by decide +kernel) hreachable.sound (by decide +kernel) ?_
  have hapart : ∀ p ∈ batch, ∀ q ∈ apart, p.cell ≠ q.cell := by decide
  exact Rearranged.append_comm hapart

end Table

end WideColumn
