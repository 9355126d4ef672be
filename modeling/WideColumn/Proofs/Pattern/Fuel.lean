import WideColumn.Proofs.Pattern.Readers

/-! # More fuel reads no more

A step of a reader that runs on fuel takes a character or hands the text on once. So twice the
length of the text is fuel enough, and what is read does not depend on how much more there is. -/
namespace WideColumn.Pattern.Reader
open Rest

variable {n m : Nat} {cs : List Char}

/-- What comes after a step counts only for the text that the step leaves. -/
theorem bind_congr_rest {α β γ : Type} [Rest α] [Rest β] {lax : Prop} {h : α → Option β}
    (hh : Local lax h) {a : α} {k k' : β → Option γ}
    (heq : ∀ b, (rest b).length ≤ (rest a).length → k b = k' b) : h a >>= k = h a >>= k' :=
  Option.bind_congr fun b hb => heq b (hh.suffix a b hb).length_le

theorem length_of_skip {f : Flags} {c : Char} {ds : List Char} (h : f.skip cs = c :: ds) :
    ds.length < cs.length := by
  have hskip := (skip_suffix f cs).length_le
  rw [h] at hskip
  exact hskip

theorem fuel_class (f : Flags) :
    (∀ cs m, 2 * cs.length + 2 ≤ n → 2 * cs.length + 2 ≤ m → classOf n f cs = classOf m f cs) ∧
    ∀ cs m pending s, 2 * cs.length + 1 ≤ n → 2 * cs.length + 1 ≤ m →
      classRest n f pending s cs = classRest m f pending s cs := by
  induction n with
  | zero =>
    constructor
    · intro cs m hn
      cases hn
    · intro cs m pending s hn
      cases hn
  | succ n ih =>
    obtain ⟨hclass, hrest⟩ := ih
    constructor
    · intro cs m hn hm
      obtain ⟨m, rfl⟩ := Nat.exists_eq_add_of_le' (Nat.le_trans (Nat.le_add_left 1 _) hm)
      have hcaret : (caret f cs).2.length ≤ cs.length := ((local_caret f).suffix cs _ rfl).length_le
      have hstart : (classStart f (caret f cs).2).2.length ≤ (caret f cs).2.length :=
        ((local_classStart f).suffix _ _ rfl).length_le
      show classRest n f none _ (classStart f (caret f cs).2).2 >>= _ =
        classRest m f none _ (classStart f (caret f cs).2).2 >>= _
      rw [hrest _ m none _ (by omega) (by omega)]
    · intro cs m pending s hn hm
      obtain ⟨m, rfl⟩ := Nat.exists_eq_add_of_le' (Nat.le_trans (Nat.le_add_left 1 _) hm)
      rw [classRest, classRest]
      cases hcs : f.skip cs with
      | nil => rfl
      | cons c ds =>
        have hds := length_of_skip hcs
        refine ite_congr rfl (fun _ => rfl) fun _ => ?_
        rw [classPart, hclass ds m (by omega) (by omega), ← classPart]
        refine bind_congr_rest (local_classPart (local_class m f).1 f pending s c) fun p hp => ?_
        have hp : p.2.2.length ≤ ds.length := hp
        exact hrest p.2.2 m p.1 p.2.1 (by omega) (by omega)

/-- A part depends on the reader of groups only for what follows the opening parenthesis. -/
theorem part_congr {group group' : Flags → Names → List Char → Option (Node × Names × List Char)}
    {bracket bracket' : Flags → List Char → Option (CharSet × List Char)} {f : Flags}
    {names : Names} {before : List (Option Node)} {c : Char}
    (hgroup : ∀ g names es, es.length ≤ cs.length → group g names es = group' g names es)
    (hbracket : bracket f cs = bracket' f cs) :
    part group bracket f names before c cs = part group' bracket' f names before c cs := by
  rw [part, part, hbracket]
  refine ite_congr rfl (fun _ => bind_congr_rest (local_opening f) fun p hp => ?_) fun _ => rfl
  obtain ⟨o, es⟩ := p
  cases o with
  | flags g => rfl
  | group g name =>
    refine ite_congr rfl (fun _ => rfl) fun _ => ?_
    rw [hgroup g _ es hp]

theorem fuel_group :
    (∀ cs m f names, 2 * cs.length + 2 ≤ n → 2 * cs.length + 2 ≤ m →
      alternatives n f names cs = alternatives m f names cs) ∧
    ∀ cs m f names before, 2 * cs.length + 1 ≤ n → 2 * cs.length + 1 ≤ m →
      parts n f names before cs = parts m f names before cs := by
  induction n with
  | zero =>
    constructor
    · intro cs m f names hn
      cases hn
    · intro cs m f names before hn
      cases hn
  | succ n ih =>
    obtain ⟨halternatives, hparts⟩ := ih
    constructor
    · intro cs m f names hn hm
      obtain ⟨m, rfl⟩ := Nat.exists_eq_add_of_le' (Nat.le_trans (Nat.le_add_left 1 _) hm)
      rw [alternatives, alternatives, hparts cs m f names [] (by omega) (by omega)]
      refine bind_congr_rest ((local_group m).2 f names []) fun p hp => ?_
      obtain ⟨k, f, names, es⟩ := p
      refine ite_congr rfl (fun hbar => ?_) fun _ => rfl
      have hes : es.length ≤ cs.length := hp
      cases es with
      | nil => cases hbar
      | cons c es =>
        rw [List.length_cons] at hes
        rw [List.tail_cons, halternatives es m f names (by omega) (by omega)]
    · intro cs m f names before hn hm
      obtain ⟨m, rfl⟩ := Nat.exists_eq_add_of_le' (Nat.le_trans (Nat.le_add_left 1 _) hm)
      rw [parts, parts]
      cases hcs : f.skip cs with
      | nil => rfl
      | cons c ds =>
        have hds := length_of_skip hcs
        have hpart : part (alternatives n) (classOf n) f names before c ds =
            part (alternatives m) (classOf m) f names before c ds :=
          part_congr (fun g names es hes => halternatives es m g names (by omega) (by omega))
            ((fuel_class f).1 ds m (by omega) (by omega))
        refine ite_congr rfl (fun _ => rfl) fun _ => ?_
        rw [hpart]
        refine bind_congr_rest
          (local_part (local_group m).1 (fun f => (local_class m f).1) f names before c)
          fun p hp => ?_
        have hp : p.2.2.2.length ≤ ds.length := hp
        exact hparts p.2.2.2 m p.1 p.2.1 p.2.2.1 (by omega) (by omega)

end WideColumn.Pattern.Reader
