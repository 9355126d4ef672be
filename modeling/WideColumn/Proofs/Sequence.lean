/-! # Lists of steps and of named items

What a sequence of steps that may fail comes to, taken apart at its first step, and what it comes to
over a list. Then where the run at the start of a list ends, and what becomes of a list in which the
items of one name are changed. -/
namespace WideColumn

variable {ε α β : Type}

@[simp] theorem pure_eq_ok {a : α} : (pure a : Except ε α) = .ok a := rfl

@[simp] theorem throw_eq_error {e : ε} : (throw e : Except ε α) = .error e := rfl

@[simp] theorem ok_bind {a : α} {f : α → Except ε β} : (Except.ok a >>= f) = f a := rfl

@[simp] theorem error_bind {e : ε} {f : α → Except ε β} :
    ((Except.error e : Except ε α) >>= f) = .error e := rfl

theorem bind_eq_ok {x : Except ε α} {f : α → Except ε β} {b : β} :
    (x >>= f) = .ok b ↔ ∃ a, x = .ok a ∧ f a = .ok b := by
  cases x with
  | error e =>
    constructor
    · intro h
      cases h
    · intro h
      obtain ⟨a, h, -⟩ := h
      cases h
  | ok a =>
    constructor
    · exact fun h => ⟨a, rfl, h⟩
    · intro h
      obtain ⟨a, h, hf⟩ := h
      cases h
      exact hf

theorem bind_eq_error {x : Except ε α} {f : α → Except ε β} {e : ε} :
    (x >>= f) = .error e ↔ x = .error e ∨ ∃ a, x = .ok a ∧ f a = .error e := by
  cases x <;> simp

theorem map_eq_ok {f : α → β} {x : Except ε α} {b : β} :
    f <$> x = .ok b ↔ ∃ a, x = .ok a ∧ f a = b := by
  cases x with
  | error e =>
    constructor
    · intro h
      cases h
    · intro h
      obtain ⟨a, h, -⟩ := h
      cases h
  | ok a =>
    constructor
    · intro h
      cases h
      exact ⟨a, rfl, rfl⟩
    · intro h
      obtain ⟨a, h, rfl⟩ := h
      cases h
      rfl

theorem eq_ok_of_toOption {x : Except ε α} {a : α} (h : x.toOption = some a) : x = .ok a := by
  cases x <;> cases h
  rfl

/-- What a step gives goes to the next. -/
theorem bind_of_eq_some {x : Option α} {f : α → Option β} {a : α} (h : x = some a) :
    (x >>= f) = f a := by
  rw [h]
  rfl

/-- Two steps, one after the other. -/
theorem bind_bind_of_eq_some {γ : Type} {x : Option α} {g : α → Option β} {f : β → Option γ} {a : α}
    {b : β} (hx : x = some a) (hg : g a = some b) : (do let a ← x; let b ← g a; f b) = f b :=
  (bind_of_eq_some hx).trans (bind_of_eq_some hg)

theorem mapError_eq_ok {ε' : Type} {g : ε → ε'} {x : Except ε α} {a : α} :
    x.mapError g = .ok a ↔ x = .ok a := by
  cases x with
  | error e =>
    constructor <;> intro h <;> cases h
  | ok b =>
    constructor <;> intro h <;> cases h <;> rfl

theorem mapM_eq_some_map {f : α → Option β} {g : α → β} {l : List α}
    (h : ∀ a ∈ l, f a = some (g a)) :
    l.mapM f = some (l.map g) := by
  induction l with
  | nil => rfl
  | cons a l ih =>
    obtain ⟨ha, hl⟩ := List.forall_mem_cons.mp h
    rw [List.mapM_cons, ha, ih hl]
    rfl

theorem mapM_eq_ok_map {f : α → Except ε β} {g : α → β} {l : List α}
    (h : ∀ a ∈ l, f a = .ok (g a)) :
    l.mapM f = .ok (l.map g) := by
  induction l with
  | nil => rfl
  | cons a l ih =>
    obtain ⟨ha, hl⟩ := List.forall_mem_cons.mp h
    rw [List.mapM_cons, ha, ih hl]
    rfl

/-- A step that gives back each written item gives back the list. -/
theorem mapM_map_eq_some {read : β → Option α} {write : α → β} {l : List α}
    (h : ∀ a ∈ l, read (write a) = some a) : (l.map write).mapM read = some l := by
  have hall := mapM_eq_some_map h
  rw [List.map_id'] at hall
  exact List.mapM_map.trans hall

theorem mapM_map_eq_ok {read : β → Except ε α} {write : α → β} {l : List α}
    (h : ∀ a ∈ l, read (write a) = .ok a) : (l.map write).mapM read = .ok l := by
  have hall := mapM_eq_ok_map h
  rw [List.map_id'] at hall
  exact List.mapM_map.trans hall

theorem mapM_cons_eq_ok {f : α → Except ε β} {a : α} {l : List α} {bs : List β} :
    (a :: l).mapM f = .ok bs ↔ ∃ b cs, f a = .ok b ∧ l.mapM f = .ok cs ∧ bs = b :: cs := by
  rw [List.mapM_cons, bind_eq_ok]
  constructor
  · intro h
    obtain ⟨b, hb, h⟩ := h
    obtain ⟨cs, hcs, h⟩ := bind_eq_ok.mp h
    cases h
    exact ⟨b, cs, hb, hcs, rfl⟩
  · intro h
    obtain ⟨b, cs, hb, hcs, rfl⟩ := h
    exact ⟨b, hb, bind_eq_ok.mpr ⟨cs, hcs, rfl⟩⟩

theorem exists_of_mapM_eq_ok {f : α → Except ε β} {l : List α} {bs : List β}
    (h : l.mapM f = .ok bs) {b : β} (hb : b ∈ bs) : ∃ a ∈ l, f a = .ok b := by
  induction l generalizing bs with
  | nil => cases h; cases hb
  | cons a l ih =>
    obtain ⟨c, cs, hc, hcs, rfl⟩ := mapM_cons_eq_ok.mp h
    rcases List.mem_cons.mp hb with rfl | hb
    · exact ⟨a, List.mem_cons_self, hc⟩
    · obtain ⟨x, hx, hfx⟩ := ih hcs hb
      exact ⟨x, List.mem_cons_of_mem a hx, hfx⟩

theorem forall_of_mapM_eq_ok {f : α → Except ε β} {l : List α} {bs : List β}
    (h : l.mapM f = .ok bs) :
    ∀ a ∈ l, ∃ b, f a = .ok b := by
  induction l generalizing bs with
  | nil => exact List.forall_mem_nil _
  | cons a l ih =>
    obtain ⟨b, cs, hb, hcs, -⟩ := mapM_cons_eq_ok.mp h
    exact List.forall_mem_cons.mpr ⟨⟨b, hb⟩, ih hcs⟩

/-- Steps that fail stop at the first item that fails. -/
theorem exists_of_mapM_eq_error {f : α → Except ε β} {l : List α} {e : ε}
    (h : l.mapM f = .error e) :
    ∃ before a after, l = before ++ a :: after ∧ f a = .error e ∧ ∀ b ∈ before, ∃ c,
    f b = .ok c := by
  induction l with
  | nil => cases h
  | cons a l ih =>
    rw [List.mapM_cons] at h
    cases ha : f a with
    | error e' =>
      rw [ha] at h
      cases h
      exact ⟨[], a, l, rfl, ha, List.forall_mem_nil _⟩
    | ok c =>
      cases hl : l.mapM f with
      | ok cs =>
        rw [ha, hl] at h
        cases h
      | error e' =>
        rw [ha, hl] at h
        cases h
        obtain ⟨before, b, after, rfl, hb, hbefore⟩ := ih hl
        exact ⟨a :: before, b, after, rfl, hb, List.forall_mem_cons.mpr ⟨⟨c, ha⟩, hbefore⟩⟩

theorem exists_of_mapM_eq_some {f : α → Option β} {l : List α} {bs : List β}
    (h : l.mapM f = some bs) {b : β} (hb : b ∈ bs) : ∃ a ∈ l, f a = some b := by
  induction l generalizing bs with
  | nil => cases h; cases hb
  | cons a l ih =>
    rw [List.mapM_cons] at h
    obtain ⟨c, hc, h⟩ := Option.bind_eq_some_iff.mp h
    obtain ⟨cs, hcs, h⟩ := Option.bind_eq_some_iff.mp h
    cases h
    rcases List.mem_cons.mp hb with rfl | hb
    · exact ⟨a, List.mem_cons_self, hc⟩
    · obtain ⟨x, hx, hfx⟩ := ih hcs hb
      exact ⟨x, List.mem_cons_of_mem a hx, hfx⟩

theorem length_of_mapM_eq_some {f : α → Option β} {l : List α} {bs : List β}
    (h : l.mapM f = some bs) :
    bs.length = l.length := by
  induction l generalizing bs with
  | nil => cases h; rfl
  | cons a l ih =>
    rw [List.mapM_cons] at h
    obtain ⟨c, -, h⟩ := Option.bind_eq_some_iff.mp h
    obtain ⟨cs, hcs, h⟩ := Option.bind_eq_some_iff.mp h
    cases h
    rw [List.length_cons, List.length_cons, ih hcs]

/-- Steps that leave something of each item as it was leave the list of it as it was. -/
theorem map_eq_of_mapM_eq_ok {γ : Type} {f : α → Except ε β} {g : α → γ} {g' : β → γ} {l : List α}
    {bs : List β} (h : l.mapM f = .ok bs) (hf : ∀ a b, f a = .ok b → g' b = g a) :
    bs.map g' = l.map g := by
  induction l generalizing bs with
  | nil => cases h; rfl
  | cons a l ih =>
    obtain ⟨c, cs, hc, hcs, rfl⟩ := mapM_cons_eq_ok.mp h
    rw [List.map_cons, List.map_cons, hf a c hc, ih hcs]

/-- Where at most one item has a property, the search for it does not depend on the order. -/
theorem find?_eq_some_iff_of_unique {p : α → Bool} {l : List α} {a : α} (hall : ∀ a, a ∈ l)
    (hunique : ∀ a b, p a = true → p b = true → a = b) : l.find? p = some a ↔ p a = true := by
  constructor
  · exact List.find?_some
  · intro ha
    obtain ⟨b, hb⟩ := Option.isSome_iff_exists.mp (List.find?_isSome.mpr ⟨a, hall a, ha⟩)
    rw [hb, hunique a b ha (List.find?_some hb)]

/-- A run goes no further than the first item that is not of its kind. -/
theorem takeWhile_append_of_stop {p : α → Bool} {l l' : List α} (h : ∀ a ∈ l, p a = true)
    (hstop : ∀ a ∈ l'.head?, p a = false) : (l ++ l').takeWhile p = l := by
  rw [List.takeWhile_append_of_pos h]
  cases l' with
  | nil => exact List.append_nil l
  | cons a l' => rw [List.takeWhile_cons_of_neg (by simp [hstop a rfl]), List.append_nil]

theorem dropWhile_append_of_stop {p : α → Bool} {l l' : List α} (h : ∀ a ∈ l, p a = true)
    (hstop : ∀ a ∈ l'.head?, p a = false) : (l ++ l').dropWhile p = l' := by
  rw [List.dropWhile_append_of_pos h]
  cases l' with
  | nil => rfl
  | cons a l' => exact List.dropWhile_cons_of_neg (by simp [hstop a rfl])

/-- An item that is not of the kind ends the run, wherever the run starts. -/
theorem takeWhile_append_cons_of_neg {p : α → Bool} {l l' : List α} {a : α} (ha : p a = false) :
    (l ++ a :: l').takeWhile p = l.takeWhile p := by
  induction l with
  | nil => exact List.takeWhile_cons_of_neg (by simp [ha])
  | cons b l ih => rw [List.cons_append, List.takeWhile_cons, List.takeWhile_cons, ih]

theorem dropWhile_append_cons_of_neg {p : α → Bool} {l l' : List α} {a : α} (ha : p a = false) :
    (l ++ a :: l').dropWhile p = l.dropWhile p ++ a :: l' := by
  induction l with
  | nil => exact List.dropWhile_cons_of_neg (by simp [ha])
  | cons b l ih =>
    rw [List.cons_append, List.dropWhile_cons, List.dropWhile_cons, ih]
    split <;> rfl

theorem eq_false_of_mem_head?_dropWhile {p : α → Bool} {l : List α} :
    ∀ a ∈ (l.dropWhile p).head?, p a = false := by
  intro a ha
  have hhead := List.head?_dropWhile_not p l
  rw [Option.mem_def.mp ha] at hhead
  simpa using hhead

variable {name : α → String} {n : String} {g : α → α} {l : List α}

theorem map_ite_of_not_mem (h : n ∉ l.map name) :
    (l.map fun a => if name a = n then g a else a) = l := by
  have hall : (l.map fun a => if name a = n then g a else a) = l.map fun a => a :=
    List.map_congr_left fun a ha => if_neg fun hn => h (List.mem_map.mpr ⟨a, ha, hn⟩)
  rw [hall, List.map_id']

/-- Of items with distinct names there is one of each. -/
theorem filter_eq_singleton {κ : Type} [DecidableEq κ] {key : α → κ} {a : α} (h : (l.map key).Nodup)
    (ha : a ∈ l) :
    (l.filter fun b => key b = key a) = [a] := by
  induction l with
  | nil => cases ha
  | cons b l ih =>
    rw [List.map_cons, List.nodup_cons] at h
    obtain ⟨hb, hl⟩ := h
    rcases List.mem_cons.mp ha with rfl | ha
    · have hrest : (l.filter fun b => key b = key a) = [] := by
        refine List.filter_eq_nil_iff.mpr fun c hc heq => hb ?_
        exact List.mem_map.mpr ⟨c, hc, of_decide_eq_true heq⟩
      rw [List.filter_cons_of_pos (by simp), hrest]
    · have hne : key b ≠ key a := fun heq => hb (heq ▸ List.mem_map.mpr ⟨a, ha, rfl⟩)
      rw [List.filter_cons_of_neg (by simpa using hne), ih hl ha]

theorem names_map_ite (name : α → String) (g : α → α) (l : List α)
    (h : ∀ a, name a = n → name (g a) = n) :
    (l.map fun a => if name a = n then g a else a).map name = l.map name := by
  rw [List.map_map]
  apply List.map_congr_left
  intro a _
  dsimp only [Function.comp]
  split
  · next ha => exact (h a ha).trans ha.symm
  · rfl

end WideColumn
