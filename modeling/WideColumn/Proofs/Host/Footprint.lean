import WideColumn.Proofs.Host.Volume

/-! # The footprint of a change to a volume

A change has touched only some files of a directory if everything else is as it was. To write a file
may need its directory, so the directory and those above it may have come where nothing was. -/
namespace WideColumn.Volume

variable {u v w : Volume} {p q : Path} {n : Node} {file : String} {c : Content}
  {files files' : String → Prop}

/-- At a path there is what was there before, or a directory where nothing was. -/
def Stays (v w : Volume) (q : Path) : Prop :=
  w.node? q = v.node? q ∨ v.node? q = none ∧ w.node? q = some .directory

structure TouchesOnly (v w : Volume) (p : Path) (files : String → Prop) : Prop where
  /-- Nothing is written, removed or made but at the paths of the files. -/
  node : ∀ q, q ∉ above p ++ [p] → (∀ file, files file → q ≠ p ++ [file]) → w.node? q = v.node? q
  way : ∀ q ∈ above p ++ [p], Stays v w q

/-- What is found at a path is found there after the change, too, unless a place that may be spoiled
is on the way. -/
def KeepsBut (v w : Volume) (spoiled : Path → Prop) : Prop :=
  ∀ q n, v.find? q = .ok n → (∀ r ∈ above q ++ [q], ¬ spoiled r) → w.find? q = .ok n

/-- A place where nothing is found is on no way to anything. -/
theorem KeepsBut.mono {spoiled spoiled' : Path → Prop} (h : v.KeepsBut w spoiled)
    (hvacant : ∀ q n, spoiled q → v.find? q = .ok n → spoiled' q) : v.KeepsBut w spoiled' := by
  intro q n hq haside
  refine h q n hq fun r hr hspoiled => haside r hr ?_
  rcases List.mem_append.mp hr with habove | hself
  · exact hvacant r _ hspoiled (find?_above hq habove)
  · obtain rfl := List.mem_singleton.mp hself
    exact hvacant r n hspoiled hq

theorem Stays.trans (h : Stays u v q) (h' : Stays v w q) : Stays u w q := by
  rcases h with h | ⟨hnone, hmade⟩
  · rw [Stays, ← h]
    exact h'
  · rcases h' with h' | ⟨hnone', -⟩
    · exact .inr ⟨hnone, h'.trans hmade⟩
    · rw [hmade] at hnone'
      cases hnone'

theorem length_le_of_mem_way (h : q ∈ above p ++ [p]) : q.length ≤ p.length := by
  rcases List.mem_append.mp h with h | h
  · exact Nat.le_of_lt (length_lt_of_mem_above h)
  · exact Nat.le_of_eq (congrArg List.length (List.mem_singleton.mp h))

theorem child_not_mem_way (p : Path) (file : String) : p ++ [file] ∉ above p ++ [p] := by
  intro h
  have hlength := length_le_of_mem_way h
  rw [List.length_append, List.length_singleton] at hlength
  omega

namespace TouchesOnly

theorem refl (v : Volume) (p : Path) (files : String → Prop) : v.TouchesOnly v p files :=
  ⟨fun _ _ _ => rfl, fun _ _ => .inl rfl⟩

theorem trans (h : u.TouchesOnly v p files) (h' : v.TouchesOnly w p files) :
    u.TouchesOnly w p files where
  node q hq hfiles := (h'.node q hq hfiles).trans (h.node q hq hfiles)
  way q hq := (h.way q hq).trans (h'.way q hq)

theorem mono (h : v.TouchesOnly w p files) (hfiles : ∀ file, files file → files' file) :
    v.TouchesOnly w p files' where
  node q hq h' := h.node q hq fun file hfile => h' file (hfiles file hfile)
  way := h.way

theorem ofSameBut (h : v.SameBut w p file) (hfile : files file) : v.TouchesOnly w p files where
  node q _ hq := h.node q (hq file hfile)
  way q hq := .inl (h.node q fun heq => child_not_mem_way p file (heq ▸ hq))

/-- A file that is not touched is where it was, with the directories on its way. -/
theorem node_child (h : v.TouchesOnly w p files) (hfile : ¬ files file) :
    w.node? (p ++ [file]) = v.node? (p ++ [file]) := by
  refine h.node _ (child_not_mem_way p file) fun other hother heq => hfile ?_
  rw [List.append_cancel_left_eq, List.singleton_inj] at heq
  exact heq ▸ hother

theorem find?_child (h : v.TouchesOnly w p files) (hfile : ¬ files file)
    (hfind : v.find? (p ++ [file]) = .ok n) : w.find? (p ++ [file]) = .ok n := by
  obtain ⟨hlong, habove, hnode⟩ := find?_eq_ok_iff.mp hfind
  refine find?_eq_ok_iff.mpr ⟨hlong, fun q hq => ?_, (h.node_child hfile).trans hnode⟩
  have hdirectory := habove q hq
  rw [above_append_singleton] at hq
  rcases h.way q hq with hsame | ⟨hnone, -⟩
  · exact hsame.trans hdirectory
  · rw [hnone] at hdirectory
    cases hdirectory

/-- What is found at a path that does not lead to a file or through it is found there still. -/
theorem keepsBut (h : v.TouchesOnly w p files) :
    v.KeepsBut w fun q => ∃ file, files file ∧ q = p ++ [file] := by
  intro q n hq haside
  have hstays : ∀ r ∈ above q ++ [q], ∀ m, v.find? r = .ok m → w.node? r = v.node? r := by
    intro r hr m hm
    by_cases hway : r ∈ above p ++ [p]
    · rcases h.way r hway with hsame | ⟨hnone, -⟩
      · exact hsame
      · rw [(find?_eq_ok_iff.mp hm).2.2] at hnone
        cases hnone
    · exact h.node r hway fun file hfile heq => haside r hr ⟨file, hfile, heq⟩
  obtain ⟨habove, hself⟩ := List.forall_mem_append.mp hstays
  rw [← hq]
  exact find?_congr (fun r hr => habove r hr _ (find?_above hq hr))
    (hself q (List.mem_singleton_self q) n hq)

end TouchesOnly

theorem sameBut_of_write (h : v.write (p ++ [file]) c = .ok w) : v.SameBut w p file := by
  have hplace : w = v.place (p ++ [file]) (.file c) := by
    rw [write] at h
    split at h
    · cases h
    · cases h; rfl
    · split at h
      · cases h; rfl
      · cases h
      · cases h
    · cases h
  exact hplace ▸ sameBut_place file _

theorem sameBut_of_remove (h : v.remove (p ++ [file]) = .ok w) : v.SameBut w p file := by
  obtain ⟨c, -, rfl⟩ := remove_eq_ok h
  exact sameBut_without file

private theorem makeOnWay_child {full : Path} {name : String} (h : u.find? p = .ok .directory)
    (hw : makeOnWay full u (p ++ [name]) = .ok w) :
    w = u ∨ u.node? (p ++ [name]) = none ∧ w = u.place (p ++ [name]) .directory := by
  rw [makeOnWay] at hw
  split at hw
  · cases hw
    exact .inl rfl
  · cases hw
  · next hmissing =>
    cases hw
    refine .inr ⟨?_, rfl⟩
    rw [find?_child h] at hmissing
    split at hmissing
    · cases hmissing
    · split at hmissing
      · cases hmissing
      · next hnone => exact hnone
  · cases hw

/-- Directories on the way to a path are made where nothing was. -/
private theorem stays_of_makeOnWay {full : Path}
    (h : (above p ++ [p]).foldlM (makeOnWay full) v = .ok w) :
    (∀ q, q ∉ above p ++ [p] → w.node? q = v.node? q) ∧ ∀ q ∈ above p ++ [p], Stays v w q := by
  induction p using List.reverseRecOn generalizing w with
  | nil =>
    cases h
    exact ⟨fun _ _ => rfl, fun _ _ => .inl rfl⟩
  | append_singleton p name ih =>
    rw [above_append_singleton, List.foldlM_append] at h
    obtain ⟨u, hu, h⟩ := bind_eq_ok.mp h
    obtain ⟨_, hstep, h⟩ := bind_eq_ok.mp h
    cases h
    obtain ⟨hother, hway⟩ := ih hu
    have hlast := hother _ (child_not_mem_way p name)
    rw [above_append_singleton]
    rcases makeOnWay_child (find?_of_makeOnWay hu) hstep with rfl | ⟨hnone, rfl⟩
    · refine ⟨fun q hq => hother q fun hmem => hq (List.mem_append_left _ hmem), ?_⟩
      exact List.forall_mem_append.mpr ⟨hway, List.forall_mem_singleton.mpr (.inl hlast)⟩
    · have hbut := sameBut_place (v := u) (p := p) name .directory
      refine ⟨fun q hq => ?_,
        List.forall_mem_append.mpr ⟨fun q hq => ?_, List.forall_mem_singleton.mpr ?_⟩⟩
      · rw [List.mem_append, not_or, List.mem_singleton] at hq
        exact (hbut.node q hq.2).trans (hother q hq.1)
      · have hne : q ≠ p ++ [name] := fun heq => child_not_mem_way p name (heq ▸ hq)
        exact (hway q hq).trans (.inl (hbut.node q hne))
      · refine .inr ⟨hlast.symm.trans hnone, ?_⟩
        rw [node?_place (by simp), if_pos rfl]

theorem touchesOnly_of_makeDirectory (h : v.makeDirectory p = .ok w) : v.TouchesOnly w p files := by
  obtain ⟨hother, hway⟩ := stays_of_makeOnWay (makeDirectory_eq v p ▸ h)
  exact ⟨fun q hq _ => hother q hq, hway⟩

theorem find?_directory (h : v.find? (p ++ [file]) = .ok n) : v.find? p = .ok .directory :=
  find?_above h (by rw [above_append_singleton]; simp)

/-- What takes the place of something is found there. -/
theorem find?_place_of_find? {n' : Node} (h : v.find? (p ++ [file]) = .ok n') (n : Node) :
    (v.place (p ++ [file]) n).find? (p ++ [file]) = .ok n := by
  have hdirectory := find?_directory h
  rw [find?_child hdirectory] at h
  split at h
  · cases h
  · next hshort => exact find?_place hdirectory (Bool.eq_false_iff.mpr hshort) n

/-- Directories are where they were, and there are files where there were files. -/
structure KeepsFiles (v w : Volume) : Prop where
  directory : ∀ q, v.find? q = .ok .directory → w.find? q = .ok .directory
  file : ∀ q c, v.find? q = .ok (.file c) → ∃ c', w.find? q = .ok (.file c')

namespace KeepsFiles

protected theorem refl (v : Volume) : v.KeepsFiles v := ⟨fun _ h => h, fun _ c h => ⟨c, h⟩⟩

theorem ofMakeDirectory (h : v.makeDirectory p = .ok w) : v.KeepsFiles w := by
  have htouches : v.TouchesOnly w p fun _ => False := touchesOnly_of_makeDirectory h
  have hkeeps := htouches.keepsBut
  have hclean (q r : Path) (_ : r ∈ above q ++ [q]) : ¬ ∃ file, False ∧ r = p ++ [file] :=
      fun hspoiled => by
    obtain ⟨_, hfalse, -⟩ := hspoiled
    exact hfalse
  exact ⟨fun q hq => hkeeps q _ hq (hclean q), fun q c hq => ⟨c, hkeeps q _ hq (hclean q)⟩⟩

/-- A file is put where no directory is. -/
theorem ofPlace (hfile : v.find? (p ++ [file]) ≠ .ok .directory) (c : Content) :
    v.KeepsFiles (v.place (p ++ [file]) (.file c)) := by
  have hbut : v.SameBut (v.place (p ++ [file]) (.file c)) p file := sameBut_place file _
  have htouches : v.TouchesOnly _ p (· = file) := .ofSameBut hbut rfl
  have hkeeps := htouches.keepsBut
  -- what is found elsewhere was not found through the file
  have hother {q : Path} {n : Node} (hq : v.find? q = .ok n) (hne : q ≠ p ++ [file]) :
      (v.place (p ++ [file]) (.file c)).find? q = .ok n := by
    refine hkeeps q n hq fun r hr hspoiled => ?_
    obtain ⟨_, rfl, rfl⟩ := hspoiled
    rcases List.mem_append.mp hr with habove | hself
    · exact hfile (find?_above hq habove)
    · exact hne (List.mem_singleton.mp hself).symm
  refine ⟨fun q hq => hother hq fun heq => hfile (heq ▸ hq), fun q c' hq => ?_⟩
  by_cases hne : q = p ++ [file]
  · subst hne
    exact ⟨c, find?_place_of_find? hq _⟩
  · exact ⟨c', hother hq hne⟩

theorem ofWrite (h : v.write (p ++ [file]) c = .ok w) : v.KeepsFiles w := by
  rw [write] at h
  split at h
  · cases h
  · next c' hfound =>
    cases h
    exact .ofPlace (fun heq => by rw [heq] at hfound; cases hfound) c
  · next hmissing =>
    rw [List.dropLast_concat] at h
    split at h
    · cases h
      exact .ofPlace (fun heq => by rw [heq] at hmissing; cases hmissing) c
    · cases h
    · cases h
  · cases h

end KeepsFiles

/-- Only what is put in its place matters of a place. -/
theorem without_place (v : Volume) (p : Path) (n : Node) :
    (v.place p n).without p = v.without p := by
  rw [without, place, List.filter_append, List.filter_filter, without]
  simp

theorem place_without (v : Volume) (p : Path) (n : Node) :
    (v.without p).place p n = v.place p n := by
  rw [place, without, List.filter_filter, place]
  simp

/-- The files of some names are gone from a directory, and nothing else has changed. -/
structure Clears (v w : Volume) (p : Path) (gone : List String) : Prop where
  missing : ∀ file ∈ gone, w.find? (p ++ [file]) = .error .missing
  node : ∀ q, (∀ file ∈ gone, q ≠ p ++ [file]) → w.node? q = v.node? q

/-- To remove what is at a path does not fail, unless nothing is there. -/
def Removable (v : Volume) (p : Path) : Prop := ∀ e, v.remove p = .error e → e = .missing

theorem removable_of_find? (h : v.find? p = .ok (.file c)) : v.Removable p := by
  intro e he
  rw [remove_of_find? h] at he
  cases he

/-- Whether a removal fails depends on what is found. -/
private theorem remove_eq_error {e : DiskError} (h : w.find? p = v.find? p)
    (he : w.remove p = .error e) :
    v.remove p = .error e := by
  rw [remove, h] at he
  rw [remove]
  cases hfind : v.find? p with
  | error e' => rwa [hfind] at he
  | ok n =>
    rw [hfind] at he
    cases n with
    | directory => exact he
    | file c => cases he

namespace Clears

variable {gone : List String}

protected theorem nil (v : Volume) (p : Path) : v.Clears v p [] := ⟨by simp, fun _ _ => rfl⟩

theorem find?_child (h : v.Clears w p gone) (hfile : file ∉ gone) :
    w.find? (p ++ [file]) = v.find? (p ++ [file]) := by
  refine find?_congr (fun q hq => h.node q fun other _ heq => ?_)
    (h.node _ fun other hother heq => hfile ?_)
  · rw [above_append_singleton] at hq
    exact child_not_mem_way p other (heq ▸ hq)
  · rw [List.append_cancel_left_eq, List.singleton_inj] at heq
    exact heq ▸ hother

protected theorem cons (h : u.Clears v p [file]) (h' : v.Clears w p gone) :
    u.Clears w p (file :: gone) where
  missing := by
    refine List.forall_mem_cons.mpr ⟨?_, h'.missing⟩
    by_cases hfile : file ∈ gone
    · exact h'.missing file hfile
    · exact (h'.find?_child hfile).trans (h.missing file (List.mem_singleton_self file))
  node q hq := by
    obtain ⟨hfile, hgone⟩ := List.forall_mem_cons.mp hq
    exact (h'.node q hgone).trans (h.node q (List.forall_mem_singleton.mpr hfile))

theorem removable (h : v.Clears w p gone) (hfile : file ∉ gone) (hv : v.Removable (p ++ [file])) :
    w.Removable (p ++ [file]) := fun e he => hv e (remove_eq_error (h.find?_child hfile) he)

theorem ofRemove (h : v.remove (p ++ [file]) = .ok w) : v.Clears w p [file] := by
  obtain ⟨c, hfind, rfl⟩ := remove_eq_ok h
  refine ⟨List.forall_mem_singleton.mpr (find?_without hfind (by simp)), fun q hq => ?_⟩
  exact (sameBut_without file).node q (hq file (List.mem_singleton_self file))

theorem ofMissing (h : v.remove (p ++ [file]) = .error .missing) : v.Clears v p [file] :=
  ⟨List.forall_mem_singleton.mpr (find?_of_remove_missing h), fun _ _ => rfl⟩

end Clears

end WideColumn.Volume
