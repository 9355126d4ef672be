import Mathlib.Data.List.Induction
import WideColumn.Host.Volume
import WideColumn.Proofs.Sequence

/-! # What the operations on a volume change

A volume has each path once. What is put at a path or taken from it changes what is found there and
nowhere else, so a directory keeps its other files. -/
namespace WideColumn.Volume

variable {v w : Volume} {p q : Path} {n : Node} {name file : String} {c : Content}

/-- No path stands twice. -/
def Sound (v : Volume) : Prop := (v.nodes.map (·.1)).Nodup

theorem node?_eq (hp : p ≠ []) : v.node? p = (v.nodes.find? fun e => e.1 == p).map (·.2) := by
  rw [node?, if_neg (by simpa using hp)]

theorem Sound.node?_eq_some_iff (h : v.Sound) (hp : p ≠ []) :
    v.node? p = some n ↔ (p, n) ∈ v.nodes := by
  rw [node?_eq hp, Option.map_eq_some_iff]
  constructor
  · intro h
    obtain ⟨⟨q, m⟩, hfind, rfl⟩ := h
    have hq : q = p := by simpa using List.find?_some hfind
    exact hq ▸ List.mem_of_find?_eq_some hfind
  · intro hmem
    refine ⟨(p, n), List.find?_eq_some_iff_append.mpr ⟨beq_self_eq_true p, ?_⟩, rfl⟩
    obtain ⟨before, after, hsplit⟩ := List.append_of_mem hmem
    refine ⟨before, after, hsplit, fun e he => ?_⟩
    rw [Sound, hsplit, List.map_append, List.nodup_append] at h
    have hne := h.2.2 e.1 (List.mem_map.mpr ⟨e, he, rfl⟩) p (by simp)
    simpa using hne

/-- The volume without a path. -/
def without (v : Volume) (p : Path) : Volume := ⟨v.nodes.filter fun e => e.1 != p⟩

private theorem find?_filter_ne {l : List (Path × Node)} :
    (l.filter fun e => e.1 != p).find? (fun e => e.1 == q) =
      if q = p then none else l.find? fun e => e.1 == q := by
  rw [List.find?_filter]
  split
  · next h =>
    subst h
    exact List.find?_eq_none.mpr fun e _ => by simp
  · next h =>
    congr 1
    funext e
    by_cases he : e.1 = q <;> simp [he, h]

theorem node?_without (hp : p ≠ []) :
    (v.without p).node? q = if q = p then none else v.node? q := by
  by_cases hq : q = []
  · subst hq
    rw [if_neg (Ne.symm hp)]
    rfl
  · rw [node?_eq hq, node?_eq hq, without, find?_filter_ne]
    split <;> rfl

theorem node?_place (hp : p ≠ []) :
    (v.place p n).node? q = if q = p then some n else v.node? q := by
  by_cases hq : q = []
  · subst hq
    rw [if_neg (Ne.symm hp)]
    rfl
  · rw [node?_eq hq, node?_eq hq, place, List.find?_append, find?_filter_ne]
    by_cases hqp : q = p
    · simp [hqp]
    · simp [hqp, Ne.symm hqp]

theorem Sound.without (h : v.Sound) (p : Path) : (v.without p).Sound :=
  h.sublist (List.filter_sublist.map _)

theorem Sound.place (h : v.Sound) (p : Path) (n : Node) : (v.place p n).Sound := by
  rw [Sound, Volume.place, List.map_append, List.map_singleton]
  refine List.nodup_append.mpr ⟨h.without p, List.pairwise_singleton _ p, ?_⟩
  intro q hq _ hp heq
  subst heq
  obtain ⟨e, he, heq⟩ := List.mem_map.mp hq
  have hne : e.1 ≠ p := by simpa using (List.mem_filter.mp he).2
  exact hne (heq.trans (List.mem_singleton.mp hp))

theorem find?_eq_ok_iff : v.find? p = .ok n ↔
    tooLong p = false ∧ (∀ q ∈ above p, v.node? q = some .directory) ∧ v.node? p = some n := by
  have hway : (above p).find? (fun q => v.node? q != some .directory) = none ↔
      ∀ q ∈ above p, v.node? q = some .directory := by simp
  rw [find?]
  cases hlong : tooLong p with
  | true => simp
  | false =>
    rw [if_neg Bool.false_ne_true, ← hway]
    split
    · next q hq => simp [hq]
    · next hnone =>
      rw [and_iff_right hnone, and_iff_right rfl]
      cases v.node? p <;> simp

private theorem find?_way_congr {l : List Path} (h : ∀ q ∈ l, w.node? q = v.node? q) :
    l.find? (fun q => w.node? q != some .directory) =
      l.find? fun q => v.node? q != some .directory := by
  induction l with
  | nil => rfl
  | cons q l ih =>
    obtain ⟨hq, hl⟩ := List.forall_mem_cons.mp h
    rw [List.find?_cons, List.find?_cons, hq, ih hl]

/-- What is found at a path depends on that path and those above it. -/
theorem find?_congr (h : ∀ q ∈ above p, w.node? q = v.node? q) (hp : w.node? p = v.node? p) :
    w.find? p = v.find? p := by
  unfold find?
  rw [find?_way_congr h, hp]
  split
  · rfl
  · split
    · next q hq => rw [h q (List.mem_of_find?_eq_some hq)]
    · rfl

theorem above_append_singleton (p : Path) (name : String) :
    above (p ++ [name]) = above p ++ [p] := by
  rw [above, List.length_append, List.length_singleton, List.range_succ, List.map_append,
    List.map_singleton, List.take_left, above]
  refine congrArg (· ++ [p]) (List.map_congr_left fun i hi => ?_)
  exact List.take_append_of_le_length (Nat.le_of_lt (List.mem_range.mp hi))

theorem length_lt_of_mem_above (h : q ∈ above p) : q.length < p.length := by
  obtain ⟨i, hi, rfl⟩ := List.mem_map.mp h
  rw [List.length_take]
  have hlt := List.mem_range.mp hi
  omega

/-- A directory has a file if there is a node for it. -/
theorem find?_child (h : v.find? p = .ok .directory) (name : String) :
    v.find? (p ++ [name]) =
      if tooLong [name] then .error .nameTooLong
      else match v.node? (p ++ [name]) with
        | some n => .ok n
        | none => .error .missing := by
  obtain ⟨hlong, habove, hnode⟩ := find?_eq_ok_iff.mp h
  have hway : (above (p ++ [name])).find? (fun q => v.node? q != some .directory) = none := by
    rw [above_append_singleton]
    refine List.find?_eq_none.mpr (List.forall_mem_append.mpr ⟨fun q hq => ?_, ?_⟩)
    · simp [habove q hq]
    · simp [hnode]
  have htooLong : tooLong (p ++ [name]) = tooLong [name] := by
    rw [tooLong, List.any_append]
    rw [tooLong] at hlong
    rw [hlong, Bool.false_or, tooLong]
  rw [find?]
  rw [htooLong, hway]
  split
  · rfl
  · cases v.node? (p ++ [name]) <;> rfl

/-- Everything about a directory but one of its files is as it was. -/
structure SameBut (v w : Volume) (p : Path) (file : String) : Prop where
  sound : v.Sound → w.Sound
  node : ∀ q, q ≠ p ++ [file] → w.node? q = v.node? q

theorem sameBut_place (file : String) (n : Node) : SameBut v (v.place (p ++ [file]) n) p file where
  sound h := h.place _ n
  node q hq := by rw [node?_place (by simp), if_neg hq]

theorem sameBut_without (file : String) : SameBut v (v.without (p ++ [file])) p file where
  sound h := h.without _
  node q hq := by rw [node?_without (by simp), if_neg hq]

theorem SameBut.directory (h : SameBut v w p file) (hp : v.find? p = .ok .directory) :
    w.find? p = .ok .directory := by
  have hshort {q : Path} (hq : q.length ≤ p.length) : q ≠ p ++ [file] := by
    intro heq
    subst heq
    rw [List.length_append, List.length_singleton] at hq
    omega
  rw [← hp]
  refine find?_congr (fun q hq => h.node q (hshort ?_)) (h.node p (hshort (Nat.le_refl _)))
  exact Nat.le_of_lt (length_lt_of_mem_above hq)

/-- What is put into a directory is found there, if its name is short enough. -/
theorem find?_place (h : v.find? p = .ok .directory) (hshort : tooLong [file] = false) (n : Node) :
    (v.place (p ++ [file]) n).find? (p ++ [file]) = .ok n := by
  rw [find?_child ((sameBut_place file n).directory h), hshort, node?_place (by simp), if_pos rfl]
  rfl

theorem SameBut.find?_child (h : SameBut v w p file) (hp : v.find? p = .ok .directory)
    (hname : name ≠ file) : w.find? (p ++ [name]) = v.find? (p ++ [name]) := by
  have hnode : w.node? (p ++ [name]) = v.node? (p ++ [name]) := h.node _ (by simpa using hname)
  rw [Volume.find?_child hp, Volume.find?_child (h.directory hp), hnode]

theorem find?_above (h : v.find? p = .ok n) (hq : q ∈ above p) : v.find? q = .ok .directory := by
  obtain ⟨hlong, habove, hnode⟩ := find?_eq_ok_iff.mp h
  refine find?_eq_ok_iff.mpr ⟨?_, fun r hr => habove r ?_, habove q hq⟩
  · obtain ⟨i, -, rfl⟩ := List.mem_map.mp hq
    rw [tooLong, List.any_eq_false] at hlong ⊢
    exact fun name hname => hlong name (List.mem_of_mem_take hname)
  · obtain ⟨i, hi, rfl⟩ := List.mem_map.mp hq
    obtain ⟨j, hj, rfl⟩ := List.mem_map.mp hr
    rw [List.mem_range] at hi hj
    rw [List.length_take] at hj
    rw [List.take_take, Nat.min_eq_left (by omega)]
    exact List.mem_map.mpr ⟨j, List.mem_range.mpr (by omega), rfl⟩

/-- To make a directory that is there changes nothing. -/
theorem makeDirectory_of_find? (h : v.find? p = .ok .directory) : v.makeDirectory p = .ok v := by
  have hall : ∀ q ∈ above p ++ [p], v.find? q = .ok .directory :=
    List.forall_mem_append.mpr ⟨fun q hq => find?_above h hq, by simpa using h⟩
  rw [makeDirectory]
  generalize above p ++ [p] = l at hall
  induction l with
  | nil => rfl
  | cons q l ih =>
    obtain ⟨hq, hl⟩ := List.forall_mem_cons.mp hall
    rw [List.foldlM_cons]
    simp only [hq]
    exact ih hl

theorem sound_of_makeDirectory (h : v.Sound) (hw : v.makeDirectory p = .ok w) : w.Sound := by
  rw [makeDirectory] at hw
  generalize above p ++ [p] = l at hw
  induction l generalizing v with
  | nil => cases hw; exact h
  | cons q l ih =>
    rw [List.foldlM_cons] at hw
    obtain ⟨u, hu, hw⟩ := bind_eq_ok.mp hw
    refine ih ?_ hw
    split at hu
    · cases hu; exact h
    · cases hu
    · cases hu; exact h.place q .directory
    · cases hu

/-- Make one of the directories on the way to a path. The path matters only to the fault. -/
def makeOnWay (full : Path) (v : Volume) (q : Path) : Except DiskError Volume :=
  match v.find? q with
  | .ok .directory => pure v
  | .ok (.file _) => throw (if q == full then .present else .notDirectory)
  | .error .missing => pure (v.place q .directory)
  | .error e => throw e

theorem makeDirectory_eq (v : Volume) (p : Path) :
    v.makeDirectory p = (above p ++ [p]).foldlM (makeOnWay p) v := rfl

theorem find?_of_makeOnWay {full : Path}
    (hw : (above p ++ [p]).foldlM (makeOnWay full) v = .ok w) : w.find? p = .ok .directory := by
  induction p using List.reverseRecOn generalizing w with
  | nil =>
    cases hw
    rfl
  | append_singleton p name ih =>
    rw [above_append_singleton, List.foldlM_append] at hw
    obtain ⟨u, hu, hw⟩ := bind_eq_ok.mp hw
    obtain ⟨_, hstep, hw⟩ := bind_eq_ok.mp hw
    cases hw
    have hdirectory := ih hu
    have hchild := find?_child hdirectory name
    rw [makeOnWay] at hstep
    split at hstep
    · next hfound =>
      cases hstep
      exact hfound
    · cases hstep
    · next hmissing =>
      cases hstep
      have hshort : tooLong [name] = false := by
        rw [hmissing] at hchild
        cases hlong : tooLong [name] with
        | false => rfl
        | true =>
          rw [hlong, if_pos rfl] at hchild
          cases hchild
      exact find?_place hdirectory hshort .directory
    · cases hstep

/-- A directory that was made is there. -/
theorem find?_of_makeDirectory (hw : v.makeDirectory p = .ok w) : w.find? p = .ok .directory :=
  find?_of_makeOnWay (makeDirectory_eq v p ▸ hw)

/-- A write that goes through has put the content in the file. -/
theorem write_eq_ok (h : v.find? p = .ok .directory) (hw : v.write (p ++ [file]) c = .ok w) :
    w = v.place (p ++ [file]) (.file c) ∧ w.find? (p ++ [file]) = .ok (.file c) := by
  have hchild := find?_child h file
  cases hlong : tooLong [file] with
  | true =>
    rw [hlong, if_pos rfl] at hchild
    rw [write, hchild] at hw
    cases hw
  | false =>
    rw [write] at hw
    split at hw
    · cases hw
    · cases hw
      exact ⟨rfl, find?_place h hlong _⟩
    · rw [List.dropLast_concat, h] at hw
      cases hw
      exact ⟨rfl, find?_place h hlong _⟩
    · cases hw

/-- A file of a directory can be written, whether it is there or not. -/
theorem exists_write (h : v.find? p = .ok .directory)
    (hfile : (∃ c', v.find? (p ++ [file]) = .ok (.file c')) ∨
      v.find? (p ++ [file]) = .error .missing)
    (c : Content) : ∃ w, v.write (p ++ [file]) c = .ok w := by
  rcases hfile with ⟨c', hfile⟩ | hmissing
  · exact ⟨_, by rw [write, hfile]; rfl⟩
  · exact ⟨_, by rw [write, hmissing, List.dropLast_concat, h]; rfl⟩

/-- A file that is there can be removed. -/
theorem remove_of_find? (h : v.find? p = .ok (.file c)) : v.remove p = .ok (v.without p) := by
  rw [remove, h]
  rfl

theorem remove_eq_ok (h : v.remove p = .ok w) :
    ∃ c, v.find? p = .ok (.file c) ∧ w = v.without p := by
  obtain ⟨n, hn, h⟩ := bind_eq_ok.mp h
  cases n with
  | directory => cases h
  | file c =>
    cases h
    exact ⟨c, hn, rfl⟩

/-- What is not there cannot be removed. -/
theorem find?_of_remove_missing (h : v.remove p = .error .missing) :
    v.find? p = .error .missing := by
  rw [remove] at h
  cases hfind : v.find? p with
  | error e =>
    rw [hfind] at h
    cases h
    rfl
  | ok n =>
    rw [hfind] at h
    cases n <;> cases h

/-- What was removed is not there. -/
theorem find?_without (h : v.find? p = .ok n) (hp : p ≠ []) :
    (v.without p).find? p = .error .missing := by
  obtain ⟨hlong, habove, -⟩ := find?_eq_ok_iff.mp h
  have hway : (above p).find? (fun q => (v.without p).node? q != some .directory) = none := by
    refine List.find?_eq_none.mpr fun q hq => ?_
    have hne : q ≠ p := fun heq => Nat.lt_irrefl _ (heq ▸ length_lt_of_mem_above hq)
    rw [node?_without hp, if_neg hne, habove q hq]
    simp
  rw [find?, hlong, if_neg Bool.false_ne_true, hway]
  simp only [node?_without hp, if_true]
  rfl

theorem read_eq_ok_iff {text : String} :
    v.read p = .ok text ↔ v.find? p = .ok (.file (.text text)) := by
  rw [read, bind_eq_ok]
  constructor
  · intro h
    obtain ⟨n, hn, h⟩ := h
    cases n with
    | directory => cases h
    | file c => cases c <;> cases h; exact hn
  · intro h
    exact ⟨_, h, rfl⟩

theorem list_eq_ok_iff {l : List (String × Node)} :
    v.list p = .ok l ↔ v.find? p = .ok .directory ∧ l = v.children p := by
  rw [list, bind_eq_ok]
  constructor
  · intro h
    obtain ⟨n, hn, h⟩ := h
    cases n with
    | directory => cases h; exact ⟨hn, rfl⟩
    | file c => cases h
  · intro h
    obtain ⟨h, rfl⟩ := h
    exact ⟨_, h, rfl⟩

/-- What is at a path as a child of a directory, if the path is directly below it. -/
def child? (p : Path) (e : Path × Node) : Option (String × Node) :=
  match e.1.getLast? with
  | some name => if e.1.dropLast == p then some (name, e.2) else none
  | none => none

theorem children_eq (v : Volume) (p : Path) : v.children p = v.nodes.filterMap (child? p) := rfl

theorem child?_eq_some_iff {e : Path × Node} {d : String × Node} :
    child? p e = some d ↔ e = (p ++ [d.1], d.2) := by
  obtain ⟨q, m⟩ := e
  obtain ⟨name, n⟩ := d
  rw [child?]
  constructor
  · intro h
    split at h
    · next last hlast =>
      split at h
      · next hp =>
        cases h
        obtain ⟨r, rfl⟩ := List.getLast?_eq_some_iff.mp hlast
        rw [List.dropLast_concat] at hp
        rw [eq_of_beq hp]
      · cases h
    · cases h
  · intro h
    cases h
    simp

theorem child?_eq_none {e : Path × Node} (h : e.1.length ≤ p.length) : child? p e = none := by
  refine Option.eq_none_iff_forall_ne_some.mpr fun d hd => ?_
  rw [child?_eq_some_iff.mp hd, List.length_append, List.length_singleton] at h
  exact Nat.not_succ_le_self _ h

/-- What is put in a place that is not below a directory is not one of its children. -/
theorem children_place (h : q.length ≤ p.length) (n : Node) :
    (v.place q n).children p = v.children p := by
  rw [children_eq, place, List.filterMap_append, List.filterMap_cons_none (child?_eq_none h),
    List.filterMap_nil, List.append_nil, List.filterMap_filter, children_eq]
  congr 1
  funext e
  by_cases heq : e.1 = q
  · rw [if_neg (by simp [heq]), child?_eq_none (heq ▸ h)]
  · rw [if_pos (by simp [heq])]

/-- A directory that is made has no more children than it had. -/
theorem children_of_makeDirectory (hw : v.makeDirectory p = .ok w) :
    w.children p = v.children p := by
  have hlength : ∀ q ∈ above p ++ [p], q.length ≤ p.length := List.forall_mem_append.mpr
    ⟨fun q hq => Nat.le_of_lt (length_lt_of_mem_above hq),
      List.forall_mem_singleton.mpr (Nat.le_refl _)⟩
  rw [makeDirectory_eq] at hw
  generalize above p ++ [p] = l at hlength hw
  induction l generalizing v with
  | nil => cases hw; rfl
  | cons q l ih =>
    obtain ⟨hq, hl⟩ := List.forall_mem_cons.mp hlength
    obtain ⟨u, hu, hw⟩ := bind_eq_ok.mp hw
    refine (ih hl hw).trans ?_
    rw [makeOnWay] at hu
    split at hu
    · cases hu; rfl
    · cases hu
    · cases hu; exact children_place hq .directory
    · cases hu

theorem mem_children_iff (h : v.Sound) :
    (name, n) ∈ v.children p ↔ v.node? (p ++ [name]) = some n := by
  rw [h.node?_eq_some_iff (by simp), children_eq, List.mem_filterMap]
  constructor
  · intro h
    obtain ⟨e, he, hchild⟩ := h
    exact child?_eq_some_iff.mp hchild ▸ he
  · exact fun hmem => ⟨_, hmem, child?_eq_some_iff.mpr rfl⟩

theorem nodup_children (h : v.Sound) : ((v.children p).map (·.1)).Nodup := by
  refine List.pairwise_map.mpr (List.pairwise_filterMap.mpr ?_)
  refine (List.pairwise_map.mp h).imp fun hne d hd f hf heq => ?_
  rw [child?_eq_some_iff.mp hd, child?_eq_some_iff.mp hf, heq] at hne
  exact hne rfl

/-- Follow one name. -/
def follow (p : Path) (name : String) : Path :=
  if name == "" || name == "." then p else if name == ".." then p.dropLast else p ++ [name]

theorem path_eq (text : String) :
    path text = ((text.toList.splitOn '/').map .ofList).foldl follow [] :=
  rfl

theorem path_pathIn (directory : String) (hslash : '/' ∉ file.toList)
    (hname : file ≠ "" ∧ file ≠ "." ∧ file ≠ "..") :
    path (pathIn directory file) = path directory ++ [file] := by
  have hfollow (p : Path) : follow p file = p ++ [file] := by simp [follow, hname]
  have hfile : file.toList.splitOn '/' = [file.toList] := List.splitOn_eq_singleton hslash
  have hsplit (cs last : List Char) (h : '/' ∉ last) :
      ((cs ++ '/' :: last).splitOn '/').map String.ofList = (cs.splitOn '/').map .ofList ++
          [.ofList last] := by
    rw [List.splitOn_append_cons_self, List.splitOn_eq_singleton h, List.map_append,
      List.map_singleton]
  have hjoined (cs : List Char) :
      (((cs ++ '/' :: file.toList).splitOn '/').map String.ofList).foldl follow [] =
        ((cs.splitOn '/').map .ofList).foldl follow [] ++ [file] := by
    rw [hsplit cs _ hslash, List.foldl_append, List.foldl_cons, List.foldl_nil,
      String.ofList_toList, hfollow]
  rw [path_eq, path_eq, pathIn]
  by_cases hempty : directory.toList = []
  · rw [if_pos (by simp [hempty]), String.toList_append, hempty, List.nil_append, hfile]
    simp only [List.map_singleton, String.ofList_toList, List.foldl_cons, List.foldl_nil, hfollow]
    rfl
  · by_cases hlast : directory.toList.getLast? = some '/'
    · obtain ⟨cs, hcs⟩ := List.getLast?_eq_some_iff.mp hlast
      have hdirectory : ((directory.toList.splitOn '/').map String.ofList).foldl follow [] =
          ((cs.splitOn '/').map .ofList).foldl follow [] := by
        rw [hcs, hsplit cs [] List.not_mem_nil, List.foldl_append]
        rfl
      rw [if_pos (by simp [hlast]), String.toList_append, hdirectory, ← hjoined, hcs,
        List.append_assoc]
      rfl
    · rw [if_neg (by simp [hempty, hlast]), String.toList_append, String.toList_append, ← hjoined,
        List.append_assoc]
      rfl

end WideColumn.Volume
