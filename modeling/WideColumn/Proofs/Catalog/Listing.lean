import WideColumn.Proofs.Catalog.Run
import WideColumn.Proofs.Pattern.Anchored

/-! # The tables whose whole names match

A pattern is put into a group between the two ends of a name. So the names that match as a whole are
listed wherever the group takes the pattern and nothing else for one. -/
namespace WideColumn.Catalog
open WideColumn.Pattern

variable {c : Catalog} {pattern : String} {n : Pattern.Node}

/-- The pattern matches whole names and nothing else. -/
structure ListsWhole (c : Catalog) (pattern : String) : Prop where
  /-- A text that is no pattern by itself is refused as an argument, and nothing changes. -/
  refused : Reader.pattern pattern.toList = none → ∃ e : Fault, e.code = .invalidArgument ∧
    c.list (some pattern) = .error e ∧ ∀ k confirm,
      exec (dropAll pattern confirm) c k = ((.error e, c), k)
  /-- What the text means by itself is matched with whole names, in catalog order. -/
  listed : ∀ n, Reader.pattern pattern.toList = some n →
    c.list (some pattern) = .ok (c.names.filter fun name => n.MatchesWhole name.toList)

theorem list_of_none (h : Reader.pattern (anchored pattern) = none) :
    c.list (some pattern) = .error (.badPattern pattern) := by
  rw [list, select, ofText, h]
  rfl

theorem list_of_betweenEnds (h : Reader.pattern (anchored pattern) = some n.betweenEnds) :
    c.list (some pattern) = .ok (c.names.filter fun name => n.MatchesWhole name.toList) := by
  rw [list, select, ofText, h]
  have hmatches (name : String) :
      n.betweenEnds.matchesIn name.toList = decide (n.MatchesWhole name.toList) :=
    Bool.eq_iff_iff.mpr (Node.matchesIn_betweenEnds.trans (decide_eq_true_iff).symm)
  exact congrArg Except.ok (List.filter_congr fun name _ => hmatches name)

theorem exec_dropAll_of_error {e : Fault} (h : c.list (some pattern) = .error e)
    (confirm : List String → StateM Machine Bool) (k : Machine) :
    exec (dropAll pattern confirm) c k = ((.error e, c), k) :=
  exec_bind_error (by rw [exec_ask, h])

theorem listsWhole_of_iff
    (h : (Reader.pattern (anchored pattern)).isSome ↔ (Reader.pattern pattern.toList).isSome) :
    c.ListsWhole pattern where
  refused hnone := by
    have hanchored : Reader.pattern (anchored pattern) = none := by
      rw [← Option.not_isSome_iff_eq_none, h, hnone]
      exact Bool.false_ne_true
    have hlist := list_of_none (c := c) hanchored
    exact ⟨.badPattern pattern, rfl, hlist, fun k confirm => exec_dropAll_of_error hlist confirm k⟩
  listed n hn := by
    obtain ⟨m, hm⟩ := Option.isSome_iff_exists.mp (h.mpr (Option.isSome_iff_exists.mpr ⟨n, hn⟩))
    obtain rfl := Reader.pattern_anchored hn hm
    exact list_of_betweenEnds hm

/-- A text without comments, in which every closing parenthesis has its opening one, matches whole
names, unless the ends make it too heavy. -/
theorem listsWhole_of_closed
    (hclosed : ∀ n names es, Reader.reading pattern.toList ≠ some (n, names, ')' :: es))
    (hcomment : '#' ∉ pattern.toList)
    (hweight : ∀ n, Reader.pattern pattern.toList = some n →
      n.betweenEnds.weight ≤ Node.maxWeight) :
    c.ListsWhole pattern := by
  refine listsWhole_of_iff ⟨fun h => ?_, fun h => ?_⟩
  · obtain ⟨m, hm⟩ := Option.isSome_iff_exists.mp h
    refine Option.isSome_iff_ne_none.mpr fun hnone => ?_
    obtain ⟨n, names, es, hread⟩ := Reader.unmatched_of_anchored hnone hm
    exact hclosed n names es hread
  · obtain ⟨n, hn⟩ := Option.isSome_iff_exists.mp h
    exact Option.isSome_iff_exists.mpr
      ⟨_, Reader.pattern_anchored_of_plain hn hcomment (hweight n hn)⟩

/-- Whole names are matched just where the group takes what is a pattern by itself and refuses what
is none. -/
theorem listsWhole_iff (c : Catalog) (pattern : String) : c.ListsWhole pattern ↔
    ((Reader.pattern (anchored pattern)).isSome ↔ (Reader.pattern pattern.toList).isSome) := by
  refine ⟨fun h => ⟨fun hanchored => ?_, fun halone => ?_⟩, listsWhole_of_iff⟩
  · refine Option.isSome_iff_ne_none.mpr fun hnone => ?_
    obtain ⟨e, -, hlist, -⟩ := h.refused hnone
    obtain ⟨m, hm⟩ := Option.isSome_iff_exists.mp hanchored
    rw [list, select, ofText, hm] at hlist
    cases hlist
  · refine Option.isSome_iff_ne_none.mpr fun hnone => ?_
    obtain ⟨n, hn⟩ := Option.isSome_iff_exists.mp halone
    cases (list_of_none hnone).symm.trans (h.listed n hn)

def coursesDisabled : Catalog × Machine :=
  after [.createTable "t01" [], .createTable "xcourses" [], .disable "t01", .disable "xcourses"]
    (⟨"d", []⟩, opened.2)

/-- A closing parenthesis ends the group, and either alternative is bound to one end of the name
only. -/
theorem not_listsWhole_unmatched : Reader.pattern "t01)|(?:courses".toList = none ∧
    coursesDisabled.1.names = ["t01", "xcourses"] ∧
    coursesDisabled.1.list (some "t01)|(?:courses") = .ok ["t01", "xcourses"] ∧
    (exec (dropAll "t01)|(?:courses" fun _ => Pure.pure true) coursesDisabled.1
      coursesDisabled.2).1.2.names = [] ∧
    ¬ coursesDisabled.1.ListsWhole "t01)|(?:courses" := by
  have hnone : Reader.pattern "t01)|(?:courses".toList = none :=
    Option.isNone_iff_eq_none.mp (by decide +kernel)
  have hlist : coursesDisabled.1.list (some "t01)|(?:courses") = .ok ["t01", "xcourses"] := by
    have hnames : (coursesDisabled.1.list (some "t01)|(?:courses")).toOption =
        some ["t01", "xcourses"] := by
      decide +kernel
    cases hrun : coursesDisabled.1.list (some "t01)|(?:courses") with
    | ok names =>
      rw [hrun] at hnames
      cases hnames
      rfl
    | error e =>
      rw [hrun] at hnames
      cases hnames
  refine ⟨hnone, by decide +kernel, hlist, by decide +kernel, fun h => ?_⟩
  obtain ⟨e, -, herror, -⟩ := h.refused hnone
  cases hlist.symm.trans herror

end WideColumn.Catalog
