import PhasedTests.Proofs.SourceMap.Lines
import PhasedTests.Proofs.Tree.Preorder
import PhasedTests.Proofs.Tree.Sequence

/-!
# Counterparts in unrelated trees

What a source map says about any two trees. A line has the answer of the first path in the emitted
tree, in the order of paths, that leads to a node on this line alone and whose counterpart in the
expanded tree has a line. The counterpart of a path is the node at the same path. If there is none,
it is the first node equal to the emitted one that stands at or below the deepest node above the
path, where the root does not count.
-/

namespace PhasedTests.SourceMap

/-- The path leads to a node of the emitted tree that lies on this line alone. -/
def LiesOn (emitted : Tree) (line : Nat) (path : List Nat) (t : Tree) : Prop :=
  emitted.dig? path = some t ∧
    ∃ span, t.location = some span ∧ span.start.line = line ∧ span.finish.line = line

/-- The counterpart of an emitted node at a path. -/
inductive Counterpart (expanded target : Tree) (path : List Nat) : Tree → Prop where
  | same {found : Tree} (hdig : expanded.dig? path = some found) :
      Counterpart expanded target path found
  | below {reached : List Nat} {ancestor found : Tree} (hmissing : expanded.dig? path = none)
      (hreaches : expanded.Reaches path.dropLast reached ancestor) (hproper : reached ≠ [])
      (hfirst : Tree.FirstEqual target ancestor found) : Counterpart expanded target path found

/-- The emitted node at a path lies on the line, and its counterpart has the source line. -/
def Contributes (expanded emitted : Tree) (line : Nat) (path : List Nat) (known : Nat) : Prop :=
  ∃ t found, LiesOn emitted line path t ∧ Counterpart expanded t path found ∧
    found.line? = some known

variable {expanded emitted : Tree}

/-! ## Counterparts -/

/-- A path that is not empty leads to a node. -/
private theorem isNode_of_dig?_ne_nil {t found : Tree} {path : List Nat} (hpath : path ≠ [])
    (hdig : t.dig? path = some found) : found.isNode = true := by
  cases path with
  | nil => exact absurd rfl hpath
  | cons index path =>
    obtain ⟨child, hchild, hfound⟩ := Option.bind_eq_some_iff.mp hdig
    exact Tree.isNode_of_dig? (Tree.isNode_of_nodeAt? hchild) hfound

private theorem counterpart?_eq_some_iff {target found : Tree} {path : List Nat} :
    counterpart? expanded path target = some found ↔ Counterpart expanded target path found := by
  obtain ⟨reached, hreaches, hlength⟩ := Tree.reaches_deepest expanded path.dropLast
  cases hdig : expanded.dig? path with
  | some other =>
    rw [counterpart?_of_dig? hdig]
    constructor
    · intro hsame
      exact .same (hdig.trans hsame)
    · intro hcounterpart
      cases hcounterpart with
      | same hfound => exact hdig.symm.trans hfound
      | below hmissing => exact nomatch hdig.symm.trans hmissing
  | none =>
    have hsearch : counterpart? expanded path target =
        if reached.length = 0 then none
        else Tree.findEqual? target (expanded.deepest path.dropLast).2 := by
      unfold counterpart?
      rw [hdig, hlength]
    rw [hsearch]
    by_cases hroot : reached = []
    · subst hroot
      refine iff_of_false (by simp) fun hcounterpart => ?_
      cases hcounterpart with
      | same hfound => exact nomatch hdig.symm.trans hfound
      | below _ hother hproper => exact hproper (hother.unique hreaches).1
    · have hnode : (expanded.deepest path.dropLast).2.isNode = true :=
        isNode_of_dig?_ne_nil hroot hreaches.dig
      rw [if_neg (by simpa using hroot), Tree.findEqual?_eq_some_iff hnode]
      constructor
      · intro hfirst
        exact .below hdig hreaches hroot hfirst
      · intro hcounterpart
        cases hcounterpart with
        | same hfound => exact nomatch hdig.symm.trans hfound
        | below _ hother _ hfirst =>
          rw [← (hother.unique hreaches).2]
          exact hfirst

/-- A tree has one counterpart at most. -/
theorem Counterpart.unique {target first second : Tree} {path : List Nat}
    (hfirst : Counterpart expanded target path first)
    (hsecond : Counterpart expanded target path second) : first = second :=
  Option.some.inj
    ((counterpart?_eq_some_iff.mpr hfirst).symm.trans (counterpart?_eq_some_iff.mpr hsecond))

/-- A counterpart stands at the path itself or is equal to the emitted node. -/
theorem Counterpart.dig_or_equal {target found : Tree} {path : List Nat}
    (hcounterpart : Counterpart expanded target path found) :
    expanded.dig? path = some found ∨
      ∃ other, expanded.dig? other = some found ∧ (found == target) = true := by
  cases hcounterpart with
  | same hdig => exact .inl hdig
  | @below reached _ _ _ hreaches _ hfirst =>
    obtain ⟨inner, hdig, hequal, -⟩ := hfirst
    refine .inr ⟨reached ++ inner, ?_, hequal⟩
    rw [Tree.dig?_append, hreaches.dig, Option.bind_some, hdig]

/-! ## Lines -/

/-- What an emitted node contributes to a line. -/
private def contribution (expanded : Tree) (line : Nat) (entry : List Nat × Tree) : Option Nat :=
  entry.2.location.bind fun span =>
    if span.start.line = line ∧ span.finish.line = line then
      (counterpart? expanded entry.1 entry.2).bind Tree.line?
    else none

private theorem sourceLine?_eq_findSome? (expanded emitted : Tree) (line : Nat) :
    sourceLine? expanded (oneLiners emitted) line =
      emitted.walk.findSome? (contribution expanded line) := by
  unfold sourceLine? oneLiners
  rw [← List.head?_filterMap, List.filterMap_filterMap, ← List.head?_filterMap]
  refine congrArg List.head? (List.filterMap_congr ?_)
  rintro ⟨path, t⟩ -
  dsimp only [contribution]
  cases t.location with
  | none => rfl
  | some span =>
    have hsingle : span.isSingleLine = true ↔ span.start.line = span.finish.line := beq_iff_eq
    by_cases hline : span.start.line = line
    · by_cases hfinish : span.finish.line = line
      · simp [hsingle.mpr (hline.trans hfinish.symm), hline, hfinish]
      · have hlonger : ¬ span.isSingleLine = true := by
          rw [hsingle, hline]
          exact Ne.symm hfinish
        simp [hlonger, hfinish]
    · by_cases hone : span.isSingleLine = true <;> simp [hone, hline]

private theorem contribution_eq_some_iff {line known : Nat} {path : List Nat} {t : Tree}
    (hdig : emitted.dig? path = some t) :
    contribution expanded line (path, t) = some known ↔
      ∃ found, LiesOn emitted line path t ∧ Counterpart expanded t path found ∧
        found.line? = some known := by
  simp only [contribution, Option.bind_eq_some_iff, Option.ite_none_right_eq_some,
    counterpart?_eq_some_iff, LiesOn]
  constructor
  · rintro ⟨span, hspan, hline, found, hfound, hknown⟩
    exact ⟨found, ⟨hdig, span, hspan, hline⟩, hfound, hknown⟩
  · rintro ⟨found, ⟨-, span, hspan, hline⟩, hfound, hknown⟩
    exact ⟨span, hspan, hline, found, hfound, hknown⟩

/-- Nodes on lines have places, so the walk meets them. -/
private theorem LiesOn.mem_walk {line : Nat} {path : List Nat} {t : Tree}
    (hlies : LiesOn emitted line path t) : (path, t) ∈ emitted.walk := by
  obtain ⟨hdig, span, hspan, -⟩ := hlies
  refine Tree.mem_walk_iff.mpr ⟨hdig, ?_⟩
  cases t with
  | leaf value => cases hspan
  | node tag children location => rfl

/-- The source line of a line is that of the first path that contributes to it. -/
theorem sourceLine?_eq_some_iff {line known : Nat} :
    sourceLine? expanded (oneLiners emitted) line = some known ↔
      ∃ path, Contributes expanded emitted line path known ∧
        ∀ earlier < path, ∀ other, ¬ Contributes expanded emitted line earlier other := by
  rw [sourceLine?_eq_findSome?, Tree.findSome?_walk]
  constructor
  · rintro ⟨path, t, hmem, hanswer, hfirst⟩
    obtain ⟨found, hknown⟩ :=
      (contribution_eq_some_iff (Tree.mem_walk_iff.mp hmem).1).mp hanswer
    refine ⟨path, ⟨t, found, hknown⟩, ?_⟩
    rintro earlier hearlier other ⟨u, found, hlies, hother⟩
    have hnone := hfirst earlier hearlier u hlies.mem_walk
    rw [(contribution_eq_some_iff hlies.1).mpr ⟨found, hlies, hother⟩] at hnone
    cases hnone
  · rintro ⟨path, ⟨t, found, hlies, hknown⟩, hfirst⟩
    refine ⟨path, t, hlies.mem_walk, (contribution_eq_some_iff hlies.1).mpr ⟨found, hlies, hknown⟩,
      fun earlier hearlier u hmem => Option.eq_none_iff_forall_ne_some.mpr fun other hanswer => ?_⟩
    obtain ⟨found, hother⟩ :=
      (contribution_eq_some_iff (Tree.mem_walk_iff.mp hmem).1).mp hanswer
    exact hfirst earlier hearlier other ⟨u, found, hother⟩

/-- A line without a source line has no path that contributes to it. -/
theorem sourceLine?_eq_none_iff {line : Nat} :
    sourceLine? expanded (oneLiners emitted) line = none ↔
      ∀ path known, ¬ Contributes expanded emitted line path known := by
  rw [sourceLine?_eq_findSome?, List.findSome?_eq_none_iff]
  constructor
  · rintro hnone path known ⟨t, found, hlies, hknown⟩
    have hentry := hnone (path, t) hlies.mem_walk
    rw [(contribution_eq_some_iff hlies.1).mpr ⟨found, hlies, hknown⟩] at hentry
    cases hentry
  · rintro hnone ⟨path, t⟩ hmem
    refine Option.eq_none_iff_forall_ne_some.mpr fun known hanswer => ?_
    obtain ⟨found, hknown⟩ :=
      (contribution_eq_some_iff (Tree.mem_walk_iff.mp hmem).1).mp hanswer
    exact hnone path known ⟨t, found, hknown⟩

/-- The entries of a map are its lines with what it says of them. -/
theorem entries_eq (map : SourceMap) :
    map.entries = (List.range' 1 map.lineCount).map fun line => (line, map.line? line) := by
  apply List.ext_getElem
  · simp [entries, lineCount]
  · intro n hleft hright
    have hn : n < map.lines.length := by simpa [entries] using hleft
    simp [entries, line?, Nat.add_comm 1 n, hn]

private theorem line?_eq_none_of_lineCount {map : SourceMap} {line : Nat}
    (hline : line = 0 ∨ map.lineCount < line) : map.line? line = none := by
  cases line with
  | zero => rfl
  | succ n =>
    have hlast : map.lines.length ≤ n := by
      rcases hline with hzero | hlast
      · cases hzero
      · exact Nat.le_of_lt_succ hlast
    rw [line?, List.getElem?_eq_none hlast]
    rfl

/-- The last line of a tree that was read; a tree without a place has no lines. -/
def lastLine (t : Tree) : Nat :=
  (t.location.map fun span => span.finish.line).getD 0

private theorem lineCount_build (source transformed : String) (expanded emitted : Tree) :
    (build source transformed expanded emitted).lineCount = lastLine emitted := by
  unfold build lineCount lastLine
  rw [List.length_map, List.length_range]
  cases emitted.location <;> rfl

/-- The source map of any two trees has exactly the lines up to the last one of the emitted tree. A
line has the source line of the first path, in the order of paths, that contributes to it, and none
if no path does. There is at most one counterpart for a path, so every source line that the map
knows is that of a node of the expanded tree, which stands at the path of an emitted node on the
line or is equal to this node. -/
theorem line_of_build (source transformed : String) (expanded emitted : Tree) :
    (build source transformed expanded emitted).entries =
      (List.range' 1 (lastLine emitted)).map (fun line =>
        (line, (build source transformed expanded emitted).line? line)) ∧
    (∀ line, line = 0 ∨ lastLine emitted < line →
      (build source transformed expanded emitted).line? line = none) ∧
    (∀ line, 1 ≤ line → line ≤ lastLine emitted →
      (∀ known, (build source transformed expanded emitted).line? line = some known ↔
        ∃ path, Contributes expanded emitted line path known ∧
          ∀ earlier < path, ∀ other, ¬ Contributes expanded emitted line earlier other) ∧
      ((build source transformed expanded emitted).line? line = none ↔
        ∀ path known, ¬ Contributes expanded emitted line path known)) ∧
    (∀ target path first second, Counterpart expanded target path first →
      Counterpart expanded target path second → first = second) ∧
    ∀ line known, (build source transformed expanded emitted).line? line = some known →
      ∃ path t found, LiesOn emitted line path t ∧ found.line? = some known ∧
        (expanded.dig? path = some found ∨
          ∃ other, expanded.dig? other = some found ∧ (found == t) = true) := by
  have hcount := lineCount_build source transformed expanded emitted
  have houtside (line : Nat) (hline : line = 0 ∨ lastLine emitted < line) :
      (build source transformed expanded emitted).line? line = none :=
    line?_eq_none_of_lineCount (hcount ▸ hline)
  have hline (line : Nat) (hfirst : 1 ≤ line) (hlast : line ≤ lastLine emitted) :=
    @line?_build source transformed expanded emitted line hfirst (hcount ▸ hlast)
  refine ⟨hcount ▸ entries_eq _, houtside, fun line hfirst hlast => ?_,
    fun _ _ _ _ hfirst hsecond => hfirst.unique hsecond, fun line known hknown => ?_⟩
  · rw [hline line hfirst hlast]
    exact ⟨fun known => sourceLine?_eq_some_iff, sourceLine?_eq_none_iff⟩
  · have hinside : ¬ (line = 0 ∨ lastLine emitted < line) := by
      intro hother
      rw [houtside line hother] at hknown
      cases hknown
    rw [hline line (by omega) (by omega)] at hknown
    obtain ⟨path, ⟨t, found, hlies, hcounterpart, hfound⟩, -⟩ := sourceLine?_eq_some_iff.mp hknown
    exact ⟨path, t, found, hlies, hfound, hcounterpart.dig_or_equal⟩

/-- Of four emitted children two have no counterpart at their paths. The last one is found as the
first equal node below the node around it; the third one is equal to none, and neither is anything
in a tree without that node. -/
theorem line_of_build_fallback :
    let row (line : Nat) : Option Span := some ⟨0, 0, ⟨line, 1⟩, ⟨line, 1⟩⟩
    let x (line : Nat) := Tree.node "lvar" [.symbol "x"] (row line)
    let expanded := Tree.node "begin" [.node "kwbegin" [x 3, x 4] none] none
    let emitted := Tree.node "begin" [.node "kwbegin" [x 3, x 4, .node "int" [.int 9] (row 5), x 6]
      none] (some ⟨0, 0, ⟨1, 1⟩, ⟨6, 1⟩⟩)
    (∃ path, Contributes expanded emitted 6 path 3 ∧
      ∀ earlier < path, ∀ other, ¬ Contributes expanded emitted 6 earlier other) ∧
    (∀ path known, ¬ Contributes expanded emitted 5 path known) ∧
    ∀ path known, ¬ Contributes (x 3) emitted 6 path known := by
  intro row x expanded emitted
  obtain ⟨-, -, hlines, -⟩ := line_of_build "in.sexp" "out.sexp" expanded emitted
  obtain ⟨-, -, hother, -⟩ := line_of_build "in.sexp" "out.sexp" (x 3) emitted
  refine ⟨((hlines 6 (by decide) (by decide)).1 3).mp ?_,
    (hlines 5 (by decide) (by decide)).2.mp ?_, (hother 6 (by decide) (by decide)).2.mp ?_⟩
  all_goals decide

end PhasedTests.SourceMap
