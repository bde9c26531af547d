import PhasedTests.Proofs.Expansion.EntryPoints
import PhasedTests.Proofs.Expansion.Tests

/-!
# The expansion is local

In a file without annotations the expansion touches the tests that lie in no other one, each of them
as if it stood alone, and nothing else. It fails as the first of them that fails.
-/

namespace PhasedTests

namespace Tree

/-- The tree with another one in place of the one that a path leads to. -/
def replaceAt : Tree → List Nat → Tree → Tree
  | _, [], new => new
  | t, index :: path, new =>
    t.withChildren (t.children.modify index fun child => child.replaceAt path new)

/-- The tree with other ones in place of those that their paths lead to. -/
def replaceAll (t : Tree) (entries : List (List Nat × Tree)) : Tree :=
  entries.foldl (fun t entry => t.replaceAt entry.1 entry.2) t

section

variable {tag : String} {before after : List Tree} {location : Option Span}

private theorem replaceAt_behind (t new : Tree) (path : List Nat) :
    (node tag (before ++ t :: after) location).replaceAt (before.length :: path) new =
      node tag (before ++ t.replaceAt path new :: after) location := by
  have hless : before.length < (before ++ t :: after).length := by simp
  rw [replaceAt, withChildren, children, List.modify_eq_take_cons_drop hless]
  simp

/-- What is replaced in a child leaves its siblings alone. -/
theorem replaceAll_behind (t : Tree) (entries : List (List Nat × Tree)) :
    (node tag (before ++ t :: after) location).replaceAll
        (entries.map fun entry => (before.length :: entry.1, entry.2)) =
      node tag (before ++ t.replaceAll entries :: after) location := by
  induction entries generalizing t with
  | nil => rfl
  | cons entry entries ih =>
    rw [List.map_cons, replaceAll, List.foldl_cons, replaceAt_behind]
    exact ih (t.replaceAt entry.1 entry.2)

private theorem replaceAll_append (t : Tree) (first second : List (List Nat × Tree)) :
    t.replaceAll (first ++ second) = (t.replaceAll first).replaceAll second :=
  List.foldl_append

end

section

variable {ε : Type} {step : Tree → Except ε Tree}

/-- A step on a tree whose result stands at the path of the tree. -/
def atPath (step : Tree → Except ε Tree) (entry : List Nat × Tree) : Except ε (List Nat × Tree) :=
  (step entry.2).map fun built => (entry.1, built)

/-- A step at a path succeeds as the step does and keeps the path. -/
theorem atPath_ok_iff {entry built : List Nat × Tree} :
    atPath step entry = .ok built ↔ built.1 = entry.1 ∧ step entry.2 = .ok built.2 := by
  obtain ⟨path, new⟩ := built
  unfold atPath
  cases step entry.2 <;> simp [Except.map, eq_comm]

/-- A step at a path fails as the step does. -/
theorem atPath_error_iff {entry : List Nat × Tree} {e : ε} :
    atPath step entry = .error e ↔ step entry.2 = .error e := by
  unfold atPath
  cases step entry.2 <;> simp [Except.map]

/-- A step does not depend on the path. -/
theorem mapM_atPath_behind (index : Nat) (entries : List (List Nat × Tree)) :
    (entries.map fun entry => (index :: entry.1, entry.2)).mapM (atPath step) =
      (entries.mapM (atPath step)).map (List.map fun built => (index :: built.1, built.2)) := by
  induction entries with
  | nil => rfl
  | cons entry entries ih =>
    have hfirst : atPath step (index :: entry.1, entry.2) =
        (atPath step entry).map fun built => (index :: built.1, built.2) := by
      unfold atPath
      cases step entry.2 <;> rfl
    rw [List.map_cons, List.mapM_cons, List.mapM_cons, ih, hfirst]
    cases atPath step entry with
    | error e => rfl
    | ok built => cases entries.mapM (atPath step) <;> rfl

end

end Tree

namespace Phases

variable {mode : Mode} {context : Context}

/-! ## One test after the other -/

mutual

/-- With nothing finished, a tree is expanded by expanding its tests one after the other and putting
each result in the place of its test. -/
theorem expand_eq_replaceAll (hfresh : context.finished = []) : (t : Tree) →
    expand mode context t =
      (t.outerTests.mapM (Tree.atPath (expandTest mode context))).map t.replaceAll
  | .leaf value => by
    rw [expand]
    rfl
  | .node tag children location => by
    cases htest : (Tree.node tag children location).isTestBlock with
    | true =>
      rw [expand_test htest, Tree.outerTests_test htest, List.mapM_cons, Tree.atPath]
      cases expandTest mode context (.node tag children location) with
      | error e => rfl
      | ok built => rfl
    | false =>
      rw [Tree.outerTests_other htest, expand, open_of_fresh hfresh, if_neg Bool.false_ne_true,
        htest, if_neg Bool.false_ne_true]
      exact expandAll_eq_replaceAll hfresh [] children

private theorem expandAll_eq_replaceAll (hfresh : context.finished = []) {tag : String}
    {location : Option Span} : (before trees : List Tree) →
      (expandAll mode context trees).map (fun others => .node tag (before ++ others) location) =
        ((Tree.outerTestsAll before.length trees).mapM (Tree.atPath (expandTest mode context))).map
          (Tree.node tag (before ++ trees) location).replaceAll
  | before, [] => by
    rw [expandAll]
    rfl
  | before, t :: rest => by
    rw [expandAll, expand_eq_replaceAll hfresh t, Tree.outerTestsAll, List.mapM_append,
      Tree.mapM_atPath_behind]
    cases t.outerTests.mapM (Tree.atPath (expandTest mode context)) with
    | error e => rfl
    | ok built =>
      let first := t.replaceAll built
      let later := Tree.outerTestsAll (before.length + 1) rest
      -- The tests of the siblings behind `t` are replaced in the tree where `t` is done.
      have hrest : (expandAll mode context rest).map
            (fun others => .node tag (before ++ first :: others) location) =
          (later.mapM (Tree.atPath (expandTest mode context))).map
            (Tree.node tag (before ++ first :: rest) location).replaceAll := by
        simpa using expandAll_eq_replaceAll hfresh (before ++ [first]) rest
      calc _ = (expandAll mode context rest).map
            (fun others => .node tag (before ++ first :: others) location) := by
            cases expandAll mode context rest <;> rfl
        _ = _ := hrest
        _ = _ := by
          cases later.mapM (Tree.atPath (expandTest mode context)) with
          | error e => rfl
          | ok others =>
            refine congrArg Except.ok ?_
            rw [Tree.replaceAll_append, Tree.replaceAll_behind]

end

/-! ## What is left alone -/

/-- Above what lies in no test block there is no test block either. -/
private theorem isTestBlock_of_outside {t : Tree} {path : List Nat}
    (houtside : ∀ entry ∈ t.outerTests, ¬ entry.1 <+: path) : t.isTestBlock = false := by
  rw [Bool.eq_false_iff]
  intro htest
  exact houtside ([], t) (Tree.nil_mem_outerTests.mpr ⟨rfl, htest⟩) List.nil_prefix

/-- With nothing finished, what lies in no test block keeps its tag, its scalars, the order of its
children and its span. -/
theorem frame_of_expand (hfresh : context.finished = []) {t expanded u : Tree} {path : List Nat}
    (hdone : expand mode context t = .ok expanded) (hdig : t.dig? path = some u)
    (houtside : ∀ entry ∈ t.outerTests, ¬ entry.1 <+: path) :
    ∃ u', expanded.dig? path = some u' ∧ u'.tag = u.tag ∧ u'.location = u.location ∧
      u'.children.map Tree.scalar? = u.children.map Tree.scalar? := by
  induction path generalizing t expanded with
  | nil =>
    have hother := isTestBlock_of_outside houtside
    obtain rfl := Option.some.inj hdig
    refine ⟨expanded, rfl, ?_⟩
    cases t with
    | leaf value =>
      rw [ok_of_expand_leaf hdone]
      exact ⟨rfl, rfl, rfl⟩
    | node tag children location =>
      obtain ⟨others, hothers, rfl⟩ := ok_of_expand_other (open_of_fresh hfresh) hother hdone
      exact ⟨rfl, rfl, map_scalar?_of_expandAll hothers⟩
  | cons index path ih =>
    have hother := isTestBlock_of_outside houtside
    obtain ⟨child, hchild, hdig⟩ := Option.bind_eq_some_iff.mp hdig
    obtain ⟨child', hdone, hfound⟩ := nodeAt?_of_expand hfresh hother hdone hchild
    have hinner : ∀ entry ∈ child.outerTests, ¬ entry.1 <+: path := by
      intro entry hmem hbelow
      exact houtside (index :: entry.1, entry.2)
        (Tree.cons_mem_outerTests.mpr ⟨hother, child, hchild, hmem⟩)
        (List.cons_prefix_cons.mpr ⟨rfl, hbelow⟩)
    obtain ⟨u', hdig', hkept⟩ := ih hdone hdig hinner
    exact ⟨u', by rw [Tree.dig?, hfound, Option.bind_some, hdig'], hkept⟩

end Phases

/-! ## The standard chain -/

namespace Pipeline

section

variable {mode : Mode} {indent : Nat} {context : Context} {t : Tree} {entry : List Nat × Tree}

/-- A test alone goes through the standard chain as through the phase expansion. -/
private theorem runAll_of_mem_outerTests (hplain : t.Unannotated) (hmem : entry ∈ t.outerTests) :
    Pass.runAll context entry.2 (standard mode indent).chain =
      Phases.expandTest mode context entry.2 := by
  have hinside := Tree.inside_of_mem_outerTests hmem
  rw [Pass.runAll_standard fun u hu => hplain u (hu.trans hinside),
    Phases.expand_of_isTestBlock (Tree.mem_outerTests_iff.mp hmem).2.1]

/-- A tree without annotations goes through the standard chain test by test. -/
theorem runAll_eq_replaceAll (hfresh : context.finished = []) (hplain : t.Unannotated) :
    Pass.runAll context t (standard mode indent).chain =
      (t.outerTests.mapM (Tree.atPath fun u =>
        Pass.runAll context u (standard mode indent).chain)).map t.replaceAll := by
  rw [Pass.runAll_standard hplain, Phases.expand_eq_replaceAll hfresh]
  refine congrArg (Except.map t.replaceAll) (mapM_congr fun entry hmem => ?_)
  unfold Tree.atPath
  dsimp only
  rw [runAll_of_mem_outerTests hplain hmem]

/-- A text without phases and annotations is only laid out anew. -/
private theorem expandText_of_phaseless {path text : String} (hread : readText path text = .ok t)
    (hplain : t.Unannotated) (hphaseless : t.Phaseless) :
    (standard .lenient indent).expandText path text = .ok t := by
  unfold expandText
  rw [hread]
  change Pass.runAll (.ofText text) t _ = _
  rw [Pass.runAll_standard hplain, Phases.expand_of_phaseless rfl hphaseless]

end

/-- In a tree without annotations the standard chain expands the tests that lie in no other one, in
the order of their paths and each as if it stood alone. It succeeds exactly when each of them does;
then each stands expanded in its place, and all that lies in none of them keeps its tag, its
scalars, the order of its children and its span. Otherwise it fails as the first of them that
fails. So a text without phases and annotations is only laid out anew by the lenient chain, and is
read back from there as it was. -/
theorem locality_of_standard (mode : Mode) (indent : Nat) :
    (∀ t : Tree, (t.outerTests.map Prod.fst).Pairwise (· < ·) ∧
      ∀ path u, (path, u) ∈ t.outerTests ↔ t.dig? path = some u ∧ u.isTestBlock = true ∧
        ∀ above below v, path = above ++ below → below ≠ [] → t.dig? above = some v →
          v.isTestBlock = false) ∧
    (∀ (context : Context) (t : Tree), context.finished = [] → t.Unannotated →
      let run u := Pass.runAll context u (standard mode indent).chain
      (∀ entry ∈ t.outerTests,
        run entry.2 = if mode = .lenient ∧ hasPhases entry.2.testStatements = false then
          .ok entry.2 else TestMethod.parse context entry.2 >>= Generate.method) ∧
      (∀ expanded, run t = .ok expanded ↔ ∃ built,
        List.Forall₂ (fun entry new => new.1 = entry.1 ∧ run entry.2 = .ok new.2)
          t.outerTests built ∧
        expanded = t.replaceAll built) ∧
      (∀ expanded, run t = .ok expanded →
        (∀ entry ∈ t.outerTests, ∃ new, run entry.2 = .ok new ∧
          expanded.dig? entry.1 = some new) ∧
        ∀ path u, t.dig? path = some u → (∀ entry ∈ t.outerTests, ¬ entry.1 <+: path) →
          ∃ u', expanded.dig? path = some u' ∧ u'.tag = u.tag ∧ u'.location = u.location ∧
            u'.children.map Tree.scalar? = u.children.map Tree.scalar?) ∧
      ∀ e, run t = .error e ↔ ∃ earlier entry later,
        t.outerTests = earlier ++ entry :: later ∧
        (∀ other ∈ earlier, ∃ new, run other.2 = .ok new) ∧ run entry.2 = .error e) ∧
    ∀ (path text : String) (t : Tree), readText path text = .ok t → t.Unannotated → t.Phaseless →
      (standard .lenient indent).expandText path text = .ok t ∧
      (standard .lenient indent).transform text = .ok (t.layout indent) ∧
      ∃ emitted, readText path (t.layout indent) = .ok emitted ∧ emitted.bare = t.bare := by
  refine ⟨fun t => ⟨Tree.pairwise_outerTests t, fun path u => Tree.mem_outerTests_iff⟩, ?_, ?_⟩
  · intro context t hfresh hplain run
    have hrun : run t = (t.outerTests.mapM (Tree.atPath run)).map t.replaceAll :=
      runAll_eq_replaceAll hfresh hplain
    refine ⟨?_, ?_, ?_, ?_⟩
    · intro entry hmem
      change Pass.runAll context entry.2 _ = _
      rw [runAll_of_mem_outerTests hplain hmem, Phases.expandTest]
      simp only [Bool.and_eq_true, decide_eq_true_eq, Bool.not_eq_true']
    · intro expanded
      rw [hrun]
      constructor
      · intro hdone
        obtain ⟨built, hbuilt, rfl⟩ := ok_of_map hdone
        exact ⟨built, (mapM_ok_iff.mp hbuilt).imp fun _ _ => Tree.atPath_ok_iff.mp, rfl⟩
      · rintro ⟨built, hbuilt, rfl⟩
        rw [mapM_ok_iff.mpr (hbuilt.imp fun _ _ => Tree.atPath_ok_iff.mpr)]
        rfl
    · intro expanded hdone
      change Pass.runAll context t _ = _ at hdone
      rw [Pass.runAll_standard hplain] at hdone
      refine ⟨fun entry hmem => ?_, fun path u => Phases.frame_of_expand hfresh hdone⟩
      obtain ⟨new, hnew, hdig⟩ := Phases.expandTest_of_mem_outerTests hfresh hdone hmem
      exact ⟨new, (runAll_of_mem_outerTests hplain hmem).trans hnew, hdig⟩
    · intro e
      rw [hrun, error_map_iff, mapM_error_iff]
      simp only [Tree.atPath_error_iff, Tree.atPath_ok_iff, Prod.exists, exists_and_left,
        exists_eq_left]
  · intro path text t hread hplain hphaseless
    have htmp : readText "tmp" text = .ok t := by
      rw [readText_path "tmp" path text, hread]
      rfl
    refine ⟨expandText_of_phaseless hread hplain hphaseless, ?_, ?_⟩
    · rw [transform, expandText_of_phaseless htmp hplain hphaseless]
      rfl
    · exact Tree.exists_readText_layout indent path (isNode_of_readText hread)
        (readable_of_readText hread)

/-- A test without phases. -/
def plainTest : Tree :=
  .node "block"
    [Tree.Build.call none "test" [Tree.Build.str "plain"], .node "args" [] none,
     Tree.Build.call none "assert" [.node "true" [] none]] none

/-- Between other tests it stays as it is, and so does its text. -/
theorem locality_of_standard_plainTest :
    let t := Tree.node "begin" [plainTest, Phases.tableTests] none
    let text := plainTest.layout 2
    (∃ built expanded, Context.detached.finished = [] ∧ t.Unannotated ∧
      Pass.runAll .detached t (standard .lenient 2).chain = .ok expanded ∧
      expanded = t.replaceAll built ∧ expanded.dig? [0] = some plainTest) ∧
    ∃ plain emitted, readText "a.sexp" text = .ok plain ∧ plain.Unannotated ∧ plain.Phaseless ∧
      (standard .lenient 2).transform text = .ok (plain.layout 2) ∧
      readText "a.sexp" (plain.layout 2) = .ok emitted ∧ emitted.bare = plain.bare := by
  intro t text
  obtain ⟨-, htrees, htexts⟩ := locality_of_standard .lenient 2
  constructor
  · have hplain : t.Unannotated := by decide
    have hdone : ∃ expanded,
        Pass.runAll .detached t (standard .lenient 2).chain = .ok expanded := by
      rw [Pass.runAll_standard hplain]
      exact ⟨_, rfl⟩
    obtain ⟨expanded, hdone⟩ := hdone
    obtain ⟨halone, hsuccess, hframe, -⟩ := htrees .detached t rfl hplain
    obtain ⟨built, -, hbuilt⟩ := (hsuccess expanded).mp hdone
    have hmem : ([0], plainTest) ∈ t.outerTests := List.mem_cons_self
    obtain ⟨new, hnew, hdig⟩ := (hframe expanded hdone).1 _ hmem
    have hkept : new = plainTest := by
      have hsame := halone _ hmem
      rw [if_pos (by decide)] at hsame
      exact Except.ok.inj (hnew.symm.trans hsame)
    exact ⟨built, expanded, rfl, hplain, hdone, hbuilt, hkept ▸ hdig⟩
  · have hreadable : plainTest.Readable := by
      unfold Tree.Readable
      decide
    have hread := @Tree.readText_layout 2 plainTest rfl hreadable "a.sexp"
    have hplain : (Tree.placed (.ofChars text.toList) 2 0 0 plainTest).Unannotated := by decide
    have hphaseless : (Tree.placed (.ofChars text.toList) 2 0 0 plainTest).Phaseless := by decide
    obtain ⟨-, hdone, emitted, hagain, hshape⟩ := htexts _ _ _ hread hplain hphaseless
    exact ⟨_, emitted, hread, hplain, hphaseless, hdone, hagain, hshape⟩

end Pipeline

end PhasedTests
