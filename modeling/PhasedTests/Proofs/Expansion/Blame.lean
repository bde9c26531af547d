import PhasedTests.Proofs.Expansion.Locality
import PhasedTests.Proofs.Sexp.Extent

/-!
# Where an expansion fails

The expansion of a text fails at the first of its tests that cannot be expanded alone. The error is
placed at a node of this test, so its span lies within the span of the test.
-/

namespace PhasedTests

/-- In a text that is read every node inside a test has a span within that of the test. -/
theorem within_of_readText {path text : String} {t u v : Tree} (hread : readText path text = .ok t)
    (hu : Tree.Inside u t) (htest : u.isTestBlock = true) (hv : Tree.NodeInside v u) :
    ∃ place span, u.location = some place ∧ v.location = some span ∧
      place.first ≤ span.first ∧ span.first < span.stop ∧ span.stop ≤ place.stop := by
  obtain ⟨forms, rfl, hderives, -⟩ := derives_of_readText hread
  have hordered : Ordered (Scan.ofChars text.toList).lexemes :=
    (Scan.ordered_of_fromOffset rfl).1
  have hform : ∃ form ∈ forms, Tree.Inside u form := by
    rcases Reader.document_cases forms with hsingle | ⟨location, hbegin⟩
    · exact ⟨_, Reader.document_mem hsingle, hu⟩
    · rw [hbegin] at hu
      cases hu with
      | self =>
        have hother : (Tree.node "begin" forms location).isTestBlock = false :=
          Tree.isTestBlock_eq_false (by decide : "begin" ≠ "block")
        rw [hother] at htest
        cases htest
      | child hform hinside => exact ⟨_, hform, hinside⟩
  obtain ⟨form, hform, hinside⟩ := hform
  exact hderives.within_of_inside hordered hform hinside hv

namespace Phases

/-- The expansion of a text that is read fails at the first test, in document order, that cannot be
expanded alone. The error has a span, which lies within the span of this test. -/
theorem place_of_expand_error {mode : Mode} {context : Context} {path text : String} {t : Tree}
    {e : TransformError} (hread : readText path text = .ok t) (hfresh : context.finished = [])
    (hfailed : expand mode context t = .error e) :
    ∃ steps u place span, (steps, u) ∈ t.outerTests ∧ expand mode context u = .error e ∧
      (∀ entry ∈ t.outerTests, entry.1 < steps →
        ∃ new, expand mode context entry.2 = .ok new) ∧
      u.location = some place ∧ e.location = some span ∧
      place.first ≤ span.first ∧ span.first < span.stop ∧ span.stop ≤ place.stop := by
  rw [expand_eq_replaceAll hfresh, error_map_iff, mapM_error_iff] at hfailed
  obtain ⟨earlier, ⟨steps, u⟩, later, htests, hearlier, hfailed⟩ := hfailed
  have hmem : (steps, u) ∈ t.outerTests := by simp [htests]
  have htest (entry : List Nat × Tree) (hentry : entry ∈ t.outerTests) :=
    (Tree.mem_outerTests_iff.mp hentry).2.1
  rw [Tree.atPath_error_iff] at hfailed
  obtain ⟨v, hv, hplace⟩ := (blames_of_expandTest mode context (htest _ hmem) e hfailed).place
  obtain ⟨place, span, hu, hspan, hwithin⟩ :=
    within_of_readText hread (Tree.inside_of_mem_outerTests hmem) (htest _ hmem) hv
  refine ⟨steps, u, place, span, hmem, ?_, ?_, hu, hplace ▸ hspan, hwithin⟩
  · rw [expand_of_isTestBlock (htest _ hmem)]
    exact hfailed
  · intro entry hentry hbefore
    -- The paths of the tests increase, so a test with a smaller path is one of the earlier ones.
    have hpaths := Tree.pairwise_outerTests t
    rw [htests, List.map_append, List.map_cons, List.pairwise_append, List.pairwise_cons] at hpaths
    rw [expand_of_isTestBlock (htest entry hentry)]
    rw [htests, List.mem_append, List.mem_cons] at hentry
    rcases hentry with hentry | rfl | hentry
    · obtain ⟨built, hbuilt⟩ := hearlier entry hentry
      exact ⟨built.2, (Tree.atPath_ok_iff.mp hbuilt).2⟩
    · exact absurd hbefore (lt_irrefl _)
    · exact absurd (hpaths.2.1.1 _ (List.mem_map_of_mem hentry)) (not_lt_of_gt hbefore)

/-- A file with a test that is expanded, one whose table has a short row, and one without phases. -/
def raggedTests : Tree :=
  let word (name : String) := Tree.Build.call none name []
  let pair (method : String) (left right : Tree) := Tree.Build.call (some left) method [right]
  let test (name : String) (statements : List Tree) := Tree.Build.fresh "block"
    [Tree.Build.call none "test" [Tree.Build.str name], Tree.Build.fresh "args" [],
     Tree.Build.begin statements]
  Tree.Build.fresh "class"
    [test "holds" [word "Expect", word "ready"],
     test "adds"
      [word "Expect", pair "==" (word "a") (word "b"), word "Where", pair "|" (word "a") (word "b"),
       Tree.Build.int 1],
     test "stays" [word "idle"]]

/-- Its expansion fails at the short row, which lies inside the test. -/
theorem place_of_expand_error_raggedTests :
    ∃ t steps u place span, readText "a.sexp" (raggedTests.layout 2) = .ok t ∧
      expand .strict .detached t = .error (.malformedTable (.wrongWidth 1 2) (some span)) ∧
      (steps, u) ∈ t.outerTests ∧
      expand .strict .detached u = .error (.malformedTable (.wrongWidth 1 2) (some span)) ∧
      (∀ entry ∈ t.outerTests, entry.1 < steps →
        ∃ new, expand .strict .detached entry.2 = .ok new) ∧
      u.location = some place ∧
      place.first ≤ span.first ∧ span.first < span.stop ∧ span.stop ≤ place.stop := by
  have hreadable : raggedTests.Readable := by
    unfold Tree.Readable
    decide
  have hread := @Tree.readText_layout 2 raggedTests rfl hreadable "a.sexp"
  have hfailed : ∃ span, expand .strict .detached (Tree.placed
      (.ofChars (raggedTests.layout 2).toList) 2 0 0 raggedTests) =
        .error (.malformedTable (.wrongWidth 1 2) (some span)) := ⟨_, rfl⟩
  obtain ⟨row, hfailed⟩ := hfailed
  obtain ⟨steps, u, place, span, hmem, hu, hearlier, hplace, hspan, hwithin⟩ :=
    place_of_expand_error hread rfl hfailed
  obtain rfl := Option.some.inj hspan
  exact ⟨_, steps, u, place, row, hread, hfailed, hmem, hu, hearlier, hplace, hwithin⟩

end Phases

end PhasedTests
