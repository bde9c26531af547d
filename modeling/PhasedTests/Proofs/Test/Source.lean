import PhasedTests.Proofs.Outcome
import PhasedTests.Test.Parse

/-!
# What parsing a test looks at

Of what an expansion knows, the parser of a test method looks at the source text alone, and not at
the targets that are finished. Whether a test can be parsed does not depend on the source text
either.
-/

namespace PhasedTests

variable {context other : Context}

private theorem Context.sourceText_congr (hsource : context.source = other.source) :
    context.sourceText = other.sourceText := by
  funext t
  unfold sourceText
  rw [hsource]

namespace Statement

private theorem condition_congr (hsource : context.source = other.source) :
    condition context = condition other := by
  funext t
  unfold condition
  rw [Context.sourceText_congr hsource]

private theorem classify_congr (hsource : context.source = other.source) :
    classify context = classify other := by
  funext raisesAllowed t
  unfold classify
  rw [condition_congr hsource]

end Statement

namespace TestMethod

private theorem phaseNode_congr (hsource : context.source = other.source) :
    phaseNode context = phaseNode other := by
  have hthen : thenStatement context = thenStatement other := by
    funext t
    unfold thenStatement
    rw [Statement.classify_congr hsource]
  have hphase : phaseStatements context = phaseStatements other := by
    funext phase statements
    unfold phaseStatements
    rw [hthen, Statement.classify_congr hsource]
  funext block
  unfold phaseNode
  rw [hphase]

private theorem parseBlocks_congr (hsource : context.source = other.source) (blocks : List Block) :
    parseBlocks context blocks = parseBlocks other blocks := by
  induction blocks with
  | nil => rfl
  | cons block rest ih => rw [parseBlocks, parseBlocks, phaseNode_congr hsource, ih]

/-- Contexts of the same source parse a test method alike. -/
theorem parse_congr (hsource : context.source = other.source) (t : Tree) :
    parse context t = parse other t := by
  unfold parse
  simp only [parseBlocks_congr hsource]

end TestMethod

/-! ## Two source texts -/

private theorem Statement.failAlike_classify (raisesAllowed : Bool) (t : Tree) :
    FailAlike (classify context raisesAllowed t) (classify other raisesAllowed t) := by
  unfold classify
  split
  · refine (Agree.refl (R := Eq) (fun _ => rfl) (raises? t)).bind ?_
    rintro built _ - - rfl
    cases built <;> exact failAlike_ok _ _
  · exact failAlike_ok _ _

namespace TestMethod

private theorem failAlike_thenStatement (s : Tree) :
    FailAlike (thenStatement context s) (thenStatement other s) := by
  unfold thenStatement
  split
  · exact failAlike_self _
  · exact Statement.failAlike_classify true s

private theorem failAlike_phaseNode (block : Block) :
    FailAlike (phaseNode context block) (phaseNode other block) := by
  have hstatements : FailAlike (phaseStatements context block.phase block.statements)
      (phaseStatements other block.phase block.statements) := by
    unfold phaseStatements
    split
    · exact (Agree.mapM fun s _ => failAlike_thenStatement s).failAlike
    · exact (Agree.mapM fun s _ => Statement.failAlike_classify false s).failAlike
    · exact failAlike_self _
  exact hstatements.bind fun _ _ _ _ _ => failAlike_ok _ _

private theorem failAlike_parseBlocks (blocks : List Block) :
    FailAlike (parseBlocks context blocks) (parseBlocks other blocks) := by
  induction blocks with
  | nil => exact failAlike_self _
  | cons block rest ih =>
    rw [parseBlocks, parseBlocks]
    split
    · refine (failAlike_self (Table.parse block)).bind fun _ _ _ _ _ => ?_
      exact ih.bind fun _ _ _ _ _ => failAlike_ok _ _
    · refine (failAlike_phaseNode block).bind fun _ _ _ _ _ => ?_
      exact ih.bind fun _ _ _ _ _ => failAlike_ok _ _

/-- Whether a test can be read, and the error if it cannot, does not depend on the context. -/
theorem failAlike_parse (t : Tree) : FailAlike (parse context t) (parse other t) := by
  unfold parse
  split
  · split
    · exact failAlike_self _
    · exact (failAlike_parseBlocks _).bind fun _ _ _ _ _ => failAlike_ok _ _
  · exact failAlike_self _

end TestMethod

end PhasedTests
