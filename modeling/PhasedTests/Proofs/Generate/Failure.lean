import PhasedTests.Proofs.Generate.Method

/-!
# When no method is generated

Parsed tests have the shape that code generation expects, and their cardinalities can be resolved. A
parsed test is therefore generated into a method unless its Then phase expects two exceptions; then
generation fails at the second of them.
-/

namespace PhasedTests

/-- The statements that expect an exception. -/
def raising (statements : List Tree) : List Tree :=
  statements.filter fun s => (Statement.raised? s).isSome

private theorem raising_append (first second : List Tree) :
    raising (first ++ second) = raising first ++ raising second :=
  List.filter_append ..

/-- There are as many as exceptions are expected. -/
theorem length_raising (statements : List Tree) :
    (raising statements).length = (statements.filterMap Statement.raised?).length := by
  rw [raising, ← List.countP_eq_length_filter, List.length_filterMap_eq_countP]

/-- An expected exception is parsed into its view at the place of the statement. -/
theorem TestMethod.raises_of_thenStatement {context : Context} {statement parsed : Tree}
    {view : Ir.RaisesView} (hdone : thenStatement context statement = .ok parsed)
    (hraised : Statement.raised? statement = some view) :
    Ir.View.of? parsed = some (.raises view) ∧ parsed.location = statement.location := by
  unfold thenStatement at hdone
  split at hdone
  · rename_i hinteraction
    rw [Interaction.raised?_eq_none hinteraction] at hraised
    cases hraised
  · unfold Statement.classify at hdone
    rw [if_pos rfl] at hdone
    obtain ⟨built, hbuilt, hdone⟩ := ok_of_bind hdone
    rcases Statement.raises?_cases hbuilt with ⟨hnone, -⟩ | ⟨found, hsource, hnode, rfl⟩
    · rw [hnone] at hraised
      cases hraised
    · obtain rfl := Option.some.inj (hsource.symm.trans hraised)
      rw [← Except.ok.inj hdone]
      exact ⟨Ir.View.of?_raises hnode, rfl⟩

namespace Generate

open TestMethod (phaseView)

variable {context : Context} {sections : Sections} {second : Tree}

/-- A Then phase fails at the statement that expects a second exception, counting one that was
expected before the phase. -/
theorem addThen_repeated {statements parsed : List Tree} {ordinal : Nat}
    (hnodes : Tree.AllNodes statements)
    (hparsed : statements.mapM (TestMethod.thenStatement context) = .ok parsed)
    (hsecond : (raising statements)[1 - sections.raises.toList.length]? = some second) :
    sections.addThen ordinal parsed = .error (.raisesCondition .repeated second.location) := by
  induction statements generalizing parsed sections ordinal with
  | nil => cases hsecond
  | cons statement rest ih =>
    obtain ⟨first, later, hfirst, hlater, rfl⟩ := ok_of_mapM_cons hparsed
    have hnode := hnodes statement List.mem_cons_self
    have hrest : Tree.AllNodes rest := fun t ht => hnodes t (List.mem_cons_of_mem _ ht)
    cases hraised : Statement.raised? statement with
    | none =>
      have hone : (sections.raises.toList ++ (Statement.raised? statement).toList).length ≤ 1 := by
        rw [hraised]
        cases sections.raises <;> simp
      rw [addThen_cons hnode hfirst hone]
      refine ih hrest hlater ?_
      rw [raising, List.filter_cons_of_neg (by simp [hraised])] at hsecond
      have hkept : (withThen context sections (statement, ordinal)).raises = sections.raises := by
        simp only [withThen, hraised]
        cases sections.raises <;> rfl
      rw [hkept]
      exact hsecond
    | some view =>
      rw [raising, List.filter_cons_of_pos (by simp [hraised])] at hsecond
      cases hexpected : sections.raises with
      | none =>
        have hone :
            (sections.raises.toList ++ (Statement.raised? statement).toList).length ≤ 1 := by
          rw [hexpected, hraised]
          exact Nat.le_refl 1
        rw [addThen_cons hnode hfirst hone]
        refine ih hrest hlater ?_
        rw [hexpected] at hsecond
        have hset : (withThen context sections (statement, ordinal)).raises = some view := by
          simp only [withThen, hraised, hexpected]
          rfl
        rw [hset]
        exact hsecond
      | some other =>
        rw [hexpected] at hsecond
        obtain rfl := Option.some.inj hsecond
        obtain ⟨hview, hplace⟩ := TestMethod.raises_of_thenStatement hfirst hraised
        simp only [Sections.addThen, hview, hexpected, hplace]
        rfl

/-- The phases of a test fail at the statement that expects a second exception. -/
theorem foldlM_add_repeated {blocks : List Block} {views : List Ir.PhaseView}
    (hnodes : ∀ block ∈ blocks, Tree.AllNodes block.statements)
    (hviews : blocks.mapM (phaseView context) = .ok views)
    (hsecond : (raising (Block.gathered .then blocks))[1 - sections.raises.toList.length]? =
      some second) :
    views.foldlM Sections.add sections = .error (.raisesCondition .repeated second.location) := by
  induction blocks generalizing views sections with
  | nil => cases hsecond
  | cons block rest ih =>
    obtain ⟨view, later, hview, hlater, rfl⟩ := ok_of_mapM_cons hviews
    have hblock := hnodes block List.mem_cons_self
    have hrest := fun b hb => hnodes b (List.mem_cons_of_mem block hb)
    have hgathered : Block.gathered .then (block :: rest) =
        Block.gathered .then [block] ++ Block.gathered .then rest := by
      rw [Block.gathered_cons, Block.gathered_cons]
      exact congrArg (· ++ _) (List.append_nil _).symm
    rw [hgathered, raising_append] at hsecond
    rw [List.foldlM_cons]
    -- The second exception is expected in this block or behind it.
    by_cases hhere : 1 - sections.raises.toList.length <
        (raising (Block.gathered .then [block])).length
    · rw [List.getElem?_append_left hhere] at hsecond
      have hthen : block.phase = .then := by
        refine Decidable.byContradiction fun hother => ?_
        rw [Block.gathered_cons, if_neg hother] at hhere
        exact absurd hhere (Nat.not_lt_zero _)
      rw [Block.gathered_cons, if_pos hthen, Block.gathered, List.filter_nil, List.flatMap_nil,
        List.append_nil] at hsecond
      obtain ⟨parsed, hparsed, rfl⟩ := ok_of_map hview
      rw [hthen] at hparsed
      have hadded := @addThen_repeated context sections second block.statements parsed 0 hblock
        hparsed hsecond
      simp only [Sections.add, hthen, hadded]
      rfl
    · rw [List.getElem?_append_right (Nat.le_of_not_lt hhere)] at hsecond
      have hlength := length_raising (Block.gathered .then [block])
      have hset : sections.raises.toList.length ≤ 1 := by
        cases sections.raises <;> simp
      have hone : (sections.raises.toList ++
          (Block.gathered .then [block]).filterMap Statement.raised?).length ≤ 1 := by
        rw [List.length_append]
        omega
      rw [add_eq hblock hview hone]
      refine ih hrest hlater ?_
      have hraises : (withBlock context sections [block]).raises.toList =
          sections.raises.toList ++
            (Block.gathered .then [block]).filterMap Statement.raised? := toList_head? hone
      rw [hraises, List.length_append, ← hlength, Nat.sub_add_eq]
      exact hsecond

/-- A parsed test is generated into a method, or fails at the statement of its Then phase that
expects a second exception. -/
theorem method_error_iff {t test : Tree} (hparse : TestMethod.parse context t = .ok test)
    (e : TransformError) : method test = .error e ↔
      ∃ second, (raising (statementsIn .then t.testStatements))[1]? = some second ∧
        e = .raisesCondition .repeated second.location := by
  cases hsecond : (raising (statementsIn .then t.testStatements))[1]? with
  | none =>
    have hraises : ((statementsIn .then t.testStatements).filterMap Statement.raised?).length ≤ 1 :=
      length_raising _ ▸ List.getElem?_eq_none_iff.mp hsecond
    obtain ⟨_, _, -, -, ⟨-, hmethod⟩ | ⟨-, _, _, _, -, -, hmethod⟩⟩ :=
      method_cases hparse hraises
    · simp [hmethod]
    · simp [hmethod]
  | some second =>
    obtain ⟨methodCall, args, blocks, phases, table, found, -, -, hsplit, rfl, -, -, hviews,
      hview⟩ := TestMethod.view_of_parse hparse
    have hgathered := Block.gathered_of_split (by decide : Phase.then ≠ .start) hsplit
    rw [← hgathered, ← Block.gathered_filter_where (by decide)] at hsecond
    have hbody : methodBody ⟨phases.filterMap Ir.PhaseView.of?⟩ =
        .error (.raisesCondition .repeated second.location) := by
      have hsections := @foldlM_add_repeated context .empty second _ _
        (fun block hmem => allNodes_of_split hsplit block (List.mem_filter.mp hmem).1)
        hviews hsecond
      unfold methodBody Sections.ofPhases
      rw [hsections]
      rfl
    have hmethod : method ((Ir.TestView.build (Ir.DefView.build ⟨methodCall, args⟩)
        (Ir.BodyView.build phases) table).located t.location) =
          .error (.raisesCondition .repeated second.location) := by
      unfold method
      rw [hview]
      change (methodBody _ >>= _) = _
      rw [hbody]
      rfl
    rw [hmethod]
    constructor
    · intro he
      exact ⟨second, rfl, (Except.error.inj he).symm⟩
    · rintro ⟨other, hother, rfl⟩
      rw [Option.some.inj hother]

/-- So a test that is generated into a method expects at most one exception. -/
theorem raises_of_method {t test built : Tree} (hparse : TestMethod.parse context t = .ok test)
    (hdone : method test = .ok built) :
    ((statementsIn .then t.testStatements).filterMap Statement.raised?).length ≤ 1 := by
  rw [← length_raising, ← List.getElem?_eq_none_iff, Option.eq_none_iff_forall_not_mem]
  intro second hsecond
  have hfailed := (method_error_iff hparse _).mpr ⟨second, hsecond, rfl⟩
  rw [hdone] at hfailed
  cases hfailed

end Generate

end PhasedTests
