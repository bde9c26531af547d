import PhasedTests.Expansion.Containment.Basic
import PhasedTests.Test.Parse

/-!
# What a parsed test contains

A parsed test is put together from the statements of the test: every cell, operand, argument and
phase of it is a part of the test, at a place of the test.
-/

namespace PhasedTests

/-- The results of a list of steps that all succeed. -/
theorem exists_of_mem_mapM {ε α β : Type} {step : α → Except ε β} {xs : List α} {ys : List β}
    (hrun : xs.mapM step = .ok ys) {y : β} (hmem : y ∈ ys) : ∃ x ∈ xs, step x = .ok y := by
  induction xs generalizing ys with
  | nil =>
    obtain rfl : [] = ys := by simpa [pure, Except.pure] using hrun
    simp at hmem
  | cons x rest ih =>
    rw [List.mapM_cons] at hrun
    cases hfirst : step x with
    | error e => simp [hfirst, bind, Except.bind] at hrun
    | ok z =>
      cases hothers : rest.mapM step with
      | error e => simp [hfirst, hothers, bind, Except.bind] at hrun
      | ok zs =>
        obtain rfl : z :: zs = ys := by
          simpa [hfirst, hothers, bind, Except.bind, pure, Except.pure] using hrun
        rcases List.mem_cons.mp hmem with rfl | hmem
        · exact ⟨x, by simp, hfirst⟩
        · obtain ⟨x', hmem', hstep⟩ := ih hothers hmem
          exact ⟨x', by simp [hmem'], hstep⟩

/-- The count or the bounds of a cardinality are compared with `t`. -/
def Cardinality.Within (R : Tree → Tree → Prop) (t : Tree) : Cardinality → Prop
  | .any => True
  | .exact count => R count t
  | .range lower upper =>
    (∀ bound, lower = .value bound → R bound t) ∧ ∀ bound, upper = .value bound → R bound t

/-- A block opens a phase that a statement introduced, and its statements and its place are
compared with `t`. -/
structure Block.Within (R : Tree → Tree → Prop) (t : Tree) (block : Block) : Prop where
  introduced : block.phase ∈ Phase.introduced
  statements : ∀ s ∈ block.statements, R s t
  place : PlaceWithin R block.location t

namespace Assembly

variable {R : Tree → Tree → Prop} {t u : Tree}

/-! ## Data tables -/

private theorem of_mem_cells (K : Assembly R) {c : Tree} (hmem : c ∈ Table.cells t) : R c t := by
  fun_induction Table.cells t with
  | case1 tag left right location hsplit ihLeft ihRight =>
    rcases List.mem_append.mp hmem with hmem | hmem
    · exact K.trans (ihLeft hmem) (K.child (by simp))
    · exact K.trans (ihRight hmem) (K.child (by simp))
  | case2 tag left right location hsplit =>
    obtain rfl := List.mem_singleton.mp hmem
    exact K.refl _
  | case3 t =>
    obtain rfl := List.mem_singleton.mp hmem
    exact K.refl _

private theorem of_row (K : Assembly R) {width : Nat} {row : Tree}
    (hbuilt : Table.row width u = .ok row)
    (hpart : R u t) : R row t := by
  unfold Table.row at hbuilt
  dsimp only at hbuilt
  split at hbuilt
  · obtain rfl := Except.ok.inj hbuilt
    exact K.moved (K.array fun c hmem => K.trans (K.of_mem_cells hmem) hpart)
      (placeWithin_location hpart)
  · cases hbuilt

private theorem of_tableParse (K : Assembly R) {block : Block} {table : Tree}
    (hparsed : Table.parse block = .ok table) (hwithin : block.Within R t) : R table t := by
  unfold Table.parse at hparsed
  split at hparsed
  · cases hparsed
  · rename_i header rows hstatements
    cases hnames : Table.columns header with
    | error e => simp [hnames, bind, Except.bind] at hparsed
    | ok columns =>
      cases hbuilt : rows.mapM (Table.row columns.length) with
      | error e => simp [hnames, hbuilt, bind, Except.bind] at hparsed
      | ok trees =>
        obtain rfl : _ = table := by
          simpa [hnames, hbuilt, bind, Except.bind, pure, Except.pure] using hparsed
        refine K.moved (K.fresh (by decide) fun c hmem => ?_) hwithin.place
        rcases List.mem_cons.mp hmem with rfl | hmem
        · refine K.fresh (by decide) fun c hmem => ?_
          obtain ⟨name, _, rfl⟩ := List.mem_map.mp hmem
          exact K.leaf _ _
        · obtain ⟨row, hrow, hbuilt⟩ := exists_of_mem_mapM hbuilt hmem
          exact K.of_row hbuilt (hwithin.statements row (by simp [hstatements, hrow]))

/-! ## Verification statements -/

private theorem of_mem_raisesCall? (K : Assembly R) {args : List Tree}
    {variableName : Option String}
    (hfound : Statement.raisesCall? t = some (args, variableName)) {a : Tree} (hmem : a ∈ args) :
    R a t := by
  unfold Statement.raisesCall? at hfound
  split at hfound
  · cases hfound
  · rename_i value name hassigned
    have hpart : R value t := by
      unfold Statement.assigned at hassigned
      split at hassigned
      · split at hassigned
        · obtain ⟨rfl, rfl⟩ := by simpa using hassigned
          exact K.of_nodeAt? ‹_›
        · cases hassigned
      · obtain ⟨rfl, rfl⟩ := by simpa using hassigned
        exact K.refl _
    split at hfound
    · rename_i hcall
      obtain ⟨rfl, rfl⟩ := by simpa using hfound
      exact K.trans (K.of_mem_args hcall hmem) hpart
    · cases hfound

private theorem of_raises? (K : Assembly R) {built : Tree}
    (hfound : Statement.raises? t = .ok (some built)) : R built t := by
  unfold Statement.raises? at hfound
  split at hfound
  · cases hfound
  · rename_i args name hraises
    split at hfound
    · rename_i exception others hnodes
      obtain rfl : _ = built := by simpa using hfound
      refine K.moved (K.fresh (by decide) fun c hmem => ?_) (placeWithin_location (K.refl t))
      rcases List.mem_cons.mp hmem with rfl | hmem
      · have hmem : c ∈ Tree.nodesOf args := by simp [hnodes]
        exact K.of_mem_raisesCall? hraises (List.mem_filter.mp hmem).1
      · cases name <;> simp at hmem
        subst hmem
        exact K.leaf _ _
    · cases hfound

private theorem of_condition (K : Assembly R) {context : Context} :
    R (Statement.condition context t) t := by
  unfold Statement.condition
  split
  · exact K.refl t
  · split
    · rename_i view hfound
      unfold Statement.comparison? at hfound
      split at hfound
      · rename_i lhs operator rhs hcall
        split at hfound
        · obtain rfl := by simpa using hfound
          have hparts := K.of_binaryCall? hcall
          exact K.moved
            (K.fresh (by decide) (by simpa using ⟨hparts.1, K.leaf _ _, hparts.2⟩))
            (placeWithin_location (K.refl t))
        · cases hfound
      · cases hfound
    · exact K.moved (K.fresh (by decide) (by simpa using ⟨K.refl t, K.leaf _ _⟩))
        (placeWithin_location (K.refl t))

private theorem of_classify (K : Assembly R) {context : Context} {raisesAllowed : Bool}
    {built : Tree}
    (hclassified : Statement.classify context raisesAllowed t = .ok built) : R built t := by
  unfold Statement.classify at hclassified
  split at hclassified
  · cases hfound : Statement.raises? t with
    | error e => simp [hfound, bind, Except.bind] at hclassified
    | ok result =>
      cases result with
      | some built' =>
        obtain rfl : built' = built := by
          simpa [hfound, bind, Except.bind, pure, Except.pure] using hclassified
        exact K.of_raises? hfound
      | none =>
        obtain rfl : _ = built := by
          simpa [hfound, bind, Except.bind, pure, Except.pure] using hclassified
        exact K.of_condition
  · obtain rfl := Except.ok.inj hclassified
    exact K.of_condition

/-! ## Interactions -/

/-- The word `_` is made of no other part. -/
theorem wildcard (K : Assembly R) : R PhasedTests.wildcard t :=
  K.bareCall (by decide) (by simp)

private theorem of_boundAt (K : Assembly R) {index : Nat} {which : String} {bound : Bound}
    (hfound : Cardinality.boundAt u index which = .ok bound) (hpart : R u t) :
    ∀ value, bound = .value value → R value t := by
  rintro value rfl
  unfold Cardinality.boundAt at hfound
  split at hfound
  · rename_i node hat
    split at hfound
    · have hfound := Except.ok.inj hfound
      unfold Bound.ofTree at hfound
      split at hfound
      · cases hfound
      · obtain rfl := Bound.value.inj hfound
        exact K.trans (K.of_nodeAt? hat) hpart
    · cases hfound
  · cases hfound

private theorem of_pred (K : Assembly R) {bound : Bound}
    (hwithin : ∀ value, bound = .value value → R value t) :
    ∀ value, bound.pred = .value value → R value t := by
  rintro value hlower
  cases bound with
  | any => cases hlower
  | value upper =>
    obtain rfl := Bound.value.inj hlower
    exact K.callOn (by decide) (hwithin upper rfl) (by simpa using K.int)

/-- The bounds of a resolved cardinality are parts of the one that is written. -/
theorem of_resolve (K : Assembly R) {cardinality : Cardinality}
    (hresolved : Cardinality.resolve u = .ok cardinality) (hpart : R u t) :
    cardinality.Within R t := by
  unfold Cardinality.resolve at hresolved
  split at hresolved
  · obtain rfl := Except.ok.inj hresolved
    trivial
  · split at hresolved
    · obtain rfl := Except.ok.inj hresolved
      exact hpart
    · split at hresolved
      · cases hresolved
      · rename_i range hfound
        have hpart : R range t := by
          unfold Cardinality.range? at hfound
          split at hfound
          · split at hfound
            · obtain rfl := by simpa using hfound
              exact K.trans (K.child (by simp)) hpart
            · cases hfound
          · cases hfound
        cases hlower : Cardinality.boundAt range 0 "Minimum" with
        | error e => simp [hlower, bind, Except.bind] at hresolved
        | ok low =>
          cases hupper : Cardinality.boundAt range 1 "Maximum" with
          | error e => simp [hlower, hupper, bind, Except.bind] at hresolved
          | ok high =>
            obtain rfl : _ = cardinality := by
              simpa [hlower, hupper, bind, Except.bind, pure, Except.pure] using hresolved
            refine ⟨K.of_boundAt hlower hpart, ?_⟩
            split
            · exact K.of_pred (K.of_boundAt hupper hpart)
            · exact K.of_boundAt hupper hpart

private theorem boundToTree (K : Assembly R) {bound : Bound}
    (hwithin : ∀ value, bound = .value value → R value t) : R bound.toTree t := by
  cases bound with
  | any => exact K.wildcard
  | value value => exact hwithin value rfl

private theorem cardinalityToTree (K : Assembly R) {cardinality : Cardinality}
    (hwithin : cardinality.Within R t) : R cardinality.toTree t := by
  cases cardinality with
  | any => exact K.wildcard
  | exact count => exact hwithin
  | range lower upper =>
    exact K.begin (by
      simpa using K.fresh (by decide)
        (by simpa using ⟨K.boundToTree hwithin.1, K.boundToTree hwithin.2⟩))

/-- The answer for an outcome is made of the outcome. -/
theorem outcomeOf (K : Assembly R) (hpart : R u t) : R (Interaction.outcomeOf u) t := by
  unfold Interaction.outcomeOf
  refine K.moved ?_ (placeWithin_location hpart)
  split
  · rename_i hcall
    exact K.fresh (by decide) fun a hmem => K.trans (K.of_mem_args hcall hmem) hpart
  · exact K.fresh (by decide) (by simpa using hpart)

private theorem of_parts (K : Assembly R) :
    R (Interaction.parts t).1 t ∧ ∀ o ∈ (Interaction.parts t).2, R o t := by
  unfold Interaction.parts
  split
  · rename_i hcall
    refine ⟨K.of_receiver hcall rfl, fun o hmem => ?_⟩
    split at hmem
    · obtain rfl := by simpa using hmem
      exact K.of_mem_args hcall (by simp)
    · cases hmem
  · exact ⟨K.refl t, by simp⟩

private theorem mem_of_splitBlockPass {args : List Tree} {a : Tree}
    (hmem : a ∈ (Interaction.splitBlockPass args).1 ∨ a ∈ (Interaction.splitBlockPass args).2) :
    a ∈ args := by
  induction args with
  | nil => simp [Interaction.splitBlockPass] at hmem
  | cons first rest ih =>
    unfold Interaction.splitBlockPass at hmem
    split at hmem
    · simp only [Option.mem_some_iff] at hmem
      rcases hmem with rfl | hmem
      · simp
      · simp [hmem]
    · simp only [List.mem_cons] at hmem
      rcases hmem with hmem | rfl | hmem
      · exact List.mem_cons_of_mem _ (ih (.inl hmem))
      · simp
      · exact List.mem_cons_of_mem _ (ih (.inr hmem))

private theorem of_buildInteraction (K : Assembly R) {cardinality rhs built : Tree}
    {outcome : Option Tree}
    (hdone : Interaction.build cardinality rhs outcome = .ok (some built))
    (hcount : R cardinality t) (hcall : R rhs t) (hanswer : ∀ o ∈ outcome, R o t) : R built t := by
  unfold Interaction.build at hdone
  cases hinline : rhs.hasTag "block" with
  | true => simp [hinline, bind, Except.bind] at hdone
  | false =>
    simp only [hinline, Bool.false_eq_true, ↓reduceIte, bind, Except.bind, pure,
      Except.pure] at hdone
    split at hdone
    · cases hdone
    · cases hdone
    · rename_i receiver message args hfound
      cases hresolved : Cardinality.resolve cardinality with
      | error e => simp [hresolved] at hdone
      | ok written =>
        simp only [hresolved] at hdone
        obtain rfl := by simpa using hdone
        have hparts : ∀ a, a ∈ (Interaction.splitBlockPass (Tree.nodesOf args)).1 ∨
            a ∈ (Interaction.splitBlockPass (Tree.nodesOf args)).2 → R a t := fun a hmem =>
          K.trans (K.of_mem_args hfound (List.mem_filter.mp (mem_of_splitBlockPass hmem)).1) hcall
        refine K.fresh (by decide) fun c hmem => ?_
        simp only [List.mem_cons, List.not_mem_nil, or_false] at hmem
        rcases hmem with rfl | rfl | rfl | rfl | rfl | rfl
        · exact K.cardinalityToTree (K.of_resolve hresolved hcount)
        · exact K.trans (K.of_receiver hfound rfl) hcall
        · exact K.leaf _ _
        · refine K.optional fun c hmem => ?_
          split at hmem
          · cases hmem
          · obtain rfl := by simpa using hmem
            exact K.array fun a hmem => hparts a (.inr hmem)
        · refine K.optional fun c hmem => ?_
          obtain ⟨o, hgiven, rfl⟩ := Option.map_eq_some_iff.mp hmem
          exact K.outcomeOf (hanswer o hgiven)
        · exact K.optional fun c hmem => hparts c (.inl hmem)

private theorem of_interactionParse (K : Assembly R) {parsed : Tree}
    (hdone : Interaction.parse t = .ok parsed) : R parsed t := by
  unfold Interaction.parse at hdone
  split at hdone
  · have hparts := K.of_parts (t := t)
    dsimp only at hdone
    split at hdone
    · rename_i cardinality _ rhs hproduct
      have hoperands := K.of_binaryCall? hproduct
      cases hbuilt : Interaction.build cardinality rhs (Interaction.parts t).2 with
      | error e => simp [hbuilt, bind, Except.bind] at hdone
      | ok result =>
        cases result with
        | none =>
          obtain rfl : t = parsed := by
            simpa [hbuilt, bind, Except.bind, pure, Except.pure] using hdone
          exact K.refl t
        | some interaction =>
          obtain rfl : _ = parsed := by
            simpa [hbuilt, bind, Except.bind, pure, Except.pure] using hdone
          exact K.moved
            (K.of_buildInteraction hbuilt (K.trans hoperands.1 hparts.1)
              (K.trans hoperands.2 hparts.1) hparts.2)
            (placeWithin_location (K.refl t))
    · obtain rfl := Except.ok.inj hdone
      exact K.refl t
  · obtain rfl := Except.ok.inj hdone
    exact K.refl t

/-! ## Phases -/

private theorem of_phaseStatements (K : Assembly R) {context : Context} {phase : Phase}
    {statements parsed : List Tree}
    (hdone : TestMethod.phaseStatements context phase statements = .ok parsed)
    (hparts : ∀ s ∈ statements, R s t) : ∀ s ∈ parsed, R s t := by
  intro s hmem
  unfold TestMethod.phaseStatements at hdone
  split at hdone
  · obtain ⟨x, hx, hstep⟩ := exists_of_mem_mapM hdone hmem
    refine K.trans ?_ (hparts x hx)
    unfold TestMethod.thenStatement at hstep
    split at hstep
    · exact K.of_interactionParse hstep
    · exact K.of_classify hstep
  · obtain ⟨x, hx, hstep⟩ := exists_of_mem_mapM hdone hmem
    exact K.trans (K.of_classify hstep) (hparts x hx)
  · obtain rfl := Except.ok.inj hdone
    exact hparts s hmem

private theorem irTag_generated {phase : Phase} (hintroduced : phase ∈ Phase.introduced) :
    plainTags.contains (phase.irTag?.getD "") = true := by
  have hknown : ∀ phase ∈ Phase.introduced,
      plainTags.contains (phase.irTag?.getD "") = true := by decide
  exact hknown phase hintroduced

private theorem of_phaseNode (K : Assembly R) {context : Context} {block : Block} {phase : Tree}
    (hdone : TestMethod.phaseNode context block = .ok phase) (hwithin : block.Within R t) :
    R phase t := by
  unfold TestMethod.phaseNode at hdone
  cases hparsed : TestMethod.phaseStatements context block.phase block.statements with
  | error e => simp [hparsed, bind, Except.bind] at hdone
  | ok statements =>
    obtain rfl : _ = phase := by
      simpa [hparsed, bind, Except.bind, pure, Except.pure] using hdone
    exact K.moved (K.fresh (irTag_generated hwithin.introduced)
      (K.of_phaseStatements hparsed hwithin.statements)) hwithin.place

/-- The blocks of a body hold its statements and their places. -/
theorem of_splitAfter {test : Option Span} {current : Block} {statements : List Tree}
    {blocks : List Block} (hsplit : Block.splitAfter test current statements = .ok blocks)
    (hopened : current.phase ≠ .start → current.Within R t) (hparts : ∀ s ∈ statements, R s t) :
    ∀ block ∈ blocks, block.Within R t := by
  fun_induction Block.splitAfter test current statements generalizing blocks with
  | case1 current hends =>
    obtain rfl := Except.ok.inj hsplit
    have hstarted : current.phase ≠ .start := by
      intro hstart
      rw [hstart] at hends
      exact absurd hends (by decide)
    simpa using hopened hstarted
  | case2 => cases hsplit
  | case3 current statement rest phase hintroduces _ ih =>
    have hnext : (⟨phase, some statement, []⟩ : Block).Within R t :=
      ⟨Tree.mem_introduced hintroduces, by simp,
        placeWithin_location (hparts statement (by simp))⟩
    cases hfound : Block.splitAfter test ⟨phase, some statement, []⟩ rest with
    | error e => simp [hfound, bind, Except.bind] at hsplit
    | ok later =>
      have hrest := ih hfound (fun _ => hnext) fun s hmem => hparts s (by simp [hmem])
      simp only [hfound, bind, Except.bind, pure, Except.pure, Except.ok.injEq] at hsplit
      subst hsplit
      split
      · exact hrest
      · rename_i hstarted
        simpa using ⟨hopened hstarted, hrest⟩
  | case4 => cases hsplit
  | case5 => cases hsplit
  | case6 current statement rest hintroduces hstarts ih =>
    have hwithin := hopened hstarts
    refine ih hsplit (fun _ => ⟨hwithin.introduced, fun s hmem => ?_, hwithin.place⟩)
      fun s hmem => hparts s (by simp [hmem])
    simp only [Block.push, List.mem_append, List.mem_singleton] at hmem
    rcases hmem with hmem | rfl
    · exact hwithin.statements s hmem
    · exact hparts s (by simp)

private theorem of_parseBlocks (K : Assembly R) {context : Context} {blocks : List Block}
    {phases : List Tree} {table : Option Tree}
    (hdone : TestMethod.parseBlocks context blocks = .ok (phases, table))
    (hwithin : ∀ block ∈ blocks, block.Within R t) :
    (∀ phase ∈ phases, R phase t) ∧ ∀ found ∈ table, R found t := by
  induction blocks generalizing phases table with
  | nil =>
    obtain ⟨rfl, rfl⟩ : [] = phases ∧ none = table := by
      simpa [TestMethod.parseBlocks] using hdone
    simp
  | cons block rest ih =>
    have hfirst := hwithin block (by simp)
    have hothers : ∀ block ∈ rest, block.Within R t := fun b hmem => hwithin b (by simp [hmem])
    unfold TestMethod.parseBlocks at hdone
    split at hdone
    · cases hparsed : Table.parse block with
      | error e => simp [hparsed, bind, Except.bind] at hdone
      | ok found =>
        cases hlater : TestMethod.parseBlocks context rest with
        | error e => simp [hparsed, hlater, bind, Except.bind] at hdone
        | ok pair =>
          obtain ⟨rfl, rfl⟩ : pair.1 = phases ∧ pair.2.or (some found) = table := by
            simpa [hparsed, hlater, bind, Except.bind, pure, Except.pure] using hdone
          refine ⟨(ih hlater hothers).1, fun found' hmem => ?_⟩
          rcases Option.or_eq_some_iff.mp hmem with hmem | ⟨_, hmem⟩
          · exact (ih hlater hothers).2 found' hmem
          · obtain rfl := Option.some.inj hmem
            exact K.of_tableParse hparsed hfirst
    · cases hparsed : TestMethod.phaseNode context block with
      | error e => simp [hparsed, bind, Except.bind] at hdone
      | ok phase =>
        cases hlater : TestMethod.parseBlocks context rest with
        | error e => simp [hparsed, hlater, bind, Except.bind] at hdone
        | ok pair =>
          obtain ⟨rfl, rfl⟩ : phase :: pair.1 = phases ∧ pair.2 = table := by
            simpa [hparsed, hlater, bind, Except.bind, pure, Except.pure] using hdone
          refine ⟨fun phase' hmem => ?_, (ih hlater hothers).2⟩
          rcases List.mem_cons.mp hmem with rfl | hmem
          · exact K.of_phaseNode hparsed hfirst
          · exact (ih hlater hothers).1 phase' hmem

/-- The statements of a test are parts of its children. -/
theorem of_mem_testStatements (K : Assembly R) (hparts : ∀ c ∈ t.children, R c u) {s : Tree}
    (hmem : s ∈ t.testStatements) : R s u := by
  unfold Tree.testStatements at hmem
  split at hmem
  · simp at hmem
  · rename_i body hat
    have hpart := hparts body (List.mem_of_getElem? (Option.filter_eq_some_iff.mp hat).1)
    split at hmem
    · exact K.trans (K.of_mem_childNodes hmem) hpart
    · obtain rfl := List.mem_singleton.mp hmem
      exact hpart

/-- A parsed test is put together from the children of the test. -/
theorem of_testParse (K : Assembly R) {context : Context} {parsed : Tree}
    (hdone : TestMethod.parse context t = .ok parsed) (hparts : ∀ c ∈ t.children, R c u)
    (hplace : PlaceWithin R t.location u) : R parsed u := by
  unfold TestMethod.parse at hdone
  split at hdone
  · rename_i methodCall args hfirst hsecond
    have hcall := hparts methodCall (List.mem_of_getElem? (Option.filter_eq_some_iff.mp hfirst).1)
    have hargs := hparts args (List.mem_of_getElem? (Option.filter_eq_some_iff.mp hsecond).1)
    split at hdone
    · cases hdone
    · rename_i blocks hsplits
      cases hbuilt : TestMethod.parseBlocks context blocks with
      | error e => simp [hbuilt, bind, Except.bind] at hdone
      | ok pair =>
        obtain rfl : _ = parsed := by
          simpa [hbuilt, bind, Except.bind, pure, Except.pure] using hdone
        have hwithin := of_splitAfter hsplits (fun hstarted => absurd rfl hstarted)
          fun s hmem => K.of_mem_testStatements hparts hmem
        have hblocks := K.of_parseBlocks hbuilt hwithin
        refine K.moved (K.fresh (by decide) fun c hmem => ?_) hplace
        simp only [List.mem_cons] at hmem
        rcases hmem with rfl | rfl | hmem
        · exact K.fresh (by decide) (by simpa using ⟨hcall, hargs⟩)
        · exact K.fresh (by decide) hblocks.1
        · exact hblocks.2 c (by simpa using hmem)
  · cases hdone

end Assembly

end PhasedTests
