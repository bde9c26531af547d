import PhasedTests.Generate.Method
import PhasedTests.Expansion.Containment.Parse

/-!
# What a generated method contains

A generated method is put together from the fields of a parsed test: it holds no more than the
parsed test does.
-/

namespace PhasedTests

open Generate

/-- The fields of a view are compared with `t`. -/
def Ir.View.Within (R : Tree → Tree → Prop) (t : Tree) : Ir.View → Prop
  | .test view =>
    R view.definition.methodCall t ∧ R view.definition.args t ∧
      (∀ phase ∈ view.body.phases, ∀ s ∈ phase.statements, R s t) ∧
        ∀ table ∈ view.table, ∀ row ∈ table.rows, R row t
  | .definition view => R view.methodCall t ∧ R view.args t
  | .body view => ∀ phase ∈ view.phases, ∀ s ∈ phase.statements, R s t
  | .phase view => ∀ s ∈ view.statements, R s t
  | .table view => ∀ row ∈ view.rows, R row t
  | .interaction view =>
    R view.cardinality t ∧ R view.receiver t ∧ (∀ a ∈ view.args, R a t) ∧
      (∀ o ∈ view.outcome, R o t) ∧ ∀ b ∈ view.blockPass, R b t
  | .binary view => R view.lhs t ∧ R view.rhs t
  | .statement view => R view.expression t
  | .raises view => R view.exception t
  | .returns value => R value t
  | .stubRaises args => ∀ a ∈ args, R a t

namespace Assembly

variable {R : Tree → Tree → Prop} {t u : Tree}

/-! ## Views -/

private theorem of_phaseView (K : Assembly R) {view : Ir.PhaseView}
    (hfound : Ir.PhaseView.of? t = some view) : ∀ s ∈ view.statements, R s t := by
  obtain ⟨phase, _, rfl⟩ := Option.map_eq_some_iff.mp hfound
  exact fun s hmem => K.of_mem_childNodes hmem

private theorem of_bodyView (K : Assembly R) {view : Ir.BodyView}
    (hfound : Ir.BodyView.of? t = some view) :
    ∀ phase ∈ view.phases, ∀ s ∈ phase.statements, R s t := by
  obtain ⟨_, rfl⟩ := by simpa [Ir.BodyView.of?] using hfound
  intro phase hmem s hstatement
  obtain ⟨node, hnode, view⟩ := List.mem_filterMap.mp hmem
  exact K.trans (K.of_phaseView view s hstatement) (K.of_mem_childNodes hnode)

private theorem of_definitionView (K : Assembly R) {view : Ir.DefView}
    (hfound : Ir.DefView.of? t = some view) : R view.methodCall t ∧ R view.args t := by
  obtain ⟨_, methodCall, hat0, args, hat1, rfl⟩ := by
    simpa [Ir.DefView.of?, Option.bind_eq_some_iff] using hfound
  exact ⟨K.of_nodeAt? hat0, K.of_nodeAt? hat1⟩

private theorem of_tableView (K : Assembly R) {view : Ir.TableView}
    (hfound : Ir.TableView.of? t = some view) : ∀ row ∈ view.rows, R row t := by
  unfold Ir.TableView.of? at hfound
  split at hfound
  · split at hfound
    · split at hfound
      · obtain rfl := Option.some.inj hfound
        exact fun row hmem => K.of_mem_childNodes (List.mem_of_mem_drop hmem)
      · cases hfound
    · cases hfound
  · cases hfound

/-- What a parsed test holds are parts of it. -/
theorem of_testView (K : Assembly R) {view : Ir.TestView}
    (hfound : Ir.TestView.of? t = some view) : (Ir.View.test view).Within R t := by
  obtain ⟨_, definition, ⟨first, hat0, hdefined⟩, body, ⟨second, hat1, hbodied⟩, table, hthird,
      rfl⟩ := by
    simpa [Ir.TestView.of?, Option.bind_eq_some_iff] using hfound
  have hdefinition := K.of_definitionView hdefined
  refine ⟨K.trans hdefinition.1 (K.of_nodeAt? hat0),
    K.trans hdefinition.2 (K.of_nodeAt? hat0),
    fun phase hmem s hstatement =>
      K.trans (K.of_bodyView hbodied phase hmem s hstatement) (K.of_nodeAt? hat1),
    fun given hmem row hrow => ?_⟩
  unfold Ir.TestView.table? at hthird
  split at hthird
  · rename_i node hat2
    obtain ⟨view, htabled, rfl⟩ := Option.map_eq_some_iff.mp hthird
    obtain rfl : view = given := by simpa using hmem
    exact K.trans (K.of_tableView htabled row hrow) (K.of_nodeAt? hat2)
  · obtain rfl := by simpa using hthird
    cases hmem

private theorem of_interactionView (K : Assembly R) {view : Ir.InteractionView}
    (hfound : Ir.InteractionView.of? t = some view) : (Ir.View.interaction view).Within R t := by
  obtain ⟨_, cardinality, hat0, receiver, hat1, message, _, rfl⟩ := by
    simpa [Ir.InteractionView.of?, Option.bind_eq_some_iff] using hfound
  exact ⟨K.of_nodeAt? hat0, K.of_nodeAt? hat1, fun _ hat3 => K.of_nodeAt? hat3,
    fun _ hat4 => K.of_nodeAt? hat4, fun _ hat5 => K.of_nodeAt? hat5⟩

private theorem of_binaryView (K : Assembly R) {view : Ir.BinaryView}
    (hfound : Ir.BinaryView.of? t = some view) : R view.lhs t ∧ R view.rhs t := by
  obtain ⟨_, lhs, hat0, operator, _, rhs, hat2, rfl⟩ := by
    simpa [Ir.BinaryView.of?, Option.bind_eq_some_iff] using hfound
  exact ⟨K.of_nodeAt? hat0, K.of_nodeAt? hat2⟩

private theorem of_statementView (K : Assembly R) {view : Ir.StatementView}
    (hfound : Ir.StatementView.of? t = some view) : R view.expression t := by
  unfold Ir.StatementView.of? at hfound
  split at hfound
  · split at hfound
    · rename_i hat0 _
      obtain rfl := Option.some.inj hfound
      exact K.of_nodeAt? hat0
    · cases hfound
  · cases hfound

private theorem of_raisesView (K : Assembly R) {view : Ir.RaisesView}
    (hfound : Ir.RaisesView.of? t = some view) : R view.exception t := by
  obtain ⟨_, exception, hat0, rfl⟩ := by simpa [Ir.RaisesView.of?] using hfound
  exact K.of_nodeAt? hat0

private theorem of_view (K : Assembly R) {view : Ir.View} (hfound : Ir.View.of? t = some view) :
    view.Within R t := by
  unfold Ir.View.of? at hfound
  split at hfound
  · obtain ⟨_, hholds, rfl⟩ := Option.map_eq_some_iff.mp hfound
    exact K.of_testView hholds
  · obtain ⟨_, hholds, rfl⟩ := Option.map_eq_some_iff.mp hfound
    exact K.of_definitionView hholds
  · obtain ⟨_, hholds, rfl⟩ := Option.map_eq_some_iff.mp hfound
    exact K.of_bodyView hholds
  · obtain ⟨_, hholds, rfl⟩ := Option.map_eq_some_iff.mp hfound
    exact K.of_tableView hholds
  · obtain ⟨_, hholds, rfl⟩ := Option.map_eq_some_iff.mp hfound
    exact K.of_interactionView hholds
  · obtain ⟨_, hholds, rfl⟩ := Option.map_eq_some_iff.mp hfound
    exact K.of_binaryView hholds
  · obtain ⟨_, hholds, rfl⟩ := Option.map_eq_some_iff.mp hfound
    exact K.of_statementView hholds
  · obtain ⟨_, hholds, rfl⟩ := Option.map_eq_some_iff.mp hfound
    exact K.of_raisesView hholds
  · obtain ⟨_, hholds, rfl⟩ := Option.map_eq_some_iff.mp hfound
    exact K.of_nodeAt? hholds
  · obtain rfl := Option.some.inj hfound
    exact fun a hmem => K.of_mem_children hmem
  · obtain ⟨_, hholds, rfl⟩ := Option.map_eq_some_iff.mp hfound
    exact K.of_phaseView hholds

/-! ## Assertions and mocks -/

/-- The assertion of a comparison is made of its operands. -/
theorem comparison (K : Assembly R) {view : Ir.BinaryView} (hlhs : R view.lhs t)
    (hrhs : R view.rhs t) : R (Generate.comparison view) t := by
  unfold Generate.comparison
  split
  · exact K.bareCall (by decide) (by simpa using ⟨hrhs, hlhs⟩)
  · exact K.bareCall (by decide) (by simpa using ⟨hrhs, hlhs⟩)
  · exact K.bareCall (by decide) (by simpa using ⟨hrhs, hlhs⟩)
  · exact K.bareCall (by decide) (by simpa using ⟨hrhs, hlhs⟩)
  · exact K.bareCall (by decide) (by simpa using ⟨hlhs, K.sym, hrhs⟩)

/-- The assertion of a condition is made of its expression. -/
theorem truth (K : Assembly R) {view : Ir.StatementView} (hexpression : R view.expression t) :
    R (Generate.truth view) t := by
  unfold Generate.truth
  dsimp only
  split
  · rename_i operand hfound
    have hpart : R operand view.expression := by
      unfold negated? at hfound
      split at hfound
      · rename_i hcall
        obtain rfl := by simpa using hfound
        exact K.of_receiver hcall rfl
      · cases hfound
    exact K.bareCall (by decide) (by
      simpa using ⟨K.fresh (by decide) (by simp), K.trans hpart hexpression, K.str⟩)
  · exact K.bareCall (by decide) (by
      simpa using ⟨K.fresh (by decide) (by simp), hexpression, K.str⟩)

/-- The assertion of a statement is made of parts of the statement. -/
theorem assertion (K : Assembly R) : R (Generate.assertion t) t := by
  unfold Generate.assertion
  split
  · rename_i view hfound
    have hparts := K.of_view hfound
    exact K.moved (K.comparison hparts.1 hparts.2) (placeWithin_location (K.refl t))
  · rename_i view hfound
    exact K.moved (K.truth (K.of_view hfound)) (placeWithin_location (K.refl t))
  · exact K.refl t

/-- A check for an exception is made of the exception and the action. -/
theorem assertRaises (K : Assembly R) {view : Ir.RaisesView} {action : List Tree}
    (hexception : R view.exception t) (hparts : ∀ s ∈ action, R s t) :
    R (Generate.assertRaises view action) t := by
  have hother (call : Call) (hfound : (Tree.Build.call none "assert_raises"
      [view.exception]).call? = some call) : call.method ≠ "test" := by
    obtain rfl := Option.some.inj hfound
    exact (by decide : "assert_raises" ≠ "test")
  have hblock : R (Tree.Build.fresh "block" [Tree.Build.call none "assert_raises" [view.exception],
      Tree.Build.fresh "args" [], Tree.Build.begin action]) t :=
    K.block hother (K.bareCall (by decide) (by simpa using hexception))
      (K.fresh (by decide) (by simp)) (K.begin hparts)
  unfold Generate.assertRaises
  dsimp only
  split
  · exact K.lvasgn hblock
  · exact hblock

/-- A longer chain is made of the chain and the argument. -/
theorem chained (K : Assembly R) {receiver argument : Tree} {method : String}
    (hother : method ≠ "transform!") (hreceives : R receiver t) (hpart : R argument t) :
    R (Generate.chained receiver method argument) t :=
  K.callOn hother hreceives (by simpa using hpart)

/-- A chain that requires a cardinality is made of the chain and the bounds. -/
theorem requireCount (K : Assembly R) {chain : Tree} {cardinality : Cardinality}
    (hpart : R chain t) (hwithin : cardinality.Within R t) :
    R (Generate.requireCount chain cardinality) t := by
  unfold Generate.requireCount
  split
  · exact K.chained (by decide) hpart K.int
  · exact K.chained (by decide) hpart hwithin
  · exact K.chained (by decide) hpart K.int
  · exact K.chained (by decide) hpart (hwithin.1 _ rfl)
  · exact K.chained (by decide) (K.chained (by decide) hpart K.int) (hwithin.2 _ rfl)
  · exact K.chained (by decide) (K.chained (by decide) hpart (hwithin.1 _ rfl)) (hwithin.2 _ rfl)

/-- A chain that answers is made of the chain and the outcome. -/
theorem answerWith (K : Assembly R) {chain : Tree} {outcome : Option Tree}
    (hpart : R chain t) (hanswer : ∀ o ∈ outcome, R o t) :
    R (Generate.answerWith chain outcome) t := by
  unfold Generate.answerWith
  split
  · rename_i value hfound
    obtain ⟨o, rfl, hfound⟩ := Option.bind_eq_some_iff.mp hfound
    exact K.callOn (by decide) hpart (by simpa using K.trans (K.of_view hfound) (hanswer o rfl))
  · rename_i args hfound
    obtain ⟨o, rfl, hfound⟩ := Option.bind_eq_some_iff.mp hfound
    exact K.callOn (by decide) hpart fun a hmem => K.trans (K.of_view hfound a hmem) (hanswer o rfl)
  · exact hpart

/-- A chain that expects a message is made of parts of the interaction. -/
theorem expectMessage (K : Assembly R) {view : Ir.InteractionView}
    (hwithin : (Ir.View.interaction view).Within R t) : R (Generate.expectMessage view) t := by
  obtain ⟨_, hreceiver, hargs, _, _⟩ := hwithin
  have hchain : R (Tree.Build.call (some view.receiver) "expects"
      [Tree.Build.sym view.message]) t :=
    K.callOn (by decide) hreceiver (by simpa using K.sym)
  unfold Generate.expectMessage
  dsimp only
  split
  · rename_i array hfound
    exact K.callOn (by decide) hchain fun a hmem =>
      K.trans (K.of_mem_children hmem) (hargs array hfound)
  · exact hchain

private theorem of_mock (K : Assembly R) {view : Ir.InteractionView} {place : Option Span}
    {ordinal : Nat} {mock : Mock} (hdone : Generate.mock view place ordinal = .ok mock)
    (hwithin : (Ir.View.interaction view).Within R t) (hat : PlaceWithin R place t) :
    (∀ s ∈ mock.setup, R s t) ∧ ∀ s ∈ mock.verification, R s t := by
  unfold Generate.mock at hdone
  cases hresolved : Cardinality.resolve view.cardinality with
  | error e => simp [hresolved, bind, Except.bind] at hdone
  | ok cardinality =>
    simp only [hresolved, bind, Except.bind, pure, Except.pure] at hdone
    have hchain := K.moved (K.answerWith (K.requireCount (K.expectMessage hwithin)
      (K.of_resolve hresolved hwithin.1)) hwithin.2.2.2.1) hat
    split at hdone
    · obtain rfl := Except.ok.inj hdone
      simpa using hchain
    · rename_i forwarded hfound
      obtain rfl := Except.ok.inj hdone
      obtain ⟨pass, hgiven, hfound⟩ := Option.bind_eq_some_iff.mp hfound
      have hpart : R forwarded t := K.trans (K.of_nodeAt? hfound) (hwithin.2.2.2.2 pass hgiven)
      have hcapture : R (captureBlock view ordinal forwarded).1 t := by
        refine K.lvasgn (K.callOn (by decide) ?_ (by simpa using ⟨hwithin.2.1, K.sym⟩))
        have houter : R (Tree.Build.constant none "PhaseSpec") t :=
          K.fresh (by decide) (by simpa using ⟨K.leaf _ _, K.leaf _ _⟩)
        exact K.fresh (by decide) (by simpa using ⟨houter, K.leaf _ _⟩)
      have hcheck : R (captureBlock view ordinal forwarded).2 t :=
        K.bareCall (by decide) (by simpa using ⟨hpart, K.callOn (by decide) K.lvar (by simp)⟩)
      exact ⟨by simpa using ⟨hchain, hcapture⟩, by simpa using hcheck⟩

/-! ## Names -/

private theorem of_mem_nameSuffix (K : Assembly R) {c : Tree} (hmem : c ∈ nameSuffix) : R c t := by
  simp only [nameSuffix, List.mem_cons, List.not_mem_nil, or_false] at hmem
  rcases hmem with rfl | rfl | rfl | rfl
  · exact K.str
  · exact K.begin (by simpa using K.lvar)
  · exact K.str
  · exact K.begin (by simpa using K.lvar)

/-- A name that shows the row is made of the name. -/
theorem of_indexedName? (K : Assembly R) {name : Tree} (hfound : indexedName? t = some name) :
    R name t := by
  unfold indexedName? at hfound
  split at hfound
  · obtain rfl := Option.some.inj hfound
    refine K.generated (by decide) (fun c hmem => ?_) K.placeWithin_node
    rcases List.mem_cons.mp hmem with rfl | hmem
    · exact K.refl _
    · exact K.of_mem_nameSuffix hmem
  · obtain rfl := Option.some.inj hfound
    refine K.generated (by decide) (fun c hmem => ?_) K.placeWithin_node
    rcases List.mem_append.mp hmem with hmem | hmem
    · exact K.child hmem
    · exact K.of_mem_nameSuffix hmem
  · cases hfound

/-! ## Bodies and rows -/

/-- The statements of all sections are compared with `t`. -/
structure SectionsWithin (R : Tree → Tree → Prop) (t : Tree) (sections : Sections) : Prop where
  given : ∀ s ∈ sections.given, R s t
  setup : ∀ s ∈ sections.setup, R s t
  action : ∀ s ∈ sections.action, R s t
  checks : ∀ s ∈ sections.checks, R s t
  expectations : ∀ s ∈ sections.expectations, R s t
  cleanup : ∀ s ∈ sections.cleanup, R s t
  raises : ∀ view ∈ sections.raises, R view.exception t

private theorem of_addThen (K : Assembly R) {sections added : Sections} {ordinal : Nat}
    {statements : List Tree} (hdone : sections.addThen ordinal statements = .ok added)
    (hwithin : SectionsWithin R t sections) (hparts : ∀ s ∈ statements, R s t) :
    SectionsWithin R t added := by
  induction statements generalizing sections ordinal with
  | nil =>
    obtain rfl := Except.ok.inj hdone
    exact hwithin
  | cons statement rest ih =>
    have hpart := hparts statement (by simp)
    have hothers : ∀ s ∈ rest, R s t := fun s hmem => hparts s (by simp [hmem])
    unfold Sections.addThen at hdone
    split at hdone
    · rename_i view hfound
      cases hmocked : Generate.mock view statement.location ordinal with
      | error e => simp [hmocked, bind, Except.bind] at hdone
      | ok mock =>
        simp only [hmocked, bind, Except.bind] at hdone
        have hstatements := K.of_mock hmocked (K.of_view hfound)
          (placeWithin_location (K.refl statement))
        refine ih hdone { hwithin with setup := ?_, checks := ?_ } hothers
        · intro s hmem
          rcases List.mem_append.mp hmem with hmem | hmem
          · exact hwithin.setup s hmem
          · exact K.trans (hstatements.1 s hmem) hpart
        · intro s hmem
          rcases List.mem_append.mp hmem with hmem | hmem
          · exact hwithin.checks s hmem
          · exact K.trans (hstatements.2 s hmem) hpart
    · rename_i view hfound
      split at hdone
      · cases hdone
      · refine ih hdone { hwithin with raises := fun view' hmem => ?_ } hothers
        obtain rfl : view = view' := by simpa using hmem
        exact K.trans (K.of_view hfound) hpart
    · refine ih hdone { hwithin with checks := fun s hmem => ?_ } hothers
      rcases List.mem_append.mp hmem with hmem | hmem
      · exact hwithin.checks s hmem
      · obtain rfl := List.mem_singleton.mp hmem
        exact K.trans K.assertion hpart

private theorem forall_append {P : Tree → Prop} {xs ys : List Tree} (hfirst : ∀ x ∈ xs, P x)
    (hsecond : ∀ y ∈ ys, P y) : ∀ z ∈ xs ++ ys, P z := fun z hmem =>
  (List.mem_append.mp hmem).elim (hfirst z) (hsecond z)

private theorem of_add (K : Assembly R) {sections added : Sections} {view : Ir.PhaseView}
    (hdone : sections.add view = .ok added) (hwithin : SectionsWithin R t sections)
    (hparts : ∀ s ∈ view.statements, R s t) : SectionsWithin R t added := by
  unfold Sections.add at hdone
  split at hdone
  · obtain rfl := Except.ok.inj hdone
    exact { hwithin with given := forall_append hwithin.given hparts }
  · obtain rfl := Except.ok.inj hdone
    exact { hwithin with action := forall_append hwithin.action hparts }
  · obtain rfl := Except.ok.inj hdone
    exact { hwithin with cleanup := forall_append hwithin.cleanup hparts }
  · obtain rfl := Except.ok.inj hdone
    refine { hwithin with expectations := forall_append hwithin.expectations fun s hmem => ?_ }
    obtain ⟨statement, hstatement, rfl⟩ := List.mem_map.mp hmem
    exact K.trans K.assertion (hparts statement hstatement)
  · exact K.of_addThen hdone hwithin hparts
  · obtain rfl := Except.ok.inj hdone
    exact hwithin
  · obtain rfl := Except.ok.inj hdone
    exact hwithin
  · obtain rfl := Except.ok.inj hdone
    exact hwithin

private theorem of_foldlM_add (K : Assembly R) {phases : List Ir.PhaseView}
    {sections added : Sections} (hdone : phases.foldlM Sections.add sections = .ok added)
    (hwithin : SectionsWithin R t sections)
    (hparts : ∀ phase ∈ phases, ∀ s ∈ phase.statements, R s t) : SectionsWithin R t added := by
  induction phases generalizing sections with
  | nil =>
    obtain rfl : sections = added := by simpa [pure, Except.pure] using hdone
    exact hwithin
  | cons phase rest ih =>
    rw [List.foldlM_cons] at hdone
    cases hnext : sections.add phase with
    | error e => simp [hnext, bind, Except.bind] at hdone
    | ok next =>
      simp only [hnext, bind, Except.bind] at hdone
      exact ih hdone (K.of_add hnext hwithin (hparts phase (by simp)))
        fun later hmem => hparts later (by simp [hmem])

private theorem sectionsBody (K : Assembly R) {sections : Sections}
    (hwithin : SectionsWithin R t sections) : R sections.body t := by
  have haction : ∀ s ∈ sections.checkedAction, R s t := by
    intro s hmem
    unfold Sections.checkedAction at hmem
    split at hmem
    · rename_i view hraises
      obtain rfl := List.mem_singleton.mp hmem
      exact K.assertRaises (hwithin.raises view hraises) hwithin.action
    · exact hwithin.action s hmem
  have hstatements : ∀ s ∈ sections.statements, R s t :=
    forall_append (forall_append (forall_append (forall_append hwithin.given hwithin.setup) haction)
      hwithin.checks) hwithin.expectations
  unfold Sections.body
  split
  · exact K.begin hstatements
  · have hensure : R (Tree.Build.fresh "ensure" [Tree.Build.begin sections.statements,
        Tree.Build.begin sections.cleanup]) t :=
      K.fresh (by decide) (by simpa using ⟨K.begin hstatements, K.begin hwithin.cleanup⟩)
    exact K.fresh (by decide) (by simpa using hensure)

/-- A generated body is made of the statements of its phases. -/
theorem of_methodBody (K : Assembly R) {view : Ir.BodyView} {body : Tree}
    (hdone : methodBody view = .ok body)
    (hparts : ∀ phase ∈ view.phases, ∀ s ∈ phase.statements, R s t) : R body t := by
  unfold methodBody at hdone
  cases hfound : Sections.ofPhases view.phases with
  | error e => simp [hfound, bind, Except.bind] at hdone
  | ok sections =>
    obtain rfl : _ = body := by
      simpa [hfound, bind, Except.bind, pure, Except.pure] using hdone
    have hstart : SectionsWithin R t .empty := by constructor <;> simp [Sections.empty]
    exact K.trans (K.locals _ _) (K.sectionsBody (K.of_foldlM_add hfound hstart hparts))

/-- The values of a row are its cells and a new literal. -/
theorem rowValues (K : Assembly R) : R (Generate.rowValues t) t := by
  refine K.fresh (by decide) (forall_append (fun c hmem => K.of_mem_children hmem) ?_)
  intro c hmem
  obtain rfl := List.mem_singleton.mp hmem
  split
  · exact K.int
  · exact K.fresh (by decide) (by simp)

/-- The rows that a loop iterates over. -/
theorem iteration (K : Assembly R) {rows : List Tree} (hparts : ∀ row ∈ rows, R row t) :
    R (Tree.Build.call (some (Tree.Build.call
      (some (Tree.Build.array (rows.map Generate.rowValues))) "each" [])) "with_index" []) t := by
  have hvalues : R (Tree.Build.array (rows.map Generate.rowValues)) t := K.array (by
    intro value hmem
    obtain ⟨row, hrow, rfl⟩ := List.mem_map.mp hmem
    exact K.trans K.rowValues (hparts row hrow))
  exact K.callOn (by decide) (K.callOn (by decide) hvalues (by simp)) (by simp)

/-- The parameters of a loop. -/
theorem loopParams (K : Assembly R) {header : List String} :
    R (Tree.Build.fresh "args" [Tree.Build.fresh "mlhs"
      (header.map Tree.Build.arg ++ [Tree.Build.arg lineNumber]), Tree.Build.arg testIndex]) t := by
  have hcolumns : R (Tree.Build.fresh "mlhs"
      (header.map Tree.Build.arg ++ [Tree.Build.arg lineNumber])) t :=
    K.fresh (by decide) (forall_append (fun c hmem => by
      obtain ⟨_, _, rfl⟩ := List.mem_map.mp hmem
      exact K.arg) (by simpa using K.arg))
  exact K.fresh (by decide) (by simpa using ⟨hcolumns, K.arg⟩)

end Assembly

namespace Containment

variable {R : Tree → Tree → Prop} {t : Tree}

/-! ## Methods and loops -/

/-- A test call that shows the row is made of the call. -/
theorem indexedTestName (K : Containment R) : R (Generate.indexedTestName t) t := by
  unfold Generate.indexedTestName
  split
  · rename_i name hfound
    obtain ⟨old, hat2, hnamed⟩ := Option.bind_eq_some_iff.mp hfound
    cases t with
    | leaf value => exact K.refl _
    | node tag children location =>
      refine K.exchanged fun c hmem => ?_
      rcases List.mem_or_eq_of_mem_set hmem with hmem | rfl
      · exact ⟨c, hmem, K.refl c⟩
      · exact ⟨old, List.mem_of_getElem? (Option.filter_eq_some_iff.mp hat2).1,
          K.assembly.of_indexedName? hnamed⟩
  · exact K.refl t

/-- A loop over rows is made of the definition, the body and the rows. -/
theorem loop (K : Containment R) {definition : Ir.DefView} {body : Tree} {table : Ir.TableView}
    (hcall : R definition.methodCall t) (hargs : R definition.args t) (hbody : R body t)
    (hrows : ∀ row ∈ table.rows, R row t) : R (Generate.loop definition body table) t := by
  have hmethod : R (Tree.Build.fresh "block"
      [Generate.indexedTestName definition.methodCall, definition.args, body]) t :=
    K.generated (by decide)
      (by simpa using ⟨K.trans K.indexedTestName hcall, hargs, hbody⟩) placeWithin_none
  exact K.generated (by decide) (by
    simpa using ⟨K.assembly.iteration hrows, K.assembly.loopParams,
      K.trans (K.callsToLocals _ _) hmethod⟩) placeWithin_none

/-- A generated method is made of parts of the parsed test. -/
theorem of_method (K : Containment R) {built : Tree} (hdone : Generate.method t = .ok built) :
    R built t := by
  unfold Generate.method at hdone
  split at hdone
  · cases hdone
  · rename_i view hfound
    obtain ⟨hcall, hargs, hphases, hrows⟩ := K.assembly.of_testView hfound
    cases hbodied : methodBody view.body with
    | error e => simp [hbodied, bind, Except.bind] at hdone
    | ok body =>
      have hpart := K.assembly.of_methodBody hbodied hphases
      simp only [hbodied, bind, Except.bind, pure, Except.pure] at hdone
      split at hdone
      · rename_i table hgiven
        obtain rfl := Except.ok.inj hdone
        exact K.loop hcall hargs hpart (hrows table hgiven)
      · obtain rfl := Except.ok.inj hdone
        exact K.generated (by decide) (by simpa using ⟨hcall, hargs, hpart⟩) placeWithin_none

end Containment

end PhasedTests
