import PhasedTests.Proofs.Expansion.Finished

/-!
# What annotations shield

The expansion of annotations remembers its targets as finished, and the phase expansion that follows
passes over them. If every annotation names a transformation, then what is passed over was expanded
before, and no test of the file keeps its phases. A target whose annotation names none is finished
too, though nothing was done to it.
-/

namespace PhasedTests

/-- A tree that annotations can be expanded in: they stand where they may, and its tests are not
nested. -/
structure Tree.Prepared (t : Tree) : Prop where
  noted : t.WellNoted
  readable : t.Readable
  unnested : t.Unnested

/-- The children of a prepared node are prepared. -/
theorem Tree.Prepared.child {tag : String} {children : List Tree} {location : Option Span}
    (hprepared : (Tree.node tag children location).Prepared) : ∀ c ∈ children, c.Prepared :=
  fun c hc => ⟨(Tree.wellNoted_node.mp hprepared.noted).2 c hc,
    (Tree.readable_node.mp hprepared.readable).2 c hc,
    (Tree.unnested_node.mp hprepared.unnested).2 c hc⟩

namespace Annotations

variable {registry : Registry} {context final : Context}

/-! ## The transformations of a target -/

/-- An annotation that names a transformation runs one. -/
private theorem exists_cons_of_named {note : Tree} {modes : List Mode}
    (hnames : note.namesTransformation = true) (hdone : named registry note = .ok modes) :
    ∃ mode rest, modes = mode :: rest := by
  unfold Tree.namesTransformation at hnames
  unfold named at hdone
  split at hnames
  · rename_i call hcall
    rw [hcall] at hdone
    obtain ⟨arg, harg, hsome⟩ := List.any_eq_true.mp hnames
    obtain ⟨name, hname⟩ := Option.isSome_iff_exists.mp hsome
    have hmem : name ∈ call.argNodes.filterMap transformationName? :=
      List.mem_filterMap.mpr ⟨arg, harg, hname⟩
    cases hlist : call.argNodes.filterMap transformationName? with
    | nil =>
      rw [hlist] at hmem
      cases hmem
    | cons first others =>
      simp only [hlist] at hdone
      obtain ⟨mode, rest, -, -, rfl⟩ := ok_of_mapM_cons hdone
      exact ⟨mode, rest, rfl⟩
  · cases hnames

/-- The target of such an annotation stays a target and loses its phases. -/
private theorem settled_of_apply {note current : Tree} {tag : String} {children : List Tree}
    {location : Option Span} (htruthful : context.Truthful)
    (htarget : targetTags.contains tag = true) (hnames : note.namesTransformation = true)
    (hprepared : (Tree.node tag children location).Prepared)
    (hdone : apply registry context note (.node tag children location) = .ok current) :
    (∃ others, current = .node tag others location) ∧ current.Prepared ∧ current.Phaseless := by
  have hstep : ∀ mode before after, (∃ others, before = Tree.node tag others location) ∧
      before.Prepared → Phases.expand mode context before = .ok after →
      (∃ others, after = Tree.node tag others location) ∧ after.Prepared ∧ after.Phaseless := by
    rintro mode before after ⟨⟨others, rfl⟩, hbefore⟩ hexpand
    obtain ⟨others', hafter, -⟩ := Phases.expand_target htarget hexpand
    obtain ⟨hphaseless, hunnested⟩ := Tree.settled_iff.mp
      (Phases.settled_of_expand (htruthful.trusts hbefore.readable) hbefore.unnested hexpand)
    exact ⟨⟨others', hafter⟩, ⟨Phases.wellNoted_of_expand hbefore.noted hexpand,
      Phases.expand_within containment_readable hexpand hbefore.readable, hunnested⟩, hphaseless⟩
  obtain ⟨modes, hmodes, hfold⟩ := ok_of_bind hdone
  obtain ⟨mode, rest, rfl⟩ := exists_cons_of_named hnames hmodes
  rw [List.foldlM_cons] at hfold
  obtain ⟨first, hfirst, hrest⟩ := ok_of_bind hfold
  refine foldlM_ok (fun t => (∃ others, t = Tree.node tag others location) ∧ t.Prepared ∧
    t.Phaseless) hrest (hstep mode _ first ⟨⟨children, rfl⟩, hprepared⟩ hfirst) ?_
  exact fun mode _ before after ⟨hnode, hbefore, _⟩ hexpand =>
    hstep mode before after ⟨hnode, hbefore⟩ hexpand

/-! ## Nodes that are no targets -/

private theorem map_scalar?_of_expandAll {trees expanded : List Tree}
    (hplain : ∀ t ∈ trees, t.annotates = false)
    (hdone : expandAll registry context none trees = .ok (expanded, final)) :
    expanded.map Tree.scalar? = trees.map Tree.scalar? := by
  induction trees generalizing context expanded with
  | nil =>
    rw [expandAll] at hdone
    obtain ⟨rfl, -⟩ := Prod.mk.inj (Except.ok.inj hdone)
    rfl
  | cons t rest ih =>
    obtain ⟨first, after, later, hfirst, hlater, rfl⟩ :=
      ok_of_expandAll_plain (hplain t List.mem_cons_self) (noteFor_none t.tag) hdone
    have hscalar : first.scalar? = t.scalar? := by
      cases t with
      | leaf value =>
        rw [expand_leaf] at hfirst
        rw [(Prod.mk.inj (Except.ok.inj hfirst)).1]
      | node tag children location =>
        obtain ⟨inner, -, rfl⟩ := ok_of_expand_node hfirst
        rfl
    rw [List.map_cons, List.map_cons, hscalar,
      ih (fun c hc => hplain c (List.mem_cons_of_mem _ hc)) hlater]

private theorem sameHead_of_expand {t first : Tree} (hnoted : t.WellNoted)
    (hdone : expand registry context t = .ok (first, final)) : t.SameHead first := by
  cases t with
  | leaf value =>
    rw [expand_leaf] at hdone
    rw [← (Prod.mk.inj (Except.ok.inj hdone)).1]
    exact .refl _
  | node tag children location =>
    obtain ⟨inner, hinner, rfl⟩ := ok_of_expand_node hdone
    refine ⟨rfl, rfl, ?_⟩
    by_cases hcall : tag ∈ ["send", "csend"]
    · have htag : (Tree.node tag children location).tagIn ["block", "send", "csend"] = true := by
        unfold Tree.tagIn
        rw [Tree.isNode, Bool.true_and, List.contains_iff_mem]
        exact List.mem_cons_of_mem _ hcall
      have hplain := (Tree.wellNoted_node.mp hnoted).1.2.2 htag
      exact Tree.callShape?_congr (map_scalar?_of_expandAll hplain hinner)
    · have hnone (trees : List Tree) : (Tree.node tag trees location).callShape? = none :=
        Tree.callShape?_eq_none hcall
      rw [hnone, hnone]

private theorem sameHead_of_expandAll {trees expanded : List Tree}
    (hnoted : ∀ t ∈ trees, t.WellNoted) (hplain : ∀ t ∈ trees, t.annotates = false)
    (hdone : expandAll registry context none trees = .ok (expanded, final)) :
    List.Forall₂ Tree.SameHead trees expanded := by
  induction trees generalizing context expanded with
  | nil =>
    rw [expandAll] at hdone
    obtain ⟨rfl, -⟩ := Prod.mk.inj (Except.ok.inj hdone)
    exact .nil
  | cons t rest ih =>
    obtain ⟨first, after, later, hfirst, hlater, rfl⟩ :=
      ok_of_expandAll_plain (hplain t List.mem_cons_self) (noteFor_none t.tag) hdone
    exact .cons (sameHead_of_expand (hnoted t List.mem_cons_self) hfirst)
      (ih (fun c hc => hnoted c (List.mem_cons_of_mem _ hc))
        (fun c hc => hplain c (List.mem_cons_of_mem _ hc)) hlater)

/-- A node that is a test block with its annotations expanded was one before, and had none. -/
private theorem eq_of_isTestBlock {tag : String} {children inner : List Tree}
    {location : Option Span} (hnoted : (Tree.node tag children location).WellNoted)
    (hdone : expandAll registry context none children = .ok (inner, final))
    (htest : (Tree.node tag inner location).isTestBlock = true) : inner = children := by
  obtain ⟨⟨-, htests, hparts⟩, hchildren⟩ := Tree.wellNoted_node.mp hnoted
  obtain ⟨_, _, _, _, _, hblock, -, -⟩ := Tree.isTestBlock_iff.mp htest
  obtain ⟨rfl, -, -⟩ := Tree.node.inj hblock
  have hsame := sameHead_of_expandAll hchildren (hparts rfl) hdone
  have hplain := htests (Tree.isTestBlock_of_sameHead hsame htest)
  have hkept := expandAll_of_unannotated registry context children hplain
  exact (Prod.mk.inj (Except.ok.inj (hdone.symm.trans hkept))).1

/-! ## The whole expansion -/

/-- What the expansion of annotations makes of siblings: it nests no tests and brings no phases
back, and all that it finishes is without phases. -/
structure Sound (trees expanded : List Tree) (final : Context) : Prop where
  truthful : final.Truthful
  unnested : ∀ c ∈ expanded, c.Unnested
  phaseless : (∀ t ∈ trees, t.Phaseless) → ∀ c ∈ expanded, c.Phaseless

namespace Sound

variable {t first : Tree} {trees expanded : List Tree}

/-- An expansion of no trees is sound. -/
theorem nil (htruthful : final.Truthful) : Sound [] [] final :=
  ⟨htruthful, List.forall_mem_nil _, fun _ => List.forall_mem_nil _⟩

/-- A sibling of which nothing is left. -/
theorem dropped (hrest : Sound trees expanded final) : Sound (t :: trees) expanded final :=
  ⟨hrest.truthful, hrest.unnested, fun hall => hrest.phaseless (List.forall_mem_cons.mp hall).2⟩

/-- A sound expansion is continued by a tree without nested tests that got no new phases. -/
theorem cons (hunnested : first.Unnested) (hphaseless : t.Phaseless → first.Phaseless)
    (hrest : Sound trees expanded final) : Sound (t :: trees) (first :: expanded) final := by
  refine ⟨hrest.truthful, List.forall_mem_cons.mpr ⟨hunnested, hrest.unnested⟩, fun hall => ?_⟩
  obtain ⟨hfirst, hothers⟩ := List.forall_mem_cons.mp hall
  exact List.forall_mem_cons.mpr ⟨hphaseless hfirst, hrest.phaseless hothers⟩

/-- The node above such siblings. -/
theorem node {tag : String} {location : Option Span} (hsound : Sound trees expanded final)
    (hprepared : (Tree.node tag trees location).Prepared)
    (hdone : expandAll registry context none trees = .ok (expanded, final)) :
    (Tree.node tag expanded location).Unnested ∧
      ((Tree.node tag trees location).Phaseless → (Tree.node tag expanded location).Phaseless) := by
  have hsame := @eq_of_isTestBlock registry context final tag trees expanded location
    hprepared.noted hdone
  refine ⟨Tree.unnested_node.mpr ⟨fun htest => ?_, hsound.unnested⟩, fun hwhole => ?_⟩
  · obtain rfl := hsame htest
    exact (Tree.unnested_node.mp hprepared.unnested).1 htest
  · obtain ⟨hnode, hchildren⟩ := Tree.phaseless_node.mp hwhole
    refine Tree.phaseless_node.mpr ⟨fun htest => ?_, hsound.phaseless hchildren⟩
    obtain rfl := hsame htest
    exact hnode htest

end Sound

private theorem sound_of_expandAll {pending : Option Tree} {trees expanded : List Tree}
    (hdone : expandAll registry context pending trees = .ok (expanded, final))
    (htruthful : context.Truthful)
    (hpending : ∀ note ∈ pending, note.namesTransformation = true)
    (hprepared : ∀ t ∈ trees, t.Prepared) : Sound trees expanded final := by
  have hnone : ∀ note ∈ (none : Option Tree), note.namesTransformation = true := by simp
  fun_induction expandAll registry context pending trees generalizing expanded final with
  | case1 =>
    obtain ⟨rfl, rfl⟩ := Prod.mk.inj (Except.ok.inj hdone)
    exact .nil htruthful
  | case2 context pending value rest ih =>
    obtain ⟨⟨others, after⟩, hothers, hdone⟩ := ok_of_bind hdone
    obtain ⟨rfl, rfl⟩ := Prod.mk.inj (Except.ok.inj hdone)
    obtain ⟨hfirst, hrest⟩ := List.forall_mem_cons.mp hprepared
    exact .cons hfirst.unnested id (ih hothers htruthful hnone hrest)
  | case3 =>
    rename_i hannotates ih
    obtain ⟨hfirst, hrest⟩ := List.forall_mem_cons.mp hprepared
    have hnames := (hfirst.noted _ (.self _)).1 hannotates
    exact .dropped (ih hdone htruthful (fun note hnote => Option.some.inj hnote ▸ hnames.1) hrest)
  | case4 =>
    rename_i ihinner ihothers
    obtain ⟨⟨inner, after⟩, hinner, hdone⟩ := ok_of_bind hdone
    obtain ⟨⟨others, last⟩, hothers, hdone⟩ := ok_of_bind hdone
    obtain ⟨rfl, rfl⟩ := Prod.mk.inj (Except.ok.inj hdone)
    obtain ⟨hfirst, hrest⟩ := List.forall_mem_cons.mp hprepared
    have hsound := ihinner hinner htruthful hnone hfirst.child
    obtain ⟨hunnested, hphaseless⟩ := hsound.node hfirst hinner
    exact .cons hunnested hphaseless (ihothers after hothers hsound.truthful hnone hrest)
  | case5 => cases hdone
  | case6 =>
    rename_i tag children location rest _ _ note hnote current happlied ihinner ihothers
    obtain ⟨⟨inner, after⟩, hinner, hdone⟩ := ok_of_bind hdone
    obtain ⟨⟨others, last⟩, hothers, hdone⟩ := ok_of_bind hdone
    obtain ⟨rfl, rfl⟩ := Prod.mk.inj (Except.ok.inj hdone)
    obtain ⟨hfirst, hrest⟩ := List.forall_mem_cons.mp hprepared
    have htarget := isTarget_of_noteFor hnote
    have hnames : note.namesTransformation = true := by
      unfold noteFor at hnote
      rw [if_pos htarget] at hnote
      exact hpending note hnote
    obtain ⟨⟨children', rfl⟩, hcurrent, hsettled⟩ :=
      settled_of_apply htruthful htarget hnames hfirst happlied
    have hsound := ihinner hinner htruthful hnone hcurrent.child
    obtain ⟨hunnested, hphaseless⟩ := hsound.node hcurrent hinner
    have hreadable : (Tree.node tag inner location).Readable :=
      containment_readable.exchanged (expandAll_within containment_readable hinner)
        hcurrent.readable
    -- The transformations were run before the descent, so what is finished has lost its phases.
    have hlater := hsound.truthful.finish hreadable (hphaseless hsettled)
    exact .cons hunnested (fun _ => hphaseless hsettled)
      (ihothers inner after hothers hlater hnone hrest)

private theorem truthful_of_expand {t expanded : Tree} (htruthful : context.Truthful)
    (hprepared : t.Prepared) (hdone : expand registry context t = .ok (expanded, final)) :
    final.Truthful ∧ expanded.Unnested := by
  cases t with
  | leaf value =>
    rw [expand_leaf] at hdone
    obtain ⟨rfl, rfl⟩ := Prod.mk.inj (Except.ok.inj hdone)
    exact ⟨htruthful, hprepared.unnested⟩
  | node tag children location =>
    obtain ⟨inner, hinner, rfl⟩ := ok_of_expand_node hdone
    have hsound := sound_of_expandAll hinner htruthful (by simp) hprepared.child
    exact ⟨hsound.truthful, (hsound.node hprepared hinner).1⟩

/-! ## A single target -/

/-- An annotation that names no transformation does nothing to its target. -/
theorem apply_nameless {note : Tree} (hnameless : note.namesTransformation = false)
    (target : Tree) : apply registry context note target = .ok target := by
  have hnamed : named registry note = .ok [] := by
    unfold Tree.namesTransformation at hnameless
    unfold named
    cases hcall : note.call? with
    | none => rfl
    | some call =>
      rw [hcall] at hnameless
      have hnames : call.argNodes.filterMap transformationName? = [] := by
        rw [List.filterMap_eq_nil_iff]
        intro arg harg
        exact Option.not_isSome_iff_eq_none.mp (List.any_eq_false.mp hnameless arg harg)
      simp only [hnames]
      rfl
  unfold apply
  rw [hnamed]
  rfl

variable {note : Tree} {tag : String} {children others : List Tree} {location place : Option Span}

/-- A target is replaced by what its annotation makes of it, and this is finished. -/
theorem expandAll_target {rest : List Tree} (hnote : note.annotates = true)
    (htarget : targetTags.contains tag = true)
    (happlied : apply registry context note (.node tag children location) =
      .ok (.node tag others location)) (hplain : ∀ c ∈ others, c.Unannotated)
    (hrest : ∀ c ∈ rest, c.Unannotated) :
    expandAll registry context none (note :: .node tag children location :: rest) =
      .ok (.node tag others location :: rest, context.finish (.node tag others location)) := by
  have hother : (Tree.node tag children location).annotates = false := by
    refine Tree.annotates_eq_false fun hmem => ?_
    have hcalls : ∀ tag ∈ ["send", "csend"], targetTags.contains tag = false := by decide
    rw [hcalls tag hmem] at htarget
    cases htarget
  have hfound : noteFor (some note) (Tree.node tag children location).tag = some note :=
    if_pos htarget
  have hexpand : expand registry context (.node tag others location) =
      .ok (.node tag others location, context) :=
    expand_node (expandAll_of_unannotated registry context others hplain)
  rw [expandAll_note hnote]
  exact expandAll_targeted_ok hother hfound happlied hexpand
    (expandAll_of_unannotated registry _ rest hrest)

/-- The standard chain passes over what the annotation of a target has made of it. Only the siblings
behind it are left to the phase expansion. -/
theorem runAll_target_cons {mode : Mode} {indent : Nat} {rest built : List Tree}
    (hnote : note.annotates = true) (htarget : targetTags.contains tag = true)
    (happlied : apply standard context note (.node tag children location) =
      .ok (.node tag others location)) (hplain : ∀ c ∈ others, c.Unannotated)
    (hrest : ∀ c ∈ rest, c.Unannotated)
    (hbuilt : Phases.expandAll mode (context.finish (.node tag others location)) rest =
      .ok built) :
    Pass.runAll context (.node "begin" (note :: .node tag children location :: rest) place)
        (Pipeline.standard mode indent).chain =
      .ok (.node "begin" (.node tag others location :: built) place) := by
  have hexpand : expand standard context
      (.node "begin" (note :: .node tag children location :: rest) place) =
      .ok (.node "begin" (.node tag others location :: rest) place,
        context.finish (.node tag others location)) :=
    expand_node (expandAll_target hnote htarget happlied hplain hrest)
  have hfinished : (context.finish (.node tag others location)).isFinished
      (.node tag others location) = true :=
    context.isFinished_finish rfl
  have hphases : Phases.expand mode (context.finish (.node tag others location))
      (.node "begin" (.node tag others location :: rest) place) =
      .ok (.node "begin" (.node tag others location :: built) place) := by
    have hbegin : (Tree.node "begin" (.node tag others location :: rest) place).isTestBlock =
        false :=
      Tree.isTestBlock_eq_false (by decide : "begin" ≠ "block")
    have hcontains : targetTags.contains "begin" = false := by decide
    rw [Phases.expand, hcontains, Bool.false_and, if_neg (by decide), hbegin, if_neg (by decide),
      Phases.expandAll, Phases.expand, if_pos (by rw [htarget, hfinished]; rfl), hbuilt]
    rfl
  change (expand _ _ _ >>= _) = _
  rw [hexpand]
  change ((Phases.expand _ _ _).map _ >>= _) = _
  rw [hphases]
  rfl

private theorem runAll_target {mode : Mode} {indent : Nat} (hnote : note.annotates = true)
    (htarget : targetTags.contains tag = true)
    (happlied : apply standard context note (.node tag children location) =
      .ok (.node tag others location)) (hplain : ∀ c ∈ others, c.Unannotated) :
    Pass.runAll context (.node "begin" [note, .node tag children location] place)
        (Pipeline.standard mode indent).chain =
      .ok (.node "begin" [.node tag others location] place) :=
  runAll_target_cons hnote htarget happlied hplain (List.forall_mem_nil _)
    (by rw [Phases.expandAll])

end Annotations

namespace Pipeline

/-- If all annotations of a text name transformations and stand where statements do, and if its
tests are not nested, then no test of the expanded file has a phase. -/
theorem phaseless_of_expandText {mode : Mode} {indent : Nat} {path text : String}
    {t expanded : Tree} (hread : readText path text = .ok t) (hunnested : t.Unnested)
    (hnoted : t.WellNoted)
    (hdone : (standard mode indent).expandText path text = .ok expanded) :
    expanded.Phaseless := by
  obtain ⟨other, hother, hrun⟩ := ok_of_bind hdone
  obtain rfl := Except.ok.inj (hread.symm.trans (ok_of_mapError hother))
  obtain ⟨⟨noted, after⟩, hannotations, hrest⟩ := ok_of_bind hrun
  have hreadable := readable_of_readText hread
  obtain ⟨htruthful, hnotedUnnested⟩ := Annotations.truthful_of_expand (.of_fresh rfl)
    ⟨hnoted, hreadable, hunnested⟩ hannotations
  have hnotedReadable := Annotations.expand_within containment_readable hannotations hreadable
  obtain ⟨⟨last, _⟩, hphases, hlast⟩ := ok_of_bind hrest
  obtain ⟨built, hbuilt, hpair⟩ := ok_of_map hphases
  obtain rfl := Except.ok.inj hlast
  obtain ⟨rfl, -⟩ := Prod.mk.inj hpair
  exact (Tree.settled_iff.mp (Phases.settled_of_expand (htruthful.trusts hnotedReadable)
    hnotedUnnested hbuilt)).1

/-- A class with a test in phases, behind an annotation with this argument. -/
def annotatedTests (argument : Tree) : Tree :=
  .node "begin"
    [Tree.Build.call none "transform!" [argument],
     .node "class"
      [Tree.Build.constant none "T", .nil,
       .node "block"
        [Tree.Build.call none "test" [Tree.Build.str "x"], .node "args" [] none,
         Tree.Build.begin
          [Tree.Build.call none "Expect" [],
           Tree.Build.call (some (Tree.Build.lvar "a")) "==" [Tree.Build.int 1]]] none] none] none

/-- The annotation of a class that names the phase expansion. -/
theorem phaseless_of_expandText_annotatedTests :
    let text := (annotatedTests (Tree.Build.constant none "PhaseSpec")).layout 2
    ∃ t expanded, readText "a.sexp" text = .ok t ∧ t.Unnested ∧ t.WellNoted ∧
      (standard .lenient 2).expandText "a.sexp" text = .ok expanded ∧ expanded.Phaseless := by
  let sample := annotatedTests (Tree.Build.constant none "PhaseSpec")
  let placed := Tree.placed (.ofChars (sample.layout 2).toList) 2 0 0 sample
  have hreadable : sample.Readable := by
    unfold Tree.Readable
    decide
  have hread : readText "a.sexp" (sample.layout 2) = .ok placed :=
    Tree.readText_layout rfl hreadable "a.sexp"
  have hunnested : placed.Unnested := by
    decide
  have hnoted : placed.WellNoted := by
    decide
  have hparts : ∃ note children others location place,
      placed = .node "begin" [note, .node "class" children location] place ∧
      note.annotates = true ∧
      Annotations.apply Annotations.standard (.ofText (sample.layout 2)) note
        (.node "class" children location) = .ok (.node "class" others location) ∧
      ∀ c ∈ others, c.Unannotated :=
    ⟨_, _, _, _, _, rfl, rfl, rfl, by decide⟩
  obtain ⟨note, children, others, location, place, hplaced, hnote, happlied, hplain⟩ := hparts
  have hrun := @Annotations.runAll_target (.ofText (sample.layout 2)) note "class" children others
    location place .lenient 2 hnote (by decide) happlied hplain
  rw [← hplaced] at hrun
  have hdone : (standard .lenient 2).expandText "a.sexp" (sample.layout 2) =
      .ok (.node "begin" [.node "class" others location] place) := by
    rw [expandText_layout _ _ rfl hreadable]
    exact hrun
  exact ⟨placed, _, hread, hunnested, hnoted, hdone,
    phaseless_of_expandText hread hunnested hnoted hdone⟩

/-- Behind an annotation that names no transformation the test keeps its phases. -/
theorem phases_of_expandText_nameless :
    ∃ text t expanded, readText "tmp" text = .ok t ∧ t.Unnested ∧
      (standard .lenient 2).expandText "tmp" text = .ok expanded ∧ ¬ expanded.Phaseless := by
  let sample := annotatedTests (Tree.Build.str "x")
  let placed := Tree.placed (.ofChars (sample.layout 2).toList) 2 0 0 sample
  have hreadable : sample.Readable := by
    unfold Tree.Readable
    decide
  have hread : readText "tmp" (sample.layout 2) = .ok placed :=
    Tree.readText_layout rfl hreadable "tmp"
  have hunnested : placed.Unnested := by
    decide
  have hparts : ∃ note children location place,
      placed = .node "begin" [note, .node "class" children location] place ∧
      note.annotates = true ∧ note.namesTransformation = false ∧
      (∀ c ∈ children, c.Unannotated) ∧
      ¬ (Tree.node "begin" [.node "class" children location] place).Phaseless :=
    ⟨_, _, _, _, rfl, rfl, rfl, by decide, by decide⟩
  obtain ⟨note, children, location, place, hplaced, hnote, hnameless, hplain, hphases⟩ := hparts
  have hrun := @Annotations.runAll_target (.ofText (sample.layout 2)) note "class" children
    children location place .lenient 2 hnote (by decide) (Annotations.apply_nameless hnameless _)
    hplain
  rw [← hplaced] at hrun
  refine ⟨_, placed, _, hread, hunnested, ?_, hphases⟩
  rw [expandText_layout _ _ rfl hreadable]
  exact hrun

end Pipeline

end PhasedTests
