import PhasedTests.Proofs.Expansion.Noted
import PhasedTests.Proofs.Expansion.Strictness

/-!
# What annotations change

Annotations make an expansion strict inside their targets and nothing else, provided that a target
inside another target holds no test. So where a strict expansion accepts every test, the standard
chain gives the tree that a strict expansion gives without annotations. A test in a target inside
another one is expanded on behalf of the outer annotation, and then rejected on behalf of the inner
one, as it has no phase anymore.
-/

namespace PhasedTests

namespace Annotations

/-! ## One transformation -/

/-- Whether an annotation names exactly one transformation, and one that the registry knows. -/
def namesOne (registry : Registry) (note : Tree) : Bool :=
  match named registry note with
  | .ok [_] => true
  | _ => false

/-- The only transformation of the standard registry is the strict phase expansion. -/
theorem lookup_standard {name : String} {mode : Mode} (hfound : standard.lookup name = some mode) :
    mode = .strict := by
  unfold standard at hfound
  rw [List.lookup_cons, List.lookup_cons, List.lookup_nil] at hfound
  split at hfound
  · exact (Option.some.inj hfound).symm
  · split at hfound
    · exact (Option.some.inj hfound).symm
    · cases hfound

private theorem named_of_namesOne {note : Tree} (hone : namesOne standard note = true) :
    named standard note = .ok [.strict] := by
  unfold namesOne at hone
  split at hone
  · rename_i mode hnamed
    obtain ⟨name, -, hstep⟩ := exists_of_mem_mapM hnamed List.mem_cons_self
    have hmode : mode = .strict := by
      split at hstep
      · rename_i found hlookup
        rw [← Except.ok.inj hstep]
        exact lookup_standard hlookup
      · cases hstep
    rw [hnamed, hmode]
  · cases hone

private theorem apply_of_namesOne {note : Tree} (hone : namesOne standard note = true)
    (context : Context)
    (target : Tree) :
    apply standard context note target = Phases.expand .strict context target := by
  unfold apply
  rw [named_of_namesOne hone]
  change (Phases.expand .strict context target >>= fun t => .ok t) = _
  cases Phases.expand .strict context target <;> rfl

/-- Nothing is to be done to the targets of annotations, as they hold no tests. -/
def Idle (note target : Tree) : Prop :=
  namesOne standard note = true ∧ target.TestFree

/-- Inside the targets of annotations nothing is to be done to further ones. -/
def Shallow (note target : Tree) : Prop :=
  namesOne standard note = true ∧ target.Noted Idle

/-- A tree in which annotations have their targets and are statements of no test. -/
structure Ready (Fits : Tree → Tree → Prop) (t : Tree) : Prop where
  noted : t.Noted Fits
  tidy : t.Tidy
  readable : t.Readable

/-- The annotations among the children of a ready node fit their targets, and the children are
ready. -/
theorem Ready.children {Fits : Tree → Tree → Prop} {tag : String} {children : List Tree}
    {location : Option Span} (hready : Ready Fits (.node tag children location)) :
    Tree.Notes Fits children ∧ ∀ c ∈ children, Ready Fits c :=
  ⟨(Tree.noted_node.mp hready.noted).1, fun c hc =>
    ⟨(Tree.noted_node.mp hready.noted).2 c hc, (Tree.tidy_node.mp hready.tidy).2 c hc,
      (Tree.readable_node.mp hready.readable).2 c hc⟩⟩

/-! ## Targets without tests -/

variable {context : Context}

mutual

/-- Where targets hold no tests, the expansion of annotations just deletes them. -/
theorem expand_of_idle : (t : Tree) → ∀ {context : Context}, Ready Idle t → context.Truthful →
    ∃ final, expand standard context t = .ok (t.withoutAnnotations, final) ∧ context.Grown final
  | .leaf value, context, _, htruthful => ⟨context, expand_leaf value, .refl htruthful⟩
  | .node tag children location, context, hready, htruthful => by
    obtain ⟨hnotes, hchildren⟩ := hready.children
    obtain ⟨final, hinner, hgrown⟩ := expandAll_of_idle children none trivial hnotes hchildren
      htruthful
    exact ⟨final, expand_node hinner, hgrown⟩

private theorem expandAll_of_idle : (trees : List Tree) → (pending : Option Tree) →
    ∀ {context : Context}, Tree.Due Idle pending trees → Tree.Notes Idle trees →
      (∀ t ∈ trees, Ready Idle t) → context.Truthful →
      ∃ final, expandAll standard context pending trees =
        .ok (Tree.withoutAnnotationsAll trees, final) ∧ context.Grown final
  | [], pending, context, _, _, _, htruthful => by
    rw [expandAll, Tree.withoutAnnotationsAll]
    exact ⟨context, rfl, .refl htruthful⟩
  | t :: rest, pending, context, hdue, ⟨hnote, hnotes⟩, hready, htruthful => by
    obtain ⟨hfirst, hrest⟩ := List.forall_mem_cons.mp hready
    cases hannotates : t.annotates with
    | true =>
      rw [expandAll_note hannotates, Tree.withoutAnnotationsAll_note hannotates]
      exact expandAll_of_idle rest (some t) (hnote hannotates) hnotes hrest htruthful
    | false =>
      obtain ⟨after, hexpand, hgrown⟩ := expand_of_idle t hfirst htruthful
      rw [Tree.withoutAnnotationsAll_plain hannotates]
      rcases hdue.noteFor_cases with hfree | ⟨note, hfound, -, hone, hfree⟩
      · obtain ⟨final, hothers, hmore⟩ :=
          expandAll_of_idle rest none trivial hnotes hrest hgrown.truthful
        exact ⟨final, expandAll_plain_ok hannotates hfree hexpand hothers, hgrown.trans hmore⟩
      · have hreadable := expand_within containment_readable hexpand hfirst.readable
        have hphaseless :=
          (Tree.settled_iff.mp (hfree.withoutAnnotations hfirst.noted hfirst.tidy).settled).1
        have hfinished := hgrown.finish hreadable hphaseless
        obtain ⟨final, hothers, hmore⟩ :=
          expandAll_of_idle rest none trivial hnotes hrest hfinished.truthful
        have happlied : apply standard context note t = .ok t := by
          rw [apply_of_namesOne hone]
          exact Phases.expand_of_testFree t hfree
        exact ⟨final, expandAll_targeted_ok hannotates hfound happlied hexpand hothers,
          hfinished.trans hmore⟩

end

/-! ## Targets with tests -/

/-- A tree without nested tests, in which every test has a phase. -/
structure Phased (t : Tree) : Prop where
  unnested : t.Unnested
  phases : ∀ u, Tree.Inside u t → u.isTestBlock = true → hasPhases u.testStatements = true

/-- The children of a phased node are phased. -/
theorem Phased.children {tag : String} {children : List Tree} {location : Option Span}
    (hphased : Phased (.node tag children location)) : ∀ c ∈ children, Phased c :=
  fun c hc => ⟨(Tree.unnested_node.mp hphased.unnested).2 c hc,
    fun u hinside => hphased.phases u (.child hc hinside)⟩

/-- What the phase expansion does to a tree that annotations have been expanded in: a lenient one
gives `result`, and all tests that it will meet have phases. -/
structure Left (fresh final : Context) (t result : Tree) : Prop where
  lenient : Phases.expand .lenient fresh t = .ok result
  meets : ∀ later, final.Grown later → Phases.MeetsPhases later t

/-- The same of the trees of a list. -/
structure LeftAll (fresh final : Context) (trees results : List Tree) : Prop where
  lenient : Phases.expandAll .lenient fresh trees = .ok results
  meets : ∀ t ∈ trees, ∀ later, final.Grown later → Phases.MeetsPhases later t

/-- Of no trees nothing is left. -/
theorem LeftAll.nil {fresh final : Context} : LeftAll fresh final [] [] :=
  ⟨by rw [Phases.expandAll], List.forall_mem_nil _⟩

/-- What is left of a list is what is left of its first tree and of the others, as long as the
context grows. -/
theorem Left.cons {fresh after final : Context} {t result : Tree} {trees results : List Tree}
    (hfirst : Left fresh after t result) (hgrown : after.Grown final)
    (hrest : LeftAll fresh final trees results) :
    LeftAll fresh final (t :: trees) (result :: results) := by
  refine ⟨?_, List.forall_mem_cons.mpr ⟨fun later hlater => ?_, hrest.meets⟩⟩
  · rw [Phases.expandAll, hfirst.lenient, hrest.lenient]
    rfl
  · exact hfirst.meets later (hgrown.trans hlater)

variable {fresh : Context}

/-- The target of an annotation: all is done when it is finished. -/
private theorem exists_target (hfresh : fresh.finished = []) {note t t' : Tree}
    {context : Context} (hgrown : fresh.Grown context) (hready : Ready Shallow t)
    (hphased : Phased t) (htarget : t.tagIn targetTags = true) (hfits : Shallow note t)
    (hstrict : Phases.expand .strict fresh t = .ok t') :
    ∃ after, apply standard context note t = .ok t' ∧
      expand standard context t' = .ok (t'.withoutAnnotations, after) ∧
      context.Grown (after.finish t'.withoutAnnotations) ∧
      Left fresh (after.finish t'.withoutAnnotations) t'.withoutAnnotations
        t'.withoutAnnotations := by
  obtain ⟨hlenient, -⟩ := (Phases.expand_strict_iff t).mp hstrict
  have happlied : Phases.expand .strict context t = .ok t' := by
    refine (Phases.expand_strict_iff t).mpr ⟨?_, fun u hmeets => hphased.phases u hmeets.inside⟩
    rw [Phases.expand_of_truthful hfresh hgrown.source hgrown.truthful t hready.readable]
    exact hlenient
  have hready' : Ready Idle t' := by
    refine ⟨Phases.noted_of_expand ?_ hfits.2 hready.tidy hstrict,
      Phases.tidy_of_expand hready.tidy hstrict,
      Phases.expand_within containment_readable hstrict hready.readable⟩
    intro note target note' target' hannotates ⟨hone, hfree⟩ hnote htarget
    rw [Phases.expand_of_testFree target hfree] at htarget
    rw [← Except.ok.inj htarget]
    refine ⟨?_, hfree⟩
    unfold namesOne
    rw [Phases.named_of_expand hannotates hnote]
    exact hone
  obtain ⟨after, hexpand, hmore⟩ := expand_of_idle t' hready' hgrown.truthful
  have hsettled :=
    Phases.settled_of_expand (Phases.trusts_of_fresh hfresh t) hphased.unnested hstrict
  have hphaseless :=
    (Tree.settled_iff.mp hsettled).1.withoutAnnotations hready'.noted hready'.tidy
  have hfinish :=
    hmore.finish (expand_within containment_readable hexpand hready'.readable) hphaseless
  refine ⟨after, (apply_of_namesOne hfits.1 context t).trans happlied, hexpand, hfinish,
    Phases.expand_of_phaseless hfresh hphaseless, fun later hlater => ?_⟩
  cases t with
  | leaf value => cases htarget
  | node tag children location =>
    have hcontains : targetTags.contains tag = true := htarget
    obtain ⟨children', rfl, -⟩ := Phases.expand_target hcontains hstrict
    have hfinished := hlater.isFinished
    rw [Tree.withoutAnnotations] at hfinished ⊢
    exact Phases.meetsPhases_of_finished (by rw [hcontains, hfinished]; rfl)

/-- A node is left as its children are. -/
private theorem LeftAll.node {final : Context} {tag : String} {children inner others : List Tree}
    {location : Option Span} (hfresh : fresh.finished = [])
    (hready : Ready Shallow (.node tag children location))
    (hother : (Tree.node tag children location).isTestBlock = false)
    (hstrict : Phases.expandAll .strict fresh children = .ok others)
    (hleft : LeftAll fresh final inner (Tree.withoutAnnotationsAll others)) :
    Left fresh final (.node tag inner location)
      (Tree.node tag others location).withoutAnnotations := by
  -- What is left and what deletion leaves are expanded to the same, so they have the same heads.
  have hinner : (Tree.node tag inner location).isTestBlock = false := by
    obtain ⟨-, hchildren⟩ := hready.children
    have hkept := Phases.expandAll_withoutAnnotations hfresh children
      (fun c hc => (hchildren c hc).noted) (fun c hc => (hchildren c hc).tidy) hstrict
    rw [Bool.eq_false_iff]
    intro htest
    have hleft : (Tree.node tag (Tree.withoutAnnotationsAll others) location).isTestBlock = true :=
      Tree.isTestBlock_of_sameHead ((Phases.forall₂_of_expandAll hleft.lenient).flip.imp
        fun _ _ hexpand => (Phases.sameHead_of_expand hexpand).symm) htest
    have hdeleted : (Tree.node tag children location).withoutAnnotations.isTestBlock = true :=
      Phases.isTestBlock_of_expandAll hkept hleft
    rw [Tree.isTestBlock_of_withoutAnnotations hready.noted hready.tidy hdeleted] at hother
    cases hother
  refine ⟨?_, fun later hlater => ?_⟩
  · rw [Tree.withoutAnnotations]
    exact Phases.expand_other (Phases.open_of_fresh hfresh) hinner hleft.lenient
  · cases hfinished : targetTags.contains tag && later.isFinished (.node tag inner location) with
    | true => exact Phases.meetsPhases_of_finished hfinished
    | false =>
      exact (Phases.meetsPhases_node hfinished hinner).mpr fun c hc => hleft.meets c hc later hlater

mutual

/-- The expansion of annotations leaves to the phase expansion what a strict expansion of the whole
tree would do without them. -/
theorem exists_left (hfresh : fresh.finished = []) : (t : Tree) → ∀ {t' : Tree} {context : Context},
    fresh.Grown context → Ready Shallow t → Phased t → Phases.expand .strict fresh t = .ok t' →
      ∃ w final, expand standard context t = .ok (w, final) ∧ context.Grown final ∧
        Left fresh final w t'.withoutAnnotations
  | .leaf value, t', context, hgrown, _, _, hstrict => by
    rw [Phases.ok_of_expand_leaf hstrict]
    refine ⟨_, context, expand_leaf value, .refl hgrown.truthful, ?_, fun later _ => ?_⟩
    · rw [Phases.expand, Tree.withoutAnnotations]
    · exact Phases.meetsPhases_leaf value
  | .node tag children location, t', context, hgrown, hready, hphased, hstrict => by
    cases htest : (Tree.node tag children location).isTestBlock with
    | true =>
      have hplain := (Tree.tidy_node.mp hready.tidy).1.2 htest
      have hplain' := Phases.unannotated_of_expandTest hplain
        ((Phases.expand_test htest).symm.trans hstrict)
      refine ⟨_, context, expand_of_unannotated hplain, .refl hgrown.truthful, ?_,
        fun later _ => ?_⟩
      · rw [Tree.withoutAnnotations_of_unannotated _ hplain']
        exact ((Phases.expand_strict_iff _).mp hstrict).1
      · exact (Phases.meetsPhases_test htest).mpr (hphased.phases _ (.self _) htest)
    | false =>
      obtain ⟨others, hothers, rfl⟩ :=
        Phases.ok_of_expand_other (Phases.open_of_fresh hfresh) htest hstrict
      obtain ⟨hnotes, hchildren⟩ := hready.children
      obtain ⟨inner, final, hinner, hmore, hleft⟩ := exists_leftAll hfresh children none hgrown
        trivial hnotes hchildren hphased.children hothers
      exact ⟨_, final, expand_node hinner, hmore, hleft.node hfresh hready htest hothers⟩

private theorem exists_leftAll (hfresh : fresh.finished = []) : (trees : List Tree) →
    (pending : Option Tree) → ∀ {others : List Tree} {context : Context},
      fresh.Grown context → Tree.Due Shallow pending trees → Tree.Notes Shallow trees →
      (∀ t ∈ trees, Ready Shallow t) → (∀ t ∈ trees, Phased t) →
      Phases.expandAll .strict fresh trees = .ok others →
      ∃ expanded final, expandAll standard context pending trees = .ok (expanded, final) ∧
        context.Grown final ∧ LeftAll fresh final expanded (Tree.withoutAnnotationsAll others)
  | [], pending, others, context, hgrown, _, _, _, _, hstrict => by
    rw [Phases.expandAll] at hstrict
    rw [← Except.ok.inj hstrict, expandAll, Tree.withoutAnnotationsAll]
    exact ⟨[], context, rfl, .refl hgrown.truthful, .nil⟩
  | t :: rest, pending, others, context, hgrown, hdue, ⟨hnote, hnotes⟩, hready, hphased,
      hstrict => by
    obtain ⟨t', others, hfirst, hothers, rfl⟩ := Phases.expandAll_cons hstrict
    obtain ⟨hreadyFirst, hreadyRest⟩ := List.forall_mem_cons.mp hready
    obtain ⟨hphasedFirst, hphasedRest⟩ := List.forall_mem_cons.mp hphased
    have hsame := Phases.annotates_of_expand hfirst
    cases hannotates : t.annotates with
    | true =>
      rw [hannotates] at hsame
      rw [expandAll_note hannotates, Tree.withoutAnnotationsAll_note hsame]
      exact exists_leftAll hfresh rest (some t) hgrown (hnote hannotates) hnotes hreadyRest
        hphasedRest hothers
    | false =>
      rw [hannotates] at hsame
      rw [Tree.withoutAnnotationsAll_plain hsame]
      rcases hdue.noteFor_cases with hfree | ⟨note, hfound, htarget, hfits⟩
      · obtain ⟨w, after, hexpand, hmore, hleft⟩ :=
          exists_left hfresh t hgrown hreadyFirst hphasedFirst hfirst
        obtain ⟨expanded, final, hrest, hlast, hleftRest⟩ := exists_leftAll hfresh rest none
          (hgrown.trans hmore) trivial hnotes hreadyRest hphasedRest hothers
        exact ⟨_, final, expandAll_plain_ok hannotates hfree hexpand hrest, hmore.trans hlast,
          hleft.cons hlast hleftRest⟩
      · obtain ⟨after, happlied, hexpand, hmore, hleft⟩ :=
          exists_target hfresh hgrown hreadyFirst hphasedFirst htarget hfits hfirst
        obtain ⟨expanded, final, hrest, hlast, hleftRest⟩ := exists_leftAll hfresh rest none
          (hgrown.trans hmore) trivial hnotes hreadyRest hphasedRest hothers
        exact ⟨_, final, expandAll_targeted_ok hannotates hfound happlied hexpand hrest,
          hmore.trans hlast, hleft.cons hlast hleftRest⟩

end

end Annotations

/-! ## The standard chain -/

namespace Phases

variable {mode : Mode} {context : Context}

private theorem exists_expandAll {trees : List Tree}
    (hall : ∀ t ∈ trees, ∃ t', expand mode context t = .ok t') :
    ∃ others, expandAll mode context trees = .ok others := by
  induction trees with
  | nil => exact ⟨[], by rw [expandAll]⟩
  | cons t rest ih =>
    obtain ⟨⟨first, hfirst⟩, hrest⟩ := List.forall_mem_cons.mp hall
    obtain ⟨later, hlater⟩ := ih hrest
    rw [expandAll, hfirst, hlater]
    exact ⟨_, rfl⟩

/-- A strict expansion accepts every test inside the tree. -/
def Accepts (context : Context) (t : Tree) : Prop :=
  ∀ u, Tree.Inside u t → u.isTestBlock = true → ∃ built, expand .strict context u = .ok built

instance : DecidablePred (Accepts context) :=
  Tree.decideInside fun u => u.isTestBlock = true → ∃ built, expand .strict context u = .ok built

/-- If each of its tests is accepted, so is the tree. -/
theorem Accepts.exists_expand (hfresh : context.finished = []) : (t : Tree) → Accepts context t →
    ∃ t', expand .strict context t = .ok t'
  | .leaf value, _ => ⟨_, by rw [expand]⟩
  | .node tag children location, haccepts => by
    cases htest : (Tree.node tag children location).isTestBlock with
    | true => exact haccepts _ (.self _) htest
    | false =>
      obtain ⟨others, hothers⟩ := exists_expandAll fun c hc =>
        exists_expand hfresh c fun u hinside => haccepts u (.child hc hinside)
      exact ⟨_, expand_other (open_of_fresh hfresh) htest hothers⟩

/-- A test that is accepted has a phase. -/
theorem Accepts.hasPhases {t u : Tree} (haccepts : Accepts context t) (hinside : Tree.Inside u t)
    (htest : u.isTestBlock = true) : hasPhases u.testStatements = true := by
  obtain ⟨built, hbuilt⟩ := haccepts u hinside htest
  cases u with
  | leaf value => cases htest
  | node tag children location =>
    rw [expand_test htest] at hbuilt
    exact (expandTest_strict_iff.mp hbuilt).2

end Phases

open Annotations (namesOne standard)

namespace Pass

variable {mode : Mode} {indent : Nat} {context : Context} {t : Tree}

/-- If every annotation names one transformation of the registry and has its target right behind it,
outside calls and tests, and a strict expansion accepts every test, then the standard chain gives in
either mode what a strict expansion gives without annotations, provided that no target inside
another one holds a test. -/
theorem runAll_eq_expand_withoutAnnotations (hfresh : context.finished = [])
    (hreadable : t.Readable) (hunnested : t.Unnested) (htidy : t.Tidy)
    (hnoted : t.Noted fun note _ => namesOne standard note = true)
    (hinner : t.Noted fun _ target => target.Noted fun _ inner => inner.TestFree)
    (haccepts : Phases.Accepts context t) :
    ∃ expanded, Phases.expand .strict context t.withoutAnnotations = .ok expanded ∧
      runAll context t (Pipeline.standard mode indent).chain = .ok expanded := by
  obtain ⟨t', hstrict⟩ := haccepts.exists_expand hfresh t
  have hready : Annotations.Ready Annotations.Shallow t := by
    refine ⟨Tree.Noted.imp₂ (fun note target hinside hone hfree => ⟨hone, ?_⟩) hnoted hinner,
      htidy, hreadable⟩
    have hnotedTarget : target.Noted fun note _ => namesOne standard note = true :=
      fun u hu => hnoted u (hu.trans hinside)
    exact Tree.Noted.imp₂ (fun _ _ _ hone hfree => ⟨hone, hfree⟩) hnotedTarget hfree
  have hphased : Annotations.Phased t := ⟨hunnested, fun _ => haccepts.hasPhases⟩
  obtain ⟨w, final, hexpand, hgrown, hleft⟩ :=
    Annotations.exists_left hfresh t (.refl (.of_fresh hfresh)) hready hphased hstrict
  have hlenient : Phases.expand .lenient final w = .ok t'.withoutAnnotations := by
    rw [Phases.expand_of_truthful hfresh hgrown.source hgrown.truthful w
      (Annotations.expand_within containment_readable hexpand hreadable)]
    exact hleft.lenient
  refine ⟨t'.withoutAnnotations,
    Phases.expand_withoutAnnotations hfresh t hready.noted htidy hstrict,
    runAll_standard_iff.mpr ⟨w, final, hexpand, ?_⟩⟩
  cases mode with
  | lenient => exact hlenient
  | strict =>
    exact (Phases.expand_strict_iff w).mpr ⟨hlenient, hleft.meets final (.refl hgrown.truthful)⟩

/-- A test in phases. -/
def expectingTest : Tree :=
  .node "block"
    [Tree.Build.call none "test" [Tree.Build.str "x"], .node "args" [] none,
     Tree.Build.begin
      [Tree.Build.call none "Expect" [],
       Tree.Build.call (some (Tree.Build.lvar "a")) "==" [Tree.Build.int 1]]] none

/-- An annotated class with an annotated class in it, which has this body, and a test. -/
def nestedTargets (body : Tree) : Tree :=
  let note := Tree.Build.call none "transform!" [Tree.Build.constant none "PhaseSpec"]
  .node "begin"
    [note, .node "class"
      [Tree.Build.constant none "Outer", .nil,
       .node "begin"
        [note, .node "class" [Tree.Build.constant none "Inner", .nil, body] none,
         expectingTest] none] none] none

/-- A target with a test in phases, inside of which another target has no test, is expanded as it
would be without annotations. -/
theorem runAll_eq_expand_withoutAnnotations_nestedTargets :
    let t := nestedTargets .nil
    Context.detached.finished = [] ∧ t.Readable ∧ t.Unnested ∧ t.Tidy ∧
      (t.Noted fun note _ => namesOne standard note = true) ∧
      (t.Noted fun _ target => target.Noted fun _ inner => inner.TestFree) ∧
      Phases.Accepts .detached t ∧
      ∃ expanded, Phases.expand .strict .detached t.withoutAnnotations = .ok expanded ∧
        runAll .detached t (Pipeline.standard .lenient 2).chain = .ok expanded := by
  have hreadable : (nestedTargets .nil).Readable := by
    unfold Tree.Readable
    decide
  have hunnested : (nestedTargets .nil).Unnested := by decide
  have htidy : (nestedTargets .nil).Tidy := by decide
  have hnoted : (nestedTargets .nil).Noted fun note _ => namesOne standard note = true := by
    decide
  have hinner : (nestedTargets .nil).Noted fun _ target =>
      target.Noted fun _ inner => inner.TestFree := by
    decide
  have haccepts : Phases.Accepts .detached (nestedTargets .nil) := by decide
  exact ⟨rfl, hreadable, hunnested, htidy, hnoted, hinner, haccepts,
    runAll_eq_expand_withoutAnnotations rfl hreadable hunnested htidy hnoted hinner haccepts⟩

/-- With a test in the inner class the chain fails in either mode, though all that the annotations
name accepts the test, and the tree without annotations is expanded. -/
theorem runAll_nestedTargets_fails :
    let t := nestedTargets expectingTest
    t.Readable ∧ t.Unnested ∧ t.Tidy ∧ (t.Noted fun note _ => namesOne standard note = true) ∧
      Phases.Accepts .detached t ∧
      (∃ expanded, Phases.expand .strict .detached t.withoutAnnotations = .ok expanded) ∧
      ∀ mode indent expanded,
        runAll .detached t (Pipeline.standard mode indent).chain ≠ .ok expanded := by
  refine ⟨by unfold Tree.Readable; decide, by decide, by decide, by decide, by decide, ⟨_, rfl⟩, ?_⟩
  intro mode indent expanded hdone
  obtain ⟨noted, final, hnoted, -⟩ := runAll_standard_iff.mp hdone
  obtain ⟨others, hothers, -⟩ := Annotations.ok_of_expand_node hnoted
  rw [Annotations.expandAll_note rfl] at hothers
  obtain ⟨outer, _, _, _, houter, hexpand, -, -⟩ :=
    Annotations.ok_of_expandAll_targeted rfl rfl hothers
  have hparts : ∃ name note inner test e,
      outer = .node "class" [name, .nil, .node "begin" [note, inner, test] none] none ∧
      name.Unannotated ∧ note.annotates = true ∧ inner.annotates = false ∧
      Annotations.noteFor (some note) inner.tag = some note ∧
      Annotations.apply standard .detached note inner = .error e := by
    rw [← Except.ok.inj houter]
    exact ⟨_, _, _, _, _, rfl, by decide, rfl, rfl, rfl, rfl⟩
  obtain ⟨name, note, inner, test, e, rfl, hname, hnote, hplain, htarget, hfailed⟩ := hparts
  -- The outer class is expanded and then searched, up to the inner one.
  obtain ⟨_, hparts, -⟩ := Annotations.ok_of_expand_node hexpand
  obtain ⟨_, _, _, hfirst, hparts, -⟩ :=
    Annotations.ok_of_expandAll_plain (hname name (.self name)) (Annotations.noteFor_none _) hparts
  rw [Annotations.expand_of_unannotated hname] at hfirst
  obtain ⟨-, rfl⟩ := Prod.mk.inj (Except.ok.inj hfirst)
  obtain ⟨_, _, _, hsecond, hparts, -⟩ :=
    Annotations.ok_of_expandAll_plain rfl (Annotations.noteFor_none _) hparts
  rw [Annotations.expand_leaf] at hsecond
  obtain ⟨-, rfl⟩ := Prod.mk.inj (Except.ok.inj hsecond)
  obtain ⟨_, _, _, hbody, -⟩ := Annotations.ok_of_expandAll_plain
    (Tree.annotates_eq_false (by decide : "begin" ∉ _)) (Annotations.noteFor_none _) hparts
  obtain ⟨_, hstatements, -⟩ := Annotations.ok_of_expand_node hbody
  rw [Annotations.expandAll_note hnote] at hstatements
  obtain ⟨current, _, _, _, hcurrent, -⟩ :=
    Annotations.ok_of_expandAll_targeted hplain htarget hstatements
  rw [hfailed] at hcurrent
  cases hcurrent

end Pass

end PhasedTests
