import PhasedTests.Proofs.Expansion.Unannotated
import PhasedTests.Proofs.Sexp.Inline
import PhasedTests.Proofs.Test.Source

/-!
# Targets that are passed over

The phase expansion passes over every target that has the written form of a finished one. A written
form tells a tree up to its spans, so nothing is lost as long as each finished target is without
phases. Such contexts are kept by the expansion of annotations, provided that every annotation names
a transformation and that annotations stand where statements do.
-/

namespace PhasedTests

/-- What is written like a finished target is finished. -/
theorem Context.isFinished_finish (context : Context) {t u : Tree} (hform : u.inline = t.inline) :
    (context.finish t).isFinished u = true := by
  unfold isFinished finish
  rw [hform]
  simp

/-- Every finished target of the context is without phases. -/
def Context.Truthful (context : Context) : Prop :=
  ∀ form ∈ context.finished, ∃ t : Tree, t.Readable ∧ t.Phaseless ∧ form = t.inline

namespace Context.Truthful

variable {context : Context}

/-- A context in which nothing is finished is truthful. -/
theorem of_fresh (hfresh : context.finished = []) : context.Truthful := by
  intro form hform
  rw [hfresh] at hform
  cases hform

/-- A context stays truthful when a target without phases is finished. -/
theorem finish (htruthful : context.Truthful) {t : Tree} (hreadable : t.Readable)
    (hphaseless : t.Phaseless) : (context.finish t).Truthful := by
  intro form hform
  rcases List.mem_cons.mp hform with rfl | hform
  · exact ⟨t, hreadable, hphaseless, rfl⟩
  · exact htruthful form hform

/-- So whatever it takes for finished has no phases. -/
theorem trusts (htruthful : context.Truthful) {t : Tree} (hreadable : t.Readable) :
    Phases.Trusts context t := by
  intro u hinside hfinished
  obtain ⟨-, hform⟩ := Bool.and_eq_true_iff.mp hfinished
  obtain ⟨v, hv, hphaseless, hsame⟩ := htruthful u.inline (List.contains_iff_mem.mp hform)
  exact hphaseless.of_bare (Tree.bare_of_inline hv (hreadable.of_inside hinside) hsame.symm)

end Context.Truthful

/-- A later context of an expansion: it has finished more targets, and all of them truthfully. -/
structure Context.Grown (context later : Context) : Prop where
  source : later.source = context.source
  finished : ∀ form ∈ context.finished, form ∈ later.finished
  truthful : later.Truthful

namespace Context.Grown

variable {context later last : Context}

/-- A context has grown from itself. -/
theorem refl (htruthful : context.Truthful) : context.Grown context :=
  ⟨rfl, fun _ hform => hform, htruthful⟩

/-- Growth adds up. -/
theorem trans (hfirst : context.Grown later) (hsecond : later.Grown last) : context.Grown last :=
  ⟨hsecond.source.trans hfirst.source,
    fun form hform => hsecond.finished form (hfirst.finished form hform), hsecond.truthful⟩

/-- A context grows when a target without phases is finished. -/
theorem finish (hgrown : context.Grown later) {t : Tree} (hreadable : t.Readable)
    (hphaseless : t.Phaseless) : context.Grown (later.finish t) :=
  ⟨hgrown.source, fun form hform => List.mem_cons_of_mem _ (hgrown.finished form hform),
    hgrown.truthful.finish hreadable hphaseless⟩

/-- What is finished stays finished. -/
theorem isFinished {t : Tree} (hgrown : (context.finish t).Grown later) :
    later.isFinished t = true := by
  have hform : t.inline ∈ later.finished := hgrown.finished _ List.mem_cons_self
  unfold Context.isFinished
  rw [List.contains_iff_mem.mpr hform, Bool.and_true, Bool.not_eq_true']
  cases hlater : later.finished with
  | nil =>
    rw [hlater] at hform
    cases hform
  | cons => rfl

end Context.Grown

namespace Phases

variable {context fresh : Context}

private theorem expandTest_congr (mode : Mode) (hsource : context.source = fresh.source)
    (t : Tree) :
    expandTest mode context t = expandTest mode fresh t := by
  unfold expandTest
  rw [TestMethod.parse_congr hsource]

mutual

/-- It makes no difference to a lenient expansion which targets are finished, as long as none of
them has a phase. -/
theorem expand_of_truthful (hfresh : fresh.finished = []) (hsource : context.source = fresh.source)
    (htruthful : context.Truthful) : (t : Tree) → t.Readable →
      expand .lenient context t = expand .lenient fresh t
  | .leaf value, _ => by rw [expand, expand]
  | .node tag children location, hreadable => by
    cases hfinished :
      targetTags.contains tag && context.isFinished (.node tag children location) with
    | true =>
      have hphaseless :=
        htruthful.trusts hreadable _ (.self _) (Bool.and_eq_true_iff.mp hfinished).2
      rw [expand_of_phaseless hfresh hphaseless, expand, if_pos hfinished]
    | false =>
      rw [expand, expand, hfinished, isFinished_eq_false hfresh, Bool.and_false,
        expandTest_congr .lenient hsource,
        expandAll_of_truthful hfresh hsource htruthful children (Tree.readable_node.mp hreadable).2]

private theorem expandAll_of_truthful (hfresh : fresh.finished = [])
    (hsource : context.source = fresh.source) (htruthful : context.Truthful) :
    (trees : List Tree) → (∀ t ∈ trees, t.Readable) →
      expandAll .lenient context trees = expandAll .lenient fresh trees
  | [], _ => by rw [expandAll, expandAll]
  | t :: rest, hreadable => by
    rw [expandAll, expandAll,
      expand_of_truthful hfresh hsource htruthful t (hreadable t List.mem_cons_self),
      expandAll_of_truthful hfresh hsource htruthful rest fun c hc =>
        hreadable c (List.mem_cons_of_mem t hc)]

end

end Phases

/-! ## Where annotations stand -/

namespace Tree

/-- Whether an annotation names a transformation. -/
def namesTransformation (t : Tree) : Bool :=
  match t.call? with
  | some call => call.argNodes.any fun arg => (Annotations.transformationName? arg).isSome
  | none => false

/-- Every annotation of the tree names a transformation and holds no test. None lies in a test, and
none is a part of a block or of a call. -/
def WellNoted (t : Tree) : Prop :=
  ∀ u, Inside u t →
    (u.annotates = true → u.namesTransformation = true ∧ u.TestFree) ∧
      (u.isTestBlock = true → ∀ c ∈ u.children, c.Unannotated) ∧
      (u.tagIn ["block", "send", "csend"] = true → ∀ c ∈ u.children, c.annotates = false)

instance : DecidablePred WellNoted :=
  decideInside fun u =>
    (u.annotates = true → u.namesTransformation = true ∧ u.TestFree) ∧
      (u.isTestBlock = true → ∀ c ∈ u.children, c.Unannotated) ∧
      (u.tagIn ["block", "send", "csend"] = true → ∀ c ∈ u.children, c.annotates = false)

/-- A node is well noted if its own annotations are and its children are well noted. -/
theorem wellNoted_node {tag : String} {children : List Tree} {location : Option Span} :
    (node tag children location).WellNoted ↔
      (((node tag children location).annotates = true →
          (node tag children location).namesTransformation = true ∧
            (node tag children location).TestFree) ∧
        ((node tag children location).isTestBlock = true → ∀ c ∈ children, c.Unannotated) ∧
        ((node tag children location).tagIn ["block", "send", "csend"] = true →
          ∀ c ∈ children, c.annotates = false)) ∧
      ∀ c ∈ children, c.WellNoted :=
  forall_inside_node

/-- Without annotations there is nothing to ask of them. -/
theorem Unannotated.wellNoted {t : Tree} (hplain : t.Unannotated) : t.WellNoted := by
  intro u hinside
  have hchildren : ∀ c ∈ u.children, c.Unannotated :=
    fun c hc v hv => hplain v ((hv.of_child hc).trans hinside)
  refine ⟨fun hannotates => ?_, fun _ => hchildren, fun _ c hc => hchildren c hc c (.self c)⟩
  rw [hplain u hinside] at hannotates
  cases hannotates

end Tree

namespace Phases

variable {mode : Mode} {context : Context}

mutual

/-- A tree without tests is not changed. -/
theorem expand_of_testFree : (t : Tree) → t.TestFree → expand mode context t = .ok t
  | .leaf value, _ => by rw [expand]
  | .node tag children location, hfree => by
    obtain ⟨hother, hchildren⟩ := Tree.testFree_node.mp hfree
    rw [expand]
    split
    · rfl
    · rw [if_neg (by rw [hother]; decide), expandAll_of_testFree children hchildren]
      rfl

private theorem expandAll_of_testFree : (trees : List Tree) → (∀ t ∈ trees, t.TestFree) →
    expandAll mode context trees = .ok trees
  | [], _ => by rw [expandAll]
  | t :: rest, hfree => by
    rw [expandAll, expand_of_testFree t (hfree t List.mem_cons_self),
      expandAll_of_testFree rest fun c hc => hfree c (List.mem_cons_of_mem _ hc)]
    rfl

end

/-- Every expanded sibling comes from one of the siblings. -/
theorem exists_of_mem_expandAll {trees others : List Tree}
    (hdone : expandAll mode context trees = .ok others) :
    ∀ c ∈ others, ∃ t ∈ trees, expand mode context t = .ok c := by
  have hpairs := forall₂_of_expandAll hdone
  clear hdone
  induction hpairs with
  | nil => exact fun c hc => nomatch hc
  | cons hfirst _ ih =>
    intro c hc
    rcases List.mem_cons.mp hc with rfl | hc
    · exact ⟨_, List.mem_cons_self, hfirst⟩
    · obtain ⟨d, hd, hexpand⟩ := ih c hc
      exact ⟨d, List.mem_cons_of_mem _ hd, hexpand⟩

/-- Annotations stay annotations, and no others come into being. -/
theorem annotates_of_expand {t t' : Tree} (hdone : expand mode context t = .ok t') :
    t'.annotates = t.annotates := by
  cases t with
  | leaf value => rw [ok_of_expand_leaf hdone]
  | node tag children location =>
    rcases expand_cases hdone with rfl | ⟨rfl, others, rfl⟩ | ⟨others, hothers, rfl⟩
    · rfl
    · rw [Tree.annotates_eq_false (by decide : "block" ∉ _),
        Tree.annotates_eq_false (by decide : "block" ∉ _)]
    · exact Tree.annotates_congr (Tree.callShape?_congr (map_scalar?_of_expandAll hothers))
        (forall₂_of_expandAll hothers).length_eq.symm

/-- The method of a test without annotations has none. -/
theorem unannotated_of_expandTest {t t' : Tree} (hplain : t.Unannotated)
    (hdone : expandTest mode context t = .ok t') : t'.Unannotated := by
  unfold expandTest at hdone
  split at hdone
  · rw [← Except.ok.inj hdone]
    exact hplain
  · obtain ⟨test, hparse, hmethod⟩ := ok_of_bind hdone
    exact Generate.unannotated_method (fun c hc u hinside => hplain u (hinside.of_child hc))
      hparse hmethod

/-- What an expansion keeps of every node that is no test, and what trees without annotations obey,
it keeps throughout a tree whose tests hold no annotation. -/
theorem forall_inside_of_expand {Q : Tree → Prop} (hunannotated : ∀ u, u.Unannotated → Q u)
    (hnode : ∀ {tag children others location}, Q (.node tag children location) →
      (Tree.node tag children location).isTestBlock = false →
      expandAll mode context children = .ok others → Q (.node tag others location)) :
    (t : Tree) → ∀ {t' : Tree}, (∀ u, Tree.Inside u t → u.isTestBlock = true → u.Unannotated) →
      (∀ u, Tree.Inside u t → Q u) → expand mode context t = .ok t' → ∀ u, Tree.Inside u t' → Q u
  | .leaf value, t', _, hall, hdone => by
    rw [ok_of_expand_leaf hdone]
    exact hall
  | .node tag children location, t', htests, hall, hdone => by
    rcases ok_of_expand_node hdone with
      ⟨-, rfl⟩ | ⟨htest, hdone⟩ | ⟨hother, others, hothers, rfl⟩
    · exact hall
    · have hplain := unannotated_of_expandTest (htests _ (.self _) htest) hdone
      exact fun u hinside => hunannotated u fun v hv => hplain v (hv.trans hinside)
    · obtain ⟨hwhole, hchildren⟩ := Tree.forall_inside_node.mp hall
      refine Tree.forall_inside_node.mpr ⟨hnode hwhole hother hothers, fun c' hc' => ?_⟩
      obtain ⟨c, hc, hexpand⟩ := exists_of_mem_expandAll hothers c' hc'
      exact forall_inside_of_expand hunannotated hnode c
        (fun u hinside => htests u (.child hc hinside)) (hchildren c hc) hexpand

/-- The expansion leaves annotations where they may stand. -/
theorem wellNoted_of_expand {t t' : Tree} (hnoted : t.WellNoted)
    (hdone : expand mode context t = .ok t') : t'.WellNoted := by
  have htests : ∀ u, Tree.Inside u t → u.isTestBlock = true → u.Unannotated := by
    intro u hinside htest
    have hchildren := (hnoted u hinside).2.1 htest
    obtain ⟨_, _, _, _, _, rfl, -⟩ := Tree.isTestBlock_iff.mp htest
    exact Tree.unannotated_node.mpr
      ⟨Tree.annotates_eq_false (by decide : "block" ∉ _), hchildren⟩
  refine forall_inside_of_expand (fun u hplain => hplain.wellNoted u (.self u)) ?_ t htests hnoted
    hdone
  intro tag children others location ⟨hnames, _, hparts⟩ hother hothers
  refine ⟨fun hannotates => ?_, fun htest => ?_, fun htag c hc => ?_⟩
  · have hsame : (Tree.node tag others location).annotates =
        (Tree.node tag children location).annotates :=
      Tree.annotates_congr (Tree.callShape?_congr (map_scalar?_of_expandAll hothers))
        (forall₂_of_expandAll hothers).length_eq.symm
    rw [hsame] at hannotates
    obtain ⟨hnamed, hfree⟩ := hnames hannotates
    rw [expandAll_of_testFree children (Tree.testFree_node.mp hfree).2] at hothers
    rw [← Except.ok.inj hothers]
    exact ⟨hnamed, hfree⟩
  · rw [isTestBlock_of_expandAll hothers htest] at hother
    cases hother
  · obtain ⟨d, hd, hexpand⟩ := exists_of_mem_expandAll hothers c hc
    rw [annotates_of_expand hexpand]
    exact hparts htag d hd

end Phases

end PhasedTests
