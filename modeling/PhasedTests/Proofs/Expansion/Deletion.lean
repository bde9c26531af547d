import PhasedTests.Proofs.Expansion.Finished

/-!
# Deleted annotations

A tree from which all annotations are deleted. As long as annotations only stand before classes and
constant assignments and outside tests, this makes no tests, so the tests of the tree are expanded
with or without its annotations, to the same methods.
-/

namespace PhasedTests

namespace Tree

mutual

/-- The tree without its annotations. -/
def withoutAnnotations : Tree → Tree
  | leaf value => leaf value
  | node tag children location => node tag (withoutAnnotationsAll children) location

/-- The trees that are no annotations, without theirs. -/
def withoutAnnotationsAll : List Tree → List Tree
  | [] => []
  | t :: rest =>
    if t.annotates then withoutAnnotationsAll rest
    else withoutAnnotations t :: withoutAnnotationsAll rest

end

/-- Right behind a pending annotation stands a class or constant assignment, and one that the
annotation fits. -/
def Due (Fits : Tree → Tree → Prop) : Option Tree → List Tree → Prop
  | none, _ => True
  | some _, [] => False
  | some note, target :: _ => target.tagIn targetTags = true ∧ Fits note target

/-- Each of the siblings that is an annotation has its target right behind it. -/
def Notes (Fits : Tree → Tree → Prop) : List Tree → Prop
  | [] => True
  | t :: rest => (t.annotates = true → Due Fits (some t) rest) ∧ Notes Fits rest

/-- Each annotation inside the tree has its target right behind it. -/
def Noted (Fits : Tree → Tree → Prop) (t : Tree) : Prop :=
  ∀ u, Inside u t → Notes Fits u.children

/-- No call inside the tree is made on an annotation, and no test holds one. -/
def Tidy (t : Tree) : Prop :=
  ∀ u, Inside u t →
    (u.tagIn ["send", "csend"] = true → ∀ receiver ∈ u.children.head?,
      receiver.annotates = false) ∧
    (u.isTestBlock = true → u.Unannotated)

section

variable {Fits : Tree → Tree → Prop}

instance decideDue [∀ note target, Decidable (Fits note target)] :
    (pending : Option Tree) → (trees : List Tree) → Decidable (Due Fits pending trees)
  | none, _ => isTrue trivial
  | some _, [] => isFalse id
  | some note, target :: _ =>
    inferInstanceAs (Decidable (target.tagIn targetTags = true ∧ Fits note target))

instance decideNotes [∀ note target, Decidable (Fits note target)] :
    (trees : List Tree) → Decidable (Notes Fits trees)
  | [] => isTrue trivial
  | t :: rest =>
    letI : Decidable (Notes Fits rest) := decideNotes rest
    inferInstanceAs (Decidable ((t.annotates = true → Due Fits (some t) rest) ∧ Notes Fits rest))

instance [∀ note target, Decidable (Fits note target)] : DecidablePred (Noted Fits) :=
  decideInside fun u => Notes Fits u.children

instance : DecidablePred Tidy :=
  decideInside fun u =>
    (u.tagIn ["send", "csend"] = true → ∀ receiver ∈ u.children.head?,
      receiver.annotates = false) ∧
    (u.isTestBlock = true → u.Unannotated)

end

/-- Right behind a pending annotation there is a target. -/
theorem Due.exists_cons {Fits : Tree → Tree → Prop} {note : Tree} {trees : List Tree}
    (hdue : Due Fits (some note) trees) :
    ∃ target rest, trees = target :: rest ∧ target.tagIn targetTags = true ∧
      Fits note target := by
  cases trees with
  | nil => cases hdue
  | cons target rest => exact ⟨target, rest, rfl, hdue⟩

/-- So a tree behind a pending annotation is its target, and it fits. -/
theorem Due.noteFor_cases {Fits : Tree → Tree → Prop} {pending : Option Tree} {t : Tree}
    {rest : List Tree} (hdue : Due Fits pending (t :: rest)) :
    Annotations.noteFor pending t.tag = none ∨
      ∃ note, Annotations.noteFor pending t.tag = some note ∧ t.tagIn targetTags = true ∧
        Fits note t := by
  cases pending with
  | none => exact Or.inl (Annotations.noteFor_none t.tag)
  | some note =>
    obtain ⟨htarget, hfits⟩ := hdue
    exact Or.inr ⟨note, if_pos (Bool.and_eq_true_iff.mp htarget).2, htarget, hfits⟩

/-- Targets that fit in two ways. -/
theorem Notes.imp₂ {F G H : Tree → Tree → Prop} {trees : List Tree}
    (himp : ∀ note, ∀ target ∈ trees, F note target → G note target → H note target)
    (hfirst : Notes F trees) (hsecond : Notes G trees) : Notes H trees := by
  induction trees with
  | nil => trivial
  | cons t rest ih =>
    refine ⟨fun hannotates => ?_, ih (fun note target hmem =>
      himp note target (List.mem_cons_of_mem t hmem)) hfirst.2 hsecond.2⟩
    obtain ⟨target, later, rfl, htarget, hf⟩ := (hfirst.1 hannotates).exists_cons
    obtain ⟨-, hg⟩ := hsecond.1 hannotates
    exact ⟨htarget, himp t target (List.mem_cons_of_mem t List.mem_cons_self) hf hg⟩

/-- What two properties of annotations and their targets imply holds where both do. -/
theorem Noted.imp₂ {F G H : Tree → Tree → Prop} {t : Tree}
    (himp : ∀ note target, Inside target t → F note target → G note target → H note target)
    (hfirst : t.Noted F) (hsecond : t.Noted G) : t.Noted H :=
  fun u hinside => Notes.imp₂ (fun note target hmem =>
    himp note target (((Inside.self target).of_child hmem).trans hinside))
    (hfirst u hinside) (hsecond u hinside)

/-- Where no sibling is an annotation, none lacks a target. -/
theorem notes_of_plain {Fits : Tree → Tree → Prop} {trees : List Tree}
    (hplain : ∀ t ∈ trees, t.annotates = false) : Notes Fits trees := by
  induction trees with
  | nil => trivial
  | cons t rest ih =>
    obtain ⟨hfirst, hrest⟩ := List.forall_mem_cons.mp hplain
    refine ⟨fun hannotates => ?_, ih hrest⟩
    rw [hfirst] at hannotates
    cases hannotates

section

variable {Fits : Tree → Tree → Prop} {tag : String} {children : List Tree}
  {location : Option Span}

/-- The annotations inside a node are those among its children and those inside its children. -/
theorem noted_node : (node tag children location).Noted Fits ↔
    Notes Fits children ∧ ∀ c ∈ children, c.Noted Fits :=
  forall_inside_node

/-- A node is tidy if its own children and the trees inside them are. -/
theorem tidy_node : (node tag children location).Tidy ↔
    (((node tag children location).tagIn ["send", "csend"] = true →
        ∀ receiver ∈ children.head?, receiver.annotates = false) ∧
      ((node tag children location).isTestBlock = true →
        (node tag children location).Unannotated)) ∧
    ∀ c ∈ children, c.Tidy :=
  forall_inside_node

end

/-- Classes and constant assignments are no calls. -/
theorem not_call_of_target {t : Tree} (htarget : t.tagIn targetTags = true) :
    t.tag ∉ ["send", "csend"] := by
  have hcalls : ∀ tag ∈ ["send", "csend"], targetTags.contains tag = false := by decide
  intro hmem
  unfold tagIn at htarget
  rw [hcalls t.tag hmem, Bool.and_false] at htarget
  cases htarget

/-! ## What stays -/

section

variable {t : Tree} {rest : List Tree}

/-- An annotation is taken out of a list. -/
theorem withoutAnnotationsAll_note (hnote : t.annotates = true) :
    withoutAnnotationsAll (t :: rest) = withoutAnnotationsAll rest := by
  rw [withoutAnnotationsAll, if_pos hnote]

/-- Any other tree stays, without the annotations inside it. -/
theorem withoutAnnotationsAll_plain (hplain : t.annotates = false) :
    withoutAnnotationsAll (t :: rest) = t.withoutAnnotations :: withoutAnnotationsAll rest := by
  rw [withoutAnnotationsAll, hplain, if_neg Bool.false_ne_true]

private theorem exists_of_mem_withoutAnnotationsAll {c : Tree} {trees : List Tree}
    (hc : c ∈ withoutAnnotationsAll trees) : ∃ d ∈ trees, c = d.withoutAnnotations := by
  induction trees with
  | nil => cases hc
  | cons t rest ih =>
    have hrest (hc : c ∈ withoutAnnotationsAll rest) :
        ∃ d ∈ t :: rest, c = d.withoutAnnotations := by
      obtain ⟨d, hd, hsame⟩ := ih hc
      exact ⟨d, List.mem_cons_of_mem t hd, hsame⟩
    cases hnote : t.annotates with
    | true =>
      rw [withoutAnnotationsAll_note hnote] at hc
      exact hrest hc
    | false =>
      rw [withoutAnnotationsAll_plain hnote] at hc
      rcases List.mem_cons.mp hc with rfl | hc
      · exact ⟨t, List.mem_cons_self, rfl⟩
      · exact hrest hc

end

mutual

/-- A tree without annotations stays as it is. -/
theorem withoutAnnotations_of_unannotated : (t : Tree) → t.Unannotated →
    t.withoutAnnotations = t
  | leaf value, _ => by rw [withoutAnnotations]
  | node tag children location, hplain => by
    rw [withoutAnnotations,
      withoutAnnotationsAll_of_unannotated children (unannotated_node.mp hplain).2]

private theorem withoutAnnotationsAll_of_unannotated : (trees : List Tree) →
    (∀ t ∈ trees, t.Unannotated) → withoutAnnotationsAll trees = trees
  | [], _ => by rw [withoutAnnotationsAll]
  | t :: rest, hplain => by
    have hfirst := hplain t List.mem_cons_self
    rw [withoutAnnotationsAll_plain (hfirst t (.self t)),
      withoutAnnotations_of_unannotated t hfirst,
      withoutAnnotationsAll_of_unannotated rest fun c hc => hplain c (List.mem_cons_of_mem t hc)]

end

/-! ## No test comes into being -/

section

variable {Fits : Tree → Tree → Prop}

private theorem isNode_withoutAnnotations (t : Tree) : t.withoutAnnotations.isNode = t.isNode := by
  cases t <;> rfl

private theorem tag_withoutAnnotations (t : Tree) : t.withoutAnnotations.tag = t.tag := by
  cases t <;> rfl

private theorem scalar?_withoutAnnotations (t : Tree) :
    t.withoutAnnotations.scalar? = t.scalar? := by
  cases t <;> rfl

/-- A target without its annotations is one. -/
private theorem tagIn_withoutAnnotations {t : Tree} (htarget : t.tagIn targetTags = true) :
    t.withoutAnnotations.tagIn targetTags = true := by
  unfold tagIn at htarget ⊢
  rw [isNode_withoutAnnotations, tag_withoutAnnotations]
  exact htarget

/-- If a call is made on no annotation, its receiver and its method stay in place. -/
private theorem map_scalar?_withoutAnnotationsAll {children : List Tree}
    (hnotes : Notes Fits children)
    (hreceiver : ∀ receiver ∈ children.head?, receiver.annotates = false) :
    ((withoutAnnotationsAll children).map scalar?).take 2 = (children.map scalar?).take 2 := by
  match children with
  | [] => rfl
  | receiver :: rest =>
    rw [withoutAnnotationsAll_plain (hreceiver receiver rfl)]
    obtain ⟨-, hrest⟩ := hnotes
    have hmethod :
        ((withoutAnnotationsAll rest).map scalar?).take 1 = (rest.map scalar?).take 1 := by
      match rest with
      | [] => rfl
      | method :: args =>
        cases hnote : method.annotates with
        | false =>
          rw [withoutAnnotationsAll_plain hnote]
          simp [scalar?_withoutAnnotations]
        | true =>
          -- Neither the annotation nor the target behind it is a symbol.
          obtain ⟨target, later, rfl, htarget, -⟩ := (hrest.1 hnote).exists_cons
          have hplain := annotates_eq_false (not_call_of_target htarget)
          rw [withoutAnnotationsAll_note hnote, withoutAnnotationsAll_plain hplain]
          cases method with
          | leaf value => cases hnote
          | node =>
            cases target with
            | leaf value => cases htarget
            | node => rfl
    simp only [List.map_cons, List.take_succ_cons, scalar?_withoutAnnotations, hmethod]

/-- Tags and calls are kept. -/
private theorem sameHead_withoutAnnotations {t : Tree} (hnoted : t.Noted Fits) (htidy : t.Tidy) :
    t.SameHead t.withoutAnnotations := by
  refine ⟨isNode_withoutAnnotations t, tag_withoutAnnotations t, ?_⟩
  cases t with
  | leaf value => rfl
  | node tag children location =>
    rw [withoutAnnotations]
    by_cases hcall : tag ∈ ["send", "csend"]
    · have htag : (node tag children location).tagIn ["send", "csend"] = true := by
        simpa [tagIn, isNode, Tree.tag] using hcall
      exact callShape?_congr_take (map_scalar?_withoutAnnotationsAll (noted_node.mp hnoted).1
        ((tidy_node.mp htidy).1.1 htag))
    · have hnone (trees : List Tree) : (node tag trees location).callShape? = none :=
        callShape?_eq_none hcall
      rw [hnone, hnone]

/-- Nothing becomes a test as annotations are deleted. -/
theorem isTestBlock_of_withoutAnnotations {t : Tree} (hnoted : t.Noted Fits) (htidy : t.Tidy)
    (htest : t.withoutAnnotations.isTestBlock = true) : t.isTestBlock = true := by
  obtain ⟨head', params', rest', _, receives, hblock, hshape, hargs⟩ := isTestBlock_iff.mp htest
  cases t with
  | leaf value => cases hblock
  | node tag children location =>
    obtain ⟨rfl, hchildren, rfl⟩ := node.inj hblock
    obtain ⟨hnotes, hparts⟩ := noted_node.mp hnoted
    have htidyParts := (tidy_node.mp htidy).2
    match children with
    | [] => cases hchildren
    | head :: others =>
      cases hhead : head.annotates with
      | true =>
        -- A target would take the place of the call.
        obtain ⟨target, later, rfl, htarget, -⟩ := (hnotes.1 hhead).exists_cons
        have hplain := annotates_eq_false (not_call_of_target htarget)
        rw [withoutAnnotationsAll_note hhead, withoutAnnotationsAll_plain hplain] at hchildren
        rw [← (List.cons.inj hchildren).1, callShape?_eq_none
          (not_call_of_target (tagIn_withoutAnnotations htarget))] at hshape
        cases hshape
      | false =>
        rw [withoutAnnotationsAll_plain hhead] at hchildren
        obtain ⟨rfl, hothers⟩ := List.cons.inj hchildren
        match others with
        | [] => cases hothers
        | params :: later =>
          cases hparams : params.annotates with
          | true =>
            -- A target would take the place of the parameters.
            obtain ⟨target, later', rfl, htarget, -⟩ := (hnotes.2.1 hparams).exists_cons
            have hplain := annotates_eq_false (not_call_of_target htarget)
            rw [withoutAnnotationsAll_note hparams, withoutAnnotationsAll_plain hplain] at hothers
            rw [← (List.cons.inj hothers).1] at hargs
            have hsame : target.withoutAnnotations.tag = "args" :=
              beq_iff_eq.mp (Bool.and_eq_true_iff.mp hargs).2
            have hother := (Bool.and_eq_true_iff.mp (tagIn_withoutAnnotations htarget)).2
            rw [hsame] at hother
            exact absurd hother (by decide)
          | false =>
            rw [withoutAnnotations, withoutAnnotationsAll_plain hhead,
              withoutAnnotationsAll_plain hparams] at htest
            refine isTestBlock_of_sameHead_take ?_ htest
            have hmem : params ∈ head :: params :: later :=
              List.mem_cons_of_mem head List.mem_cons_self
            exact .cons (sameHead_withoutAnnotations (hparts head List.mem_cons_self)
                (htidyParts head List.mem_cons_self))
              (.cons (sameHead_withoutAnnotations (hparts params hmem) (htidyParts params hmem))
                .nil)

/-- The tests that are left are tests of the whole tree, as they are. -/
theorem inside_of_withoutAnnotations {u : Tree} (htest : u.isTestBlock = true) : (t : Tree) →
    t.Noted Fits → t.Tidy → Inside u t.withoutAnnotations → Inside u t
  | leaf value, _, _, hinside => hinside
  | node tag children location, hnoted, htidy, hinside => by
    cases hwhole : (node tag children location).isTestBlock with
    | true =>
      have hplain := (tidy_node.mp htidy).1.2 hwhole
      rw [withoutAnnotations_of_unannotated _ hplain] at hinside
      exact hinside
    | false =>
      rw [withoutAnnotations] at hinside
      cases hinside with
      | self =>
        have hsame := isTestBlock_of_withoutAnnotations hnoted htidy htest
        rw [hwhole] at hsame
        cases hsame
      | child hc hinside =>
        obtain ⟨d, hd, rfl⟩ := exists_of_mem_withoutAnnotationsAll hc
        exact .child hd (inside_of_withoutAnnotations htest d ((noted_node.mp hnoted).2 d hd)
          ((tidy_node.mp htidy).2 d hd) hinside)

/-- Taking annotations out makes no test. -/
theorem TestFree.withoutAnnotations {t : Tree} (hfree : t.TestFree) (hnoted : t.Noted Fits)
    (htidy : t.Tidy) : t.withoutAnnotations.TestFree := by
  intro u hinside
  cases htest : u.isTestBlock with
  | false => rfl
  | true =>
    rw [hfree u (inside_of_withoutAnnotations htest t hnoted htidy hinside)] at htest
    cases htest

/-- Taking annotations out makes no phases. -/
theorem Phaseless.withoutAnnotations {t : Tree} (hphaseless : t.Phaseless) (hnoted : t.Noted Fits)
    (htidy : t.Tidy) : t.withoutAnnotations.Phaseless :=
  fun u hinside htest =>
    hphaseless u (inside_of_withoutAnnotations htest t hnoted htidy hinside) htest

end

end Tree

namespace Phases

variable {mode : Mode} {context : Context} {Fits : Tree → Tree → Prop}

mutual

/-- Where an expansion meets no finished target, it makes no difference whether annotations are
deleted before or after it. -/
theorem expand_withoutAnnotations (hfresh : context.finished = []) : (t : Tree) → ∀ {t' : Tree},
    t.Noted Fits → t.Tidy → expand mode context t = .ok t' →
      expand mode context t.withoutAnnotations = .ok t'.withoutAnnotations
  | .leaf value, t', _, _, hdone => by
    rw [ok_of_expand_leaf hdone, Tree.withoutAnnotations, expand]
  | .node tag children location, t', hnoted, htidy, hdone => by
    cases htest : (Tree.node tag children location).isTestBlock with
    | true =>
      have hplain := (Tree.tidy_node.mp htidy).1.2 htest
      have hplain' := unannotated_of_expandTest hplain ((expand_test htest).symm.trans hdone)
      rw [Tree.withoutAnnotations_of_unannotated _ hplain, hdone,
        Tree.withoutAnnotations_of_unannotated _ hplain']
    | false =>
      obtain ⟨others, hothers, rfl⟩ := ok_of_expand_other (open_of_fresh hfresh) htest hdone
      have hkept := expandAll_withoutAnnotations hfresh children (Tree.noted_node.mp hnoted).2
        (Tree.tidy_node.mp htidy).2 hothers
      have hleft : (Tree.node tag children location).withoutAnnotations.isTestBlock = false := by
        rw [Bool.eq_false_iff]
        intro hmade
        rw [Tree.isTestBlock_of_withoutAnnotations hnoted htidy hmade] at htest
        cases htest
      rw [Tree.withoutAnnotations] at hleft ⊢
      exact expand_other (open_of_fresh hfresh) hleft hkept

/-- Expanding phases commutes with taking annotations out of the trees of a list. -/
theorem expandAll_withoutAnnotations (hfresh : context.finished = []) : (trees : List Tree) →
    ∀ {others : List Tree}, (∀ t ∈ trees, t.Noted Fits) → (∀ t ∈ trees, t.Tidy) →
      expandAll mode context trees = .ok others →
      expandAll mode context (Tree.withoutAnnotationsAll trees) =
        .ok (Tree.withoutAnnotationsAll others)
  | [], others, _, _, hdone => by
    rw [expandAll] at hdone
    rw [← Except.ok.inj hdone, Tree.withoutAnnotationsAll, expandAll]
  | t :: rest, others, hnoted, htidy, hdone => by
    obtain ⟨first, later, hfirst, hlater, rfl⟩ := expandAll_cons hdone
    have hsame := annotates_of_expand hfirst
    have hrest := expandAll_withoutAnnotations hfresh rest
      (fun c hc => hnoted c (List.mem_cons_of_mem t hc))
      (fun c hc => htidy c (List.mem_cons_of_mem t hc)) hlater
    cases hnote : t.annotates with
    | true =>
      rw [hnote] at hsame
      rw [Tree.withoutAnnotationsAll_note hnote, Tree.withoutAnnotationsAll_note hsame, hrest]
    | false =>
      rw [hnote] at hsame
      have hkept := expand_withoutAnnotations hfresh t (hnoted t List.mem_cons_self)
        (htidy t List.mem_cons_self) hfirst
      rw [Tree.withoutAnnotationsAll_plain hnote, Tree.withoutAnnotationsAll_plain hsame,
        expandAll, hkept, hrest]
      rfl

end

end Phases

end PhasedTests
