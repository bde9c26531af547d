import PhasedTests.Proofs.Expansion.Deletion

/-!
# Annotations in an expanded tree

The phase expansion changes tests only. The names in the arguments of an annotation are the same
before and after it, and so is what stands around annotations.
-/

namespace PhasedTests

namespace Phases

variable {mode : Mode} {context : Context}

/-! ## Names -/

/-- Nodes other than blocks and targets are expanded in their children. -/
theorem ok_of_expand_plain {tag : String} {children : List Tree} {location : Option Span}
    {expanded : Tree} (htarget : targetTags.contains tag = false) (hother : tag ≠ "block")
    (hdone : expand mode context (.node tag children location) = .ok expanded) :
    ∃ others, expandAll mode context children = .ok others ∧
      expanded = .node tag others location :=
  ok_of_expand_other (by rw [htarget, Bool.false_and]) (Tree.isTestBlock_eq_false hother) hdone

/-- A call is expanded in its receiver and its arguments. -/
theorem call?_of_expand {t t' : Tree} {call : Call} (hcall : t.call? = some call)
    (hdone : expand mode context t = .ok t') :
    ∃ call', t'.call? = some call' ∧ call'.method = call.method ∧
      Option.Rel (fun r r' => expand mode context r = .ok r') call.receiver call'.receiver ∧
      List.Forall₂ (fun a a' => expand mode context a = .ok a') call.args call'.args := by
  cases t with
  | leaf value => cases hcall
  | node tag children location =>
    obtain ⟨first, hchildren, hreceiver⟩ := Tree.children_of_call? hcall
    have htag : tag ∈ ["send", "csend"] := by
      simpa [Tree.tag] using Tree.tag_of_call? hcall
    have hplain : ∀ tag ∈ ["send", "csend"],
        targetTags.contains tag = false ∧ tag ≠ "block" := by
      decide
    obtain ⟨others, hothers, rfl⟩ :=
      ok_of_expand_plain (hplain tag htag).1 (hplain tag htag).2 hdone
    obtain rfl : children = first :: .symbol call.method :: call.args := hchildren
    obtain ⟨first', rest, hfirst, hrest, rfl⟩ := expandAll_cons hothers
    obtain ⟨method', args, hmethod, hargs, rfl⟩ := expandAll_cons hrest
    obtain rfl := ok_of_expand_leaf hmethod
    have hsend : (tag == "send" || tag == "csend") = true := by simpa using htag
    have hread : ∃ receiver', first'.receiver? = some receiver' ∧
        Option.Rel (fun r r' => expand mode context r = .ok r') call.receiver receiver' := by
      cases first with
      | leaf value =>
        rw [ok_of_expand_leaf hfirst]
        cases value with
        | nil =>
          rw [← Option.some.inj hreceiver]
          exact ⟨none, rfl, .none⟩
        | _ => cases hreceiver
      | node first children place =>
        rw [← Option.some.inj hreceiver]
        exact ⟨some first', Tree.receiver?_of_isNode (isNode_of_expand hfirst rfl), .some hfirst⟩
    obtain ⟨receiver', hread, hreceivers⟩ := hread
    refine ⟨⟨receiver', call.method, args⟩, ?_, rfl, hreceivers, forall₂_of_expandAll hargs⟩
    change (if tag == "send" || tag == "csend" then first'.receiver?.map _ else none) = _
    rw [if_pos hsend, hread]
    rfl

/-- What calls nothing is expanded to something that calls nothing. -/
theorem call?_eq_none_of_expand {t t' : Tree} (hcall : t.call? = none)
    (hdone : expand mode context t = .ok t') : t'.call? = none := by
  have hshape := (sameHead_of_expand hdone).callShape
  unfold Tree.callShape? at hshape
  rw [hcall, Option.map_none, Option.map_eq_none_iff] at hshape
  exact hshape

/-- Only constants have the name of one. -/
theorem constantPath?_eq_none {t : Tree} (hother : t.tag ≠ "const") : t.constantPath? = none := by
  unfold Tree.constantPath?
  split
  · exact absurd rfl hother
  · rfl

/-- Constants keep their names. -/
theorem constantPath?_of_expand (t : Tree) {t' : Tree} (hdone : expand mode context t = .ok t') :
    t'.constantPath? = t.constantPath? := by
  cases t with
  | leaf value => rw [ok_of_expand_leaf hdone]
  | node tag children location =>
    by_cases hconst : tag = "const"
    · rw [hconst] at hdone ⊢
      obtain ⟨others, hothers, rfl⟩ := ok_of_expand_plain (by decide) (by decide) hdone
      rcases children with _ | ⟨scope, _ | ⟨name, rest⟩⟩
      · rw [expandAll] at hothers
        rw [← Except.ok.inj hothers]
      · obtain ⟨scope', later, -, hlater, rfl⟩ := expandAll_cons hothers
        rw [expandAll] at hlater
        rw [← Except.ok.inj hlater]
        rfl
      · obtain ⟨scope', later, hscope, hlater, rfl⟩ := expandAll_cons hothers
        obtain ⟨name', rest', hname, -, rfl⟩ := expandAll_cons hlater
        cases name with
        | node =>
          cases name' with
          | leaf value => cases isNode_of_expand hname rfl
          | node => rfl
        | leaf value =>
          obtain rfl := ok_of_expand_leaf hname
          cases value with
          | symbol name =>
            rw [Tree.constantPath?, Tree.constantPath?, (sameHead_of_expand hscope).isNode,
              constantPath?_of_expand scope hscope]
          | _ => rfl
    · have hother : t'.tag ≠ "const" := by
        rw [(sameHead_of_expand hdone).tag]
        exact hconst
      have hnone : (Tree.node tag children location).constantPath? = none :=
        constantPath?_eq_none hconst
      rw [constantPath?_eq_none hother, hnone]

/-- So the arguments of an annotation name the same transformations. -/
theorem transformationName?_of_expand {t t' : Tree} (hdone : expand mode context t = .ok t') :
    Annotations.transformationName? t' = Annotations.transformationName? t := by
  unfold Annotations.transformationName?
  cases hcall : t.call? with
  | none =>
    rw [call?_eq_none_of_expand hcall hdone]
    exact constantPath?_of_expand t hdone
  | some call =>
    obtain ⟨call', hcall', hmethod, hreceiver, -⟩ := call?_of_expand hcall hdone
    obtain ⟨receiver, method, args⟩ := call
    obtain ⟨receiver', method', args'⟩ := call'
    obtain rfl : method' = method := hmethod
    rw [hcall']
    cases hreceiver with
    | none => rfl
    | some hreceiver =>
      have hpath := constantPath?_of_expand _ hreceiver
      by_cases hnew : method' = "new"
      · rw [hnew]
        exact hpath
      · simp [hnew]

private theorem filterMap_argNodes {args args' : List Tree}
    (hargs : List.Forall₂ (fun a a' => expand mode context a = .ok a') args args') :
    (Tree.nodesOf args').filterMap Annotations.transformationName? =
      (Tree.nodesOf args).filterMap Annotations.transformationName? := by
  induction hargs with
  | nil => rfl
  | @cons arg arg' _ _ harg _ ih =>
    unfold Tree.nodesOf at ih ⊢
    rw [List.filter_cons, List.filter_cons, (sameHead_of_expand harg).isNode]
    split
    · rw [List.filterMap_cons, List.filterMap_cons, transformationName?_of_expand harg, ih]
    · exact ih

/-- An expanded annotation names what it named before. -/
theorem named_of_expand {registry : Annotations.Registry} {note note' : Tree}
    (hnote : note.annotates = true) (hdone : expand mode context note = .ok note') :
    Annotations.named registry note' = Annotations.named registry note := by
  have hshape := (Tree.annotates_iff.mp hnote).1
  obtain ⟨call, hcall, -⟩ := Option.map_eq_some_iff.mp hshape
  obtain ⟨call', hcall', -, -, hargs⟩ := call?_of_expand hcall hdone
  have hplace : note'.location = note.location := by
    cases note with
    | leaf value => cases hcall
    | node tag children location =>
      rcases expand_cases hdone with rfl | ⟨rfl, others, rfl⟩ | ⟨others, -, rfl⟩
      · rfl
      · rw [Tree.call?_eq_none (by decide : "block" ∉ _)] at hcall
        cases hcall
      · rfl
  unfold Annotations.named
  rw [hcall, hcall', hplace]
  dsimp only
  rw [show call'.argNodes.filterMap _ = _ from filterMap_argNodes hargs]
  rfl

/-! ## Places -/

/-- Expanding the phases of a tidy tree keeps it tidy. -/
theorem tidy_of_expand {t t' : Tree} (htidy : t.Tidy) (hdone : expand mode context t = .ok t') :
    t'.Tidy := by
  refine forall_inside_of_expand ?_ ?_ t (fun u hinside => (htidy u hinside).2) htidy hdone
  · intro u hplain
    refine ⟨fun _ receiver hreceiver => ?_, fun _ => hplain⟩
    exact hplain receiver ((Tree.Inside.self receiver).of_child (List.mem_of_mem_head? hreceiver))
  · intro tag children others location ⟨hreceiver, htest⟩ hother hothers
    refine ⟨fun hcall receiver' hmem => ?_, fun htest => ?_⟩
    · match children with
      | [] =>
        rw [expandAll] at hothers
        rw [← Except.ok.inj hothers] at hmem
        cases hmem
      | receiver :: rest =>
        obtain ⟨first, later, hfirst, -, rfl⟩ := expandAll_cons hothers
        obtain rfl := Option.some.inj hmem
        rw [annotates_of_expand hfirst]
        exact hreceiver hcall receiver rfl
    · rw [isTestBlock_of_expandAll hothers htest] at hother
      cases hother

/-- Siblings keep their targets. -/
private theorem notes_of_expandAll {Fits : Tree → Tree → Prop}
    (hfits : ∀ {note target note' target'}, note.annotates = true → Fits note target →
      expand mode context note = .ok note' → expand mode context target = .ok target' →
      Fits note' target') {trees others : List Tree} (hnotes : Tree.Notes Fits trees)
    (hdone : expandAll mode context trees = .ok others) : Tree.Notes Fits others := by
  induction trees generalizing others with
  | nil =>
    rw [expandAll] at hdone
    rw [← Except.ok.inj hdone]
    trivial
  | cons t rest ih =>
    obtain ⟨first, later, hfirst, hlater, rfl⟩ := expandAll_cons hdone
    obtain ⟨hdue, hrest⟩ := hnotes
    refine ⟨fun hannotates => ?_, ih hrest hlater⟩
    rw [annotates_of_expand hfirst] at hannotates
    obtain ⟨target, behind, rfl, htarget, hfit⟩ := (hdue hannotates).exists_cons
    obtain ⟨target', behind', hexpand, -, rfl⟩ := expandAll_cons hlater
    refine ⟨?_, hfits hannotates hfit hfirst hexpand⟩
    have hhead := sameHead_of_expand hexpand
    unfold Tree.tagIn at htarget ⊢
    rw [hhead.isNode, hhead.tag]
    exact htarget

/-- An expansion keeps annotations in front of targets that they fit, if it keeps that they fit. -/
theorem noted_of_expand {Fits : Tree → Tree → Prop} {t t' : Tree}
    (hfits : ∀ {note target note' target'}, note.annotates = true → Fits note target →
      expand mode context note = .ok note' → expand mode context target = .ok target' →
      Fits note' target')
    (hnoted : t.Noted Fits) (htidy : t.Tidy) (hdone : expand mode context t = .ok t') :
    t'.Noted Fits := by
  refine forall_inside_of_expand ?_ ?_ t (fun u hinside => (htidy u hinside).2) hnoted hdone
  · intro u hplain
    exact Tree.notes_of_plain fun c hc => hplain c ((Tree.Inside.self c).of_child hc)
  · intro tag children others location hnotes _ hothers
    exact notes_of_expandAll hfits hnotes hothers

end Phases

end PhasedTests
