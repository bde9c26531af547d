import PhasedTests.Phase.Basic

/-!
# The shape of a call

Whether a call has a receiver and which method it calls is told by its tag and the leaves among its
children. Nodes below it may be exchanged for others.
-/

namespace PhasedTests.Tree

/-- The scalar of a leaf. -/
def scalar? : Tree → Option Scalar
  | leaf value => some value
  | node .. => none

private theorem eq_leaf_of_scalar? {t : Tree} {value : Scalar} (hscalar : t.scalar? = some value) :
    t = leaf value := by
  cases t with
  | leaf other => exact congrArg leaf (Option.some.inj hscalar)
  | node => cases hscalar

/-- Whether the call of a node has a receiver, and its method. -/
def callShape? (t : Tree) : Option (Bool × String) :=
  t.call?.map fun call => (call.receiver.isSome, call.method)

/-- Only sends are calls. -/
theorem call?_eq_none {t : Tree} (htag : t.tag ∉ ["send", "csend"]) : t.call? = none := by
  cases hcall : t.call? with
  | none => rfl
  | some call =>
    rcases tag_of_call? hcall with hsame | hsame
    · rw [hsame] at htag
      exact absurd (by decide) htag
    · rw [hsame] at htag
      exact absurd (by decide) htag

/-- So only sends are bare calls. -/
theorem bareCall?_eq_none {t : Tree} (htag : t.tag ∉ ["send", "csend"]) : t.bareCall? = none := by
  unfold bareCall?
  rw [call?_eq_none htag]

/-- And only sends have the shape of one. -/
theorem callShape?_eq_none {t : Tree} (htag : t.tag ∉ ["send", "csend"]) : t.callShape? = none := by
  unfold callShape?
  rw [call?_eq_none htag, Option.map_none]

/-- A missing receiver is a nil. -/
theorem eq_nil_of_receiver? {t : Tree} (hmissing : t.receiver? = some none) : t = nil := by
  unfold receiver? at hmissing
  split at hmissing
  · rfl
  · cases hmissing
  · cases hmissing

/-- A bare call is a send whose only children are nil and a symbol. -/
theorem bareCall?_iff_written {t : Tree} {name : String} :
    t.bareCall? = some name ↔
      ∃ tag ∈ ["send", "csend"], ∃ location, t = node tag [nil, symbol name] location := by
  constructor
  · intro hcall
    unfold bareCall? at hcall
    split at hcall
    · rename_i hfound
      obtain rfl := Option.some.inj hcall
      obtain ⟨receiver, hchildren, hreceiver⟩ := children_of_call? hfound
      obtain rfl : receiver = nil := eq_nil_of_receiver? hreceiver
      cases t with
      | leaf value => cases hchildren
      | node tag children location =>
        obtain rfl : children = _ := hchildren
        have htag : tag = "send" ∨ tag = "csend" := tag_of_call? hfound
        exact ⟨tag, by simpa using htag, location, rfl⟩
    · cases hcall
  · rintro ⟨tag, htag, location, rfl⟩
    have hsend : tag = "send" ∨ tag = "csend" := by simpa using htag
    rcases hsend with rfl | rfl <;> rfl

/-- It is told by its tag and its leaves. -/
theorem bareCall?_eq_some_iff {t : Tree} {name : String} :
    t.bareCall? = some name ↔
      t.tag ∈ ["send", "csend"] ∧ t.children.map scalar? = [some .nil, some (.symbol name)] := by
  rw [bareCall?_iff_written]
  constructor
  · rintro ⟨tag, htag, location, rfl⟩
    exact ⟨htag, rfl⟩
  · rintro ⟨htag, hscalars⟩
    obtain ⟨first, others, hchildren, hfirst, hothers⟩ := List.map_eq_cons_iff.mp hscalars
    obtain ⟨second, rfl, hsecond⟩ := List.map_eq_singleton_iff.mp hothers
    obtain rfl := eq_leaf_of_scalar? hfirst
    obtain rfl := eq_leaf_of_scalar? hsecond
    cases t with
    | leaf value => cases hchildren
    | node tag children location =>
      obtain rfl : children = _ := hchildren
      exact ⟨tag, htag, location, rfl⟩

/-- So whether a node is one, and to what, is told by its tag and its leaves. -/
theorem bareCall?_congr {t u : Tree} (htag : u.tag = t.tag)
    (hscalars : u.children.map scalar? = t.children.map scalar?) : u.bareCall? = t.bareCall? := by
  refine Option.ext fun name => ?_
  rw [bareCall?_eq_some_iff, bareCall?_eq_some_iff, htag, hscalars]

/-- A call on a node with one node as its argument has these three children. -/
theorem eq_of_binaryCall? {t left right : Tree} {method : String}
    (hcall : t.binaryCall? = some (left, method, right)) :
    ∃ tag location, tag ∈ ["send", "csend"] ∧
      t = .node tag [left, .symbol method, right] location := by
  unfold binaryCall? at hcall
  split at hcall
  · rename_i hfound
    split at hcall
    · obtain ⟨rfl, rfl, rfl⟩ : _ = left ∧ _ = method ∧ _ = right := by simpa using hcall
      obtain ⟨receiver, hchildren, hreceiver⟩ := children_of_call? hfound
      obtain rfl := eq_of_receiver? hreceiver
      cases t with
      | leaf value => cases hfound
      | node tag children location =>
        have htag : tag = "send" ∨ tag = "csend" := tag_of_call? hfound
        obtain rfl : children = _ := hchildren
        exact ⟨tag, location, by simpa using htag, rfl⟩
    · cases hcall
  · cases hcall

/-- The shape of the call of a node with this tag and these scalars among its children. -/
private def shapeOf? (tag : String) : List (Option Scalar) → Option (Bool × String)
  | receiver :: some (.symbol method) :: _ =>
    if tag == "send" || tag == "csend" then
      match receiver with
      | none => some (true, method)
      | some .nil => some (false, method)
      | some _ => none
    else none
  | _ => none

private theorem callShape?_node (tag : String) (children : List Tree) (location : Option Span) :
    (node tag children location).callShape? = shapeOf? tag (children.map scalar?) := by
  match children with
  | [] => rfl
  | [_] => rfl
  | _ :: node .. :: _ => rfl
  | _ :: leaf (.text _) :: _ => rfl
  | _ :: leaf (.int _) :: _ => rfl
  | _ :: leaf (.float _) :: _ => rfl
  | _ :: leaf .nil :: _ => rfl
  | receiver :: leaf (.symbol method) :: args =>
    change Option.map _ (if tag == "send" || tag == "csend" then _ else none) =
      if tag == "send" || tag == "csend" then _ else none
    split
    · cases receiver with
      | node => rfl
      | leaf value => cases value <;> rfl
    · rfl

private theorem shapeOf?_take (tag : String) (scalars : List (Option Scalar)) :
    shapeOf? tag (scalars.take 2) = shapeOf? tag scalars := by
  match scalars with
  | [] | [_] | _ :: none :: _ | _ :: some (.symbol _) :: _ | _ :: some (.text _) :: _
  | _ :: some (.int _) :: _ | _ :: some (.float _) :: _ | _ :: some .nil :: _ => rfl

/-- The shape of a call is told by its first two children. -/
theorem callShape?_congr_take {tag : String} {children others : List Tree}
    {location place : Option Span}
    (hscalars : (others.map scalar?).take 2 = (children.map scalar?).take 2) :
    (node tag others place).callShape? = (node tag children location).callShape? := by
  rw [callShape?_node, callShape?_node, ← shapeOf?_take, hscalars, shapeOf?_take]

/-- Calls with the same leaves have the same shape. -/
theorem callShape?_congr {tag : String} {children others : List Tree} {location place : Option Span}
    (hscalars : others.map scalar? = children.map scalar?) :
    (node tag others place).callShape? = (node tag children location).callShape? :=
  callShape?_congr_take (congrArg (List.take 2) hscalars)

/-- A statement introduces a phase by the shape of its call. -/
theorem introduces?_eq (t : Tree) : t.introduces? =
    match t.callShape? with
    | some (false, method) => Phase.ofName? method
    | _ => none := by
  unfold introduces? callShape?
  cases t.call? with
  | none => rfl
  | some call =>
    obtain ⟨receiver, method, args⟩ := call
    cases receiver <;> rfl

/-- A statement that calls nothing introduces no phase. -/
theorem introduces?_node {tag : String} {children : List Tree} {location : Option Span}
    (htag : tag ∉ ["send", "csend"]) : (node tag children location).introduces? = none := by
  have hshape : (node tag children location).callShape? = none := callShape?_eq_none htag
  rw [introduces?_eq, hshape]

/-- The place of a statement does not tell which phase it introduces. -/
theorem introduces?_located (t : Tree) (place : Option Span) :
    (t.located place).introduces? = t.introduces? := by
  cases t with
  | leaf value => rfl
  | node tag children location =>
    rw [introduces?_eq, introduces?_eq, located, callShape?_congr rfl]

end PhasedTests.Tree
