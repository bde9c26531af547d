import PhasedTests.Generate.Locals
import PhasedTests.Proofs.Tree.Call

/-!
# Calls that become locals

Reading bare calls as locals replaces whole nodes. Every other node keeps its tag and its place, and
the replacement goes on in its children.
-/

namespace PhasedTests.Generate

variable (names : List String)

/-- The trees of a list are read one by one. -/
theorem callsToLocalsAll_eq_map (trees : List Tree) :
    callsToLocalsAll names trees = trees.map (callsToLocals names) := by
  induction trees with
  | nil => rfl
  | cons t rest ih => rw [callsToLocalsAll, ih, List.map_cons]

/-- A node becomes a local, or it is kept and its children are rewritten. -/
theorem callsToLocals_cases (tag : String) (children : List Tree) (location : Option Span) :
    (∃ name, callsToLocals names (.node tag children location) =
      .node "lvar" [.symbol name] location) ∨
    callsToLocals names (.node tag children location) =
      .node tag (children.map (callsToLocals names)) location := by
  rw [callsToLocals]
  split
  · exact Or.inl ⟨_, rfl⟩
  · rw [callsToLocalsAll_eq_map]
    exact Or.inr rfl

mutual

/-- Without names nothing is read as a local. -/
theorem callsToLocals_nil : (t : Tree) → callsToLocals [] t = t
  | .leaf value => by rw [callsToLocals]
  | .node tag children location => by
    have hnone : (Tree.node tag children location).bareCall?.filter
        ([] : List String).contains = none := by
      cases (Tree.node tag children location).bareCall? <;> rfl
    rw [callsToLocals, hnone, callsToLocalsAll_nil children]

private theorem callsToLocalsAll_nil : (trees : List Tree) → callsToLocalsAll [] trees = trees
  | [] => rfl
  | t :: rest => by rw [callsToLocalsAll, callsToLocals_nil t, callsToLocalsAll_nil rest]

end

/-- A node that is no call is kept. -/
theorem callsToLocals_node {tag : String} (htag : tag ∉ ["send", "csend"]) (children : List Tree)
    (location : Option Span) : callsToLocals names (.node tag children location) =
      .node tag (children.map (callsToLocals names)) location := by
  have hbare : (Tree.node tag children location).bareCall? = none := Tree.bareCall?_eq_none htag
  rw [callsToLocals, hbare, callsToLocalsAll_eq_map]
  rfl

/-- Reading locals keeps the scalar of a leaf and gives a node none. -/
theorem scalar?_callsToLocals (t : Tree) : (callsToLocals names t).scalar? = t.scalar? := by
  cases t with
  | leaf value => rw [callsToLocals]
  | node tag children location =>
    rcases callsToLocals_cases names tag children location with ⟨name, hlocal⟩ | hkept
    · rw [hlocal]
      rfl
    · rw [hkept]
      rfl

/-- A call stays what it is or calls nothing any more. -/
theorem callShape?_callsToLocals (t : Tree) :
    (callsToLocals names t).callShape? = none ∨
      (callsToLocals names t).callShape? = t.callShape? := by
  cases t with
  | leaf value =>
    rw [callsToLocals]
    exact Or.inr rfl
  | node tag children location =>
    rcases callsToLocals_cases names tag children location with ⟨name, hlocal⟩ | hkept
    · rw [hlocal]
      exact Or.inl rfl
    · rw [hkept]
      refine Or.inr (Tree.callShape?_congr ?_)
      rw [List.map_map]
      exact List.map_congr_left fun t _ => scalar?_callsToLocals names t

/-- No phase is introduced by reading locals. -/
theorem introduces?_callsToLocals {t : Tree} (hquiet : t.introduces? = none) :
    (callsToLocals names t).introduces? = none := by
  rw [Tree.introduces?_eq] at hquiet ⊢
  rcases callShape?_callsToLocals names t with hnone | hsame
  · rw [hnone]
  · rw [hsame]
    exact hquiet

/-! ## Places and paths -/

/-- Reading locals keeps nodes nodes. -/
theorem isNode_callsToLocals (t : Tree) : (callsToLocals names t).isNode = t.isNode := by
  cases t with
  | leaf value => rw [callsToLocals]
  | node tag children location =>
    rcases callsToLocals_cases names tag children location with ⟨name, hlocal⟩ | hkept
    · rw [hlocal]
      rfl
    · rw [hkept]
      rfl

/-- Reading locals keeps the place. -/
theorem location_callsToLocals (t : Tree) : (callsToLocals names t).location = t.location := by
  cases t with
  | leaf value => rw [callsToLocals]
  | node tag children location =>
    rcases callsToLocals_cases names tag children location with ⟨name, hlocal⟩ | hkept
    · rw [hlocal]
      rfl
    · rw [hkept]
      rfl

/-- A sequence of statements stays one. -/
theorem begin_callsToLocals {t : Tree} (hbegin : t.hasTag "begin" = true) :
    (callsToLocals names t).hasTag "begin" = true := by
  cases t with
  | leaf value => cases hbegin
  | node tag children location =>
    have htag : tag = "begin" := by simpa [Tree.hasTag, Tree.isNode, Tree.tag] using hbegin
    subst htag
    rw [callsToLocals_node names (by decide)]
    exact hbegin

/-- A bare call has no child nodes. -/
private theorem nodeAt?_of_bareCall? {t : Tree} {name : String} (hcall : t.bareCall? = some name)
    (index : Nat) : t.nodeAt? index = none := by
  obtain ⟨-, hscalars⟩ := Tree.bareCall?_eq_some_iff.mp hcall
  refine Option.filter_eq_none_iff.mpr fun child hchild hnode => ?_
  have hmem : child.scalar? ∈ [some Scalar.nil, some (.symbol name)] :=
    hscalars ▸ List.mem_map_of_mem (List.mem_of_getElem? hchild)
  cases child with
  | leaf value => cases hnode
  | node => simp [Tree.scalar?] at hmem

/-- Child nodes are read at their indices. -/
theorem nodeAt?_callsToLocals (t : Tree) (index : Nat) :
    (callsToLocals names t).nodeAt? index = (t.nodeAt? index).map (callsToLocals names) := by
  cases t with
  | leaf value => rw [callsToLocals]; rfl
  | node tag children location =>
    rw [callsToLocals]
    split
    · rename_i name hfound
      have hcall := (Option.filter_eq_some_iff.mp hfound).1
      rw [nodeAt?_of_bareCall? hcall]
      cases index <;> rfl
    · unfold Tree.nodeAt? Tree.children
      rw [callsToLocalsAll_eq_map, List.getElem?_map]
      cases children[index]? with
      | none => rfl
      | some child =>
        rw [Option.map_some, Option.filter_some, Option.filter_some, isNode_callsToLocals]
        split <;> rfl

/-- The nodes of the tree stay at their paths. -/
theorem dig?_callsToLocals (t : Tree) (path : List Nat) :
    (callsToLocals names t).dig? path = (t.dig? path).map (callsToLocals names) := by
  induction path generalizing t with
  | nil => rfl
  | cons index path ih =>
    rw [Tree.dig?, Tree.dig?, nodeAt?_callsToLocals]
    cases t.nodeAt? index with
    | none => rfl
    | some child => exact ih child

end PhasedTests.Generate
