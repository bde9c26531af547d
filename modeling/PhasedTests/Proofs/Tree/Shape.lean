import PhasedTests.Proofs.Decimal.Double
import PhasedTests.SourceMap.Basic

/-!
# The shape of a tree

A tree without its spans, and the tags and scalars that it holds. Trees with the same shape are
equal as soon as they hold no not-a-number. The nodes of a tree stand at the paths where the walk
over the tree meets them.
-/

namespace PhasedTests.Tree

mutual

/-- The tree without its spans. -/
def bare : Tree → Tree
  | node tag children _ => node tag (bareAll children) none
  | leaf value => leaf value

/-- Trees without their spans. -/
def bareAll : List Tree → List Tree
  | [] => []
  | t :: rest => bare t :: bareAll rest

end

mutual

/-- The tags of all nodes of a tree. -/
def tags : Tree → List String
  | node tag children _ => tag :: tagsAll children
  | leaf _ => []

/-- The tags of all nodes of a list of trees. -/
def tagsAll : List Tree → List String
  | [] => []
  | t :: rest => tags t ++ tagsAll rest

end

mutual

/-- The scalars of all leaves of a tree. -/
def scalars : Tree → List Scalar
  | node _ children _ => scalarsAll children
  | leaf value => [value]

/-- The scalars of all leaves of a list of trees. -/
def scalarsAll : List Tree → List Scalar
  | [] => []
  | t :: rest => scalars t ++ scalarsAll rest

end

/-- The tags in a list are those in its trees. -/
theorem mem_tagsAll {tag : String} {trees : List Tree} :
    tag ∈ tagsAll trees ↔ ∃ t ∈ trees, tag ∈ t.tags := by
  induction trees with
  | nil => simp [tagsAll]
  | cons t trees ih => simp [tagsAll, ih]

mutual

private theorem scalars_bare : (t : Tree) → t.bare.scalars = t.scalars
  | leaf _ => rfl
  | node _ children _ => scalarsAll_bareAll children

private theorem scalarsAll_bareAll : (trees : List Tree) →
    scalarsAll (bareAll trees) = scalarsAll trees
  | [] => rfl
  | t :: rest => by
    rw [bareAll, scalarsAll, scalarsAll, scalars_bare t, scalarsAll_bareAll rest]

end

/-- The trees of a list are bared one by one. -/
theorem bareAll_eq_map (trees : List Tree) : bareAll trees = trees.map bare := by
  induction trees with
  | nil => rfl
  | cons t trees ih => rw [bareAll, List.map_cons, ih]

/-- A node without places is a node. -/
theorem isNode_bare (t : Tree) : t.bare.isNode = t.isNode := by
  cases t <;> rfl

/-- Its children are the children without places. -/
theorem children_bare (t : Tree) : t.bare.children = t.children.map bare := by
  cases t with
  | leaf value => rfl
  | node tag children location => exact bareAll_eq_map children

/-- It has the same tag. -/
theorem hasTag_bare (t : Tree) (tag : String) : t.bare.hasTag tag = t.hasTag tag := by
  cases t <;> rfl

/-- It has the child nodes without places at the same indices. -/
theorem nodeAt?_bare (t : Tree) (index : Nat) :
    t.bare.nodeAt? index = (t.nodeAt? index).map bare := by
  unfold nodeAt?
  rw [children_bare, List.getElem?_map]
  cases t.children[index]? with
  | none => rfl
  | some child =>
    rw [Option.map_some, Option.filter_some, Option.filter_some, isNode_bare]
    split <;> rfl

mutual

/-- Equality is blind to spans. -/
theorem same_bare : (a b : Tree) → a.same b.bare = a.same b
  | leaf _, leaf _ => rfl
  | leaf _, node .. => rfl
  | node .., leaf _ => rfl
  | node _ children _, node _ children' _ => by
    rw [bare, same, same, sameAll_bareAll children children']

private theorem sameAll_bareAll : (as bs : List Tree) → sameAll as (bareAll bs) = sameAll as bs
  | [], [] => rfl
  | [], _ :: _ => rfl
  | _ :: _, [] => rfl
  | a :: as, b :: bs => by
    rw [bareAll, sameAll, sameAll, same_bare a b, sameAll_bareAll as bs]

end

/-- Trees of one shape have the same scalars. -/
theorem scalars_eq_of_bare_eq {a b : Tree} (hshape : a.bare = b.bare) :
    a.scalars = b.scalars := by
  rw [← scalars_bare a, hshape, scalars_bare]

/-- No float among the scalars is a not-a-number. -/
def WithoutNaN (scalars : List Scalar) : Prop :=
  ∀ x, .float x ∈ scalars → x.isNaN = false

/-- A scalar other than a not-a-number is equal to itself. -/
private theorem same_scalar {value : Scalar} (hnan : WithoutNaN [value]) :
    (value == value) = true := by
  cases value with
  | symbol name => exact beq_self_eq_true name
  | text value => exact beq_self_eq_true value
  | int value => exact beq_self_eq_true value
  | float x => exact Decimal.beq_self (hnan x List.mem_cons_self)
  | nil => rfl

mutual

private theorem same_of_shape : (a b : Tree) → a.bare = b.bare → WithoutNaN a.scalars →
    a.same b = true
  | leaf a, leaf b, hshape, hnan => by
    obtain rfl : a = b := by simpa [bare] using hshape
    exact same_scalar hnan
  | leaf _, node .., hshape, _ => nomatch hshape
  | node .., leaf _, hshape, _ => nomatch hshape
  | node tag children location, node tag' children' location', hshape, hnan => by
    obtain ⟨rfl, hchildren⟩ : tag = tag' ∧ bareAll children = bareAll children' := by
      simpa [bare] using hshape
    rw [same, beq_self_eq_true, Bool.true_and]
    exact sameAll_of_shape children children' hchildren hnan

private theorem sameAll_of_shape : (as bs : List Tree) → bareAll as = bareAll bs →
    WithoutNaN (scalarsAll as) → sameAll as bs = true
  | [], [], _, _ => rfl
  | [], _ :: _, hshape, _ => nomatch hshape
  | _ :: _, [], hshape, _ => nomatch hshape
  | a :: as, b :: bs, hshape, hnan => by
    obtain ⟨hfirst, hrest⟩ : a.bare = b.bare ∧ bareAll as = bareAll bs := by
      simpa [bareAll] using hshape
    rw [sameAll, same_of_shape a b hfirst (fun x hx => hnan x (List.mem_append_left _ hx)),
      sameAll_of_shape as bs hrest (fun x hx => hnan x (List.mem_append_right _ hx))]
    rfl

end

/-- Trees of one shape are equal if no scalar of theirs is a not-a-number. -/
theorem beq_of_bare_eq {a b : Tree} (hshape : a.bare = b.bare) (hnan : WithoutNaN a.scalars) :
    (a == b) = true :=
  same_of_shape a b hshape hnan

/-! ## Paths -/

/-- Below a node paths lead to nodes. -/
theorem isNode_of_dig? {t found : Tree} {path : List Nat} (hnode : t.isNode = true)
    (hdig : t.dig? path = some found) : found.isNode = true := by
  induction path generalizing t with
  | nil =>
    obtain rfl := Option.some.inj hdig
    exact hnode
  | cons index path ih =>
    obtain ⟨child, hchild, hdig⟩ := Option.bind_eq_some_iff.mp hdig
    exact ih (Option.filter_eq_some_iff.mp hchild).2 hdig

/-- Only nodes are walked. -/
theorem isNode_of_mem_walk {t : Tree} {entry : List Nat × Tree} (hmem : entry ∈ t.walk) :
    t.isNode = true := by
  cases t with
  | leaf value => cases hmem
  | node tag children location => rfl

mutual

/-- The walk meets every node at its path. -/
theorem dig?_of_mem_walk : (t : Tree) → ∀ entry ∈ t.walk, t.dig? entry.1 = some entry.2
  | leaf _, _, hmem => nomatch hmem
  | node tag children location, entry, hmem => by
    rcases List.mem_cons.mp hmem with rfl | hmem
    · rfl
    · obtain ⟨index, path, child, hpath, hchild, hdig⟩ := dig?_of_mem_walkAll children 0 entry hmem
      rw [Nat.zero_add] at hpath
      have hfound : (node tag children location).nodeAt? index = some child := hchild
      rw [hpath, dig?, hfound, Option.bind_some, hdig]

/-- An entry of a walk through a list stands behind the index of its tree, and its path leads to it
there. -/
theorem dig?_of_mem_walkAll : (trees : List Tree) → (first : Nat) →
    ∀ entry ∈ walkAll first trees, ∃ index path child, entry.1 = (first + index) :: path ∧
      trees[index]?.filter isNode = some child ∧ child.dig? path = some entry.2
  | [], _, _, hmem => nomatch hmem
  | t :: rest, first, entry, hmem => by
    rcases List.mem_append.mp hmem with hmem | hmem
    · obtain ⟨inner, hinner, rfl⟩ := List.mem_map.mp hmem
      refine ⟨0, inner.1, t, rfl, ?_, dig?_of_mem_walk t inner hinner⟩
      rw [List.getElem?_cons_zero, Option.filter_some, if_pos (isNode_of_mem_walk hinner)]
    · obtain ⟨index, path, child, hpath, hchild, hdig⟩ :=
        dig?_of_mem_walkAll rest (first + 1) entry hmem
      refine ⟨index + 1, path, child, ?_, ?_, hdig⟩
      · rw [hpath]
        congr 1
        omega
      · rw [List.getElem?_cons_succ]
        exact hchild

end

end PhasedTests.Tree
