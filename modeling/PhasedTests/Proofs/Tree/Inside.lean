import PhasedTests.Proofs.Tree.Call

/-!
# Trees inside a tree

A tree lies inside itself and inside every node that one of its own parents lies in. What holds of
all trees inside a node holds of the node and of all trees inside its children.
-/

namespace PhasedTests.Tree

/-- `Inside u t` says that `u` is `t` or lies inside a child of it. -/
inductive Inside : Tree → Tree → Prop where
  | self (t : Tree) : Inside t t
  | child {u c : Tree} {tag : String} {children : List Tree} {location : Option Span}
      (hmem : c ∈ children) (hinside : Inside u c) : Inside u (node tag children location)

/-- What lies inside a child lies inside the tree. -/
theorem Inside.of_child {u c t : Tree} (hinside : Inside u c) (hmem : c ∈ t.children) :
    Inside u t := by
  cases t with
  | leaf value => cases hmem
  | node tag children location => exact .child hmem hinside

/-- What lies inside a part of a tree lies inside the tree. -/
theorem Inside.trans {u v t : Tree} (huv : Inside u v) (hvt : Inside v t) : Inside u t := by
  induction hvt with
  | self => exact huv
  | child hmem _ ih => exact .child hmem ih

/-- A child node lies inside the tree. -/
theorem inside_of_nodeAt? {t child : Tree} {index : Nat} (hchild : t.nodeAt? index = some child) :
    Inside child t := by
  obtain ⟨hindex, -⟩ := Option.filter_eq_some_iff.mp hchild
  exact (Inside.self child).of_child (List.mem_of_getElem? hindex)

/-- What a path leads to lies inside the tree. -/
theorem inside_of_dig? {t found : Tree} {path : List Nat} (hdig : t.dig? path = some found) :
    Inside found t := by
  induction path generalizing t with
  | nil =>
    obtain rfl := Option.some.inj hdig
    exact .self t
  | cons index path ih =>
    obtain ⟨child, hchild, hfound⟩ := Option.bind_eq_some_iff.mp hdig
    exact (ih hfound).trans (inside_of_nodeAt? hchild)

/-- The receiver of a call lies inside it. -/
theorem inside_of_receiver {t receiver : Tree} {method : String} {args : List Tree}
    (hcall : t.call? = some ⟨some receiver, method, args⟩) : Inside receiver t := by
  obtain ⟨first, hchildren, hfirst⟩ := children_of_call? hcall
  obtain rfl := eq_of_receiver? hfirst
  exact (Inside.self _).of_child (hchildren ▸ List.mem_cons_self)

/-- Both operands lie inside a binary call. -/
theorem inside_of_binaryCall? {t left right : Tree} {method : String}
    (hcall : t.binaryCall? = some (left, method, right)) : Inside left t ∧ Inside right t := by
  obtain ⟨tag, location, -, rfl⟩ := eq_of_binaryCall? hcall
  exact ⟨.child (by simp) (.self left), .child (by simp) (.self right)⟩

/-- The tree is a node, and it lies inside another one. -/
structure NodeInside (u t : Tree) : Prop where
  isNode : u.isNode = true
  inside : Inside u t

/-- A child node of a node inside the tree is one. -/
theorem NodeInside.of_nodeAt? {u t child : Tree} {index : Nat} (hu : NodeInside u t)
    (hchild : u.nodeAt? index = some child) : NodeInside child t where
  isNode := (Option.filter_eq_some_iff.mp hchild).2
  inside := (inside_of_nodeAt? hchild).trans hu.inside

/-- Only inside nodes are there other trees. -/
theorem NodeInside.isNode_around {u t : Tree} (hu : NodeInside u t) : t.isNode = true := by
  obtain ⟨hnode, hinside⟩ := hu
  cases hinside with
  | self => exact hnode
  | child => rfl

/-- Some node inside the tree has this place. -/
def HasPlace (t : Tree) (place : Option Span) : Prop :=
  ∃ u, NodeInside u t ∧ u.location = place

/-- The tree has the places of the nodes inside it. -/
theorem NodeInside.hasPlace {u t : Tree} (hu : NodeInside u t) : t.HasPlace u.location :=
  ⟨u, hu, rfl⟩

/-- Of two places the first one counts, unless it is missing. -/
theorem HasPlace.or {t : Tree} {first second : Option Span} (hfirst : t.HasPlace first)
    (hsecond : t.HasPlace second) : t.HasPlace (first.or second) := by
  cases first with
  | none => exact hsecond
  | some span => exact hfirst

variable {P : Tree → Prop} {tag : String} {children : List Tree} {location : Option Span}

/-- A property of all trees inside a leaf is one of the leaf. -/
theorem forall_inside_leaf {value : Scalar} :
    (∀ u, Inside u (leaf value) → P u) ↔ P (leaf value) := by
  constructor
  · exact fun hall => hall _ (.self _)
  · intro hleaf u hinside
    cases hinside
    exact hleaf

/-- A property of all trees inside a node is one of the node and of all trees inside its
children. -/
theorem forall_inside_node :
    (∀ u, Inside u (node tag children location) → P u) ↔
      P (node tag children location) ∧ ∀ c ∈ children, ∀ u, Inside u c → P u := by
  constructor
  · exact fun hall => ⟨hall _ (.self _), fun c hmem u hinside => hall u (.child hmem hinside)⟩
  · rintro ⟨hnode, hchildren⟩ u hinside
    cases hinside with
    | self => exact hnode
    | child hmem hinside => exact hchildren _ hmem u hinside

mutual

/-- What can be decided of one tree can be decided of all trees inside a tree. -/
def decideInside (P : Tree → Prop) [DecidablePred P] : (t : Tree) →
    Decidable (∀ u, Inside u t → P u)
  | leaf value => decidable_of_iff (P (leaf value)) forall_inside_leaf.symm
  | node _ children _ =>
    letI := decideInsideAll P children
    decidable_of_iff _ forall_inside_node.symm

/-- And of all trees inside the trees of a list. -/
def decideInsideAll (P : Tree → Prop) [DecidablePred P] : (trees : List Tree) →
    Decidable (∀ c ∈ trees, ∀ u, Inside u c → P u)
  | [] => isTrue (List.forall_mem_nil _)
  | t :: rest =>
    letI := decideInside P t
    letI := decideInsideAll P rest
    decidable_of_iff _ List.forall_mem_cons.symm

end

end PhasedTests.Tree
