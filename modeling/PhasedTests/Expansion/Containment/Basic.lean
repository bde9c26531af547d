import PhasedTests.Expansion.Target
import PhasedTests.Generate.Locals

/-!
# What generated trees contain

Everything that the expansion of a test generates is put together from parts of the test. So
whatever can be counted or collected on trees, and is neither raised by generated nodes nor by
taking parts, is not raised by the expansion either. `Containment` states what such a comparison of
trees has to obey; the lemmas of this folder follow it through reading a test and generating its
method. `Assembly` asks less, which is enough for the body of a method: there is no test block and
no annotation among the nodes generated for it.
-/

namespace PhasedTests

open Tree.Build

/-- The tags of the nodes other than blocks and calls that the expansion makes, in parsed tests and
in methods. -/
def plainTags : List String :=
  ["ps_test", "ps_def", "ps_body", "ps_given", "ps_when", "ps_then", "ps_expect", "ps_cleanup",
   "ps_where", "ps_where_header", "ps_interaction", "ps_binary_statement", "ps_statement",
   "ps_raises", "ps_returns", "ps_stub_raises", "begin", "kwbegin", "ensure", "args", "mlhs", "arg",
   "lvasgn", "lvar", "const", "array", "irange", "sym", "str", "dstr", "int", "true",
   "false", "nil"]

/-- The tags of all nodes that the expansion makes. -/
def generatedTags : List String :=
  "block" :: "send" :: plainTags

/-- The place `l` is none, or that of a tree that is compared with `t`. -/
def PlaceWithin (R : Tree → Tree → Prop) (l : Option Span) (t : Tree) : Prop :=
  ∀ span, l = some span → ∃ u, R u t ∧ u.location = some span

/-- A comparison of trees under which a tree holds all of its parts, a generated node that is no
test block and no annotation holds no more than its children and its place do, and reading calls as
locals adds nothing. -/
structure Assembly (R : Tree → Tree → Prop) : Prop where
  refl (t : Tree) : R t t
  trans {a b c : Tree} (hfirst : R a b) (hsecond : R b c) : R a c
  leaf (value : Scalar) (t : Tree) : R (.leaf value) t
  child {tag : String} {children : List Tree} {location : Option Span} {c : Tree}
    (hmem : c ∈ children) : R c (.node tag children location)
  generated {tag : String} {children : List Tree} {location : Option Span} {t : Tree}
    (hknown : plainTags.contains tag = true) (hparts : ∀ c ∈ children, R c t)
    (hplace : PlaceWithin R location t) : R (.node tag children location) t
  call {receiver : Option Tree} {method : String} {args : List Tree} {t : Tree}
    (hother : method ≠ "transform!") (hreceives : ∀ r ∈ receiver, R r t)
    (hparts : ∀ a ∈ args, R a t) : R (Tree.Build.call receiver method args) t
  block {head params body t : Tree}
    (hother : ∀ call, head.call? = some call → call.method ≠ "test") (hhead : R head t)
    (hparams : R params t) (hbody : R body t) :
    R (Tree.Build.fresh "block" [head, params, body]) t
  moved {a t : Tree} {location : Option Span} (hpart : R a t)
    (hplace : PlaceWithin R location t) : R (a.located location) t
  locals (names : List String) (t : Tree) : R (Generate.callsToLocals names t) t

/-- A comparison of trees under which a tree holds all of its parts, a generated node holds no more
than its children and its place do, and a node whose children are exchanged for lesser ones is a
lesser node. Generated nodes have one of a few tags, and no target of annotations is among them. -/
structure Containment (R : Tree → Tree → Prop) : Prop where
  refl (t : Tree) : R t t
  trans {a b c : Tree} (hfirst : R a b) (hsecond : R b c) : R a c
  leaf (value : Scalar) (t : Tree) : R (.leaf value) t
  child {tag : String} {children : List Tree} {location : Option Span} {c : Tree}
    (hmem : c ∈ children) : R c (.node tag children location)
  generated {tag : String} {children : List Tree} {location : Option Span} {t : Tree}
    (hknown : generatedTags.contains tag = true) (hparts : ∀ c ∈ children, R c t)
    (hplace : PlaceWithin R location t) : R (.node tag children location) t
  moved {a t : Tree} {location : Option Span} (hpart : R a t)
    (hplace : PlaceWithin R location t) : R (a.located location) t
  exchanged {tag : String} {children others : List Tree} {location : Option Span}
    (hlesser : ∀ c ∈ others, ∃ d ∈ children, R c d) :
    R (.node tag others location) (.node tag children location)

/-- What holds of leaves, of the receiver and of the arguments holds of all children of a call. -/
theorem Tree.Build.forall_children_call {P : Tree → Prop} {receiver : Option Tree} {method : String}
    {args : List Tree} (hleaf : ∀ value, P (.leaf value)) (hreceives : ∀ r ∈ receiver, P r)
    (hparts : ∀ a ∈ args, P a) : ∀ c ∈ (call receiver method args).children, P c := by
  intro c hmem
  rcases List.mem_cons.mp hmem with rfl | hmem
  · cases receiver with
    | none => exact hleaf .nil
    | some r => exact hreceives r rfl
  · rcases List.mem_cons.mp hmem with rfl | hmem
    · exact hleaf (.symbol method)
    · exact hparts c hmem

section

variable {R : Tree → Tree → Prop} {t u : Tree}

/-- A missing place lies within every tree. -/
theorem placeWithin_none : PlaceWithin R none t := by
  simp [PlaceWithin]

/-- The place of a part lies within the tree. -/
theorem placeWithin_location (hpart : R u t) : PlaceWithin R u.location t :=
  fun _ hplace => ⟨u, hpart, hplace⟩

end

namespace Containment

variable {R : Tree → Tree → Prop}

mutual

/-- Reading calls as locals makes a tree of parts of it. -/
theorem callsToLocals (K : Containment R) (names : List String) :
    ∀ t, R (Generate.callsToLocals names t) t
  | .leaf value => K.leaf value _
  | .node tag children location => by
    unfold Generate.callsToLocals
    split
    · exact K.generated (by decide) (by simpa using K.leaf _ _)
        fun _ hplace => ⟨_, K.refl _, hplace⟩
    · exact K.exchanged (callsToLocalsAll K names children)

/-- So it does with every tree of a list. -/
theorem callsToLocalsAll (K : Containment R) (names : List String) :
    ∀ trees, ∀ c ∈ Generate.callsToLocalsAll names trees, ∃ d ∈ trees, R c d
  | [], c, hmem => by simp [Generate.callsToLocalsAll] at hmem
  | t :: rest, c, hmem => by
    unfold Generate.callsToLocalsAll at hmem
    rcases List.mem_cons.mp hmem with rfl | hmem
    · exact ⟨t, by simp, callsToLocals K names t⟩
    · obtain ⟨d, hd, hlesser⟩ := callsToLocalsAll K names rest c hmem
      exact ⟨d, by simp [hd], hlesser⟩

end

/-- What holds of all generated nodes holds of those that are no test blocks and no annotations. -/
theorem assembly (K : Containment R) : Assembly R where
  refl := K.refl
  trans := K.trans
  leaf := K.leaf
  child := K.child
  generated hknown hparts hplace := by
    refine K.generated ?_ hparts hplace
    rw [generatedTags, List.contains_cons, List.contains_cons, hknown, Bool.or_true, Bool.or_true]
  call {_ _ _ t} _ hreceives hparts :=
    K.generated (by decide) (forall_children_call (fun value => K.leaf value t) hreceives hparts)
      placeWithin_none
  block _ hhead hparams hbody :=
    K.generated (by decide) (by simpa using ⟨hhead, hparams, hbody⟩) placeWithin_none
  moved := K.moved
  locals := K.callsToLocals

end Containment

namespace Assembly

variable {R : Tree → Tree → Prop} {t u : Tree}

/-- A node holds its own place. -/
theorem placeWithin_node (K : Assembly R) {tag : String} {children : List Tree}
    {location : Option Span} : PlaceWithin R location (.node tag children location) :=
  fun _ hplace => ⟨_, K.refl _, hplace⟩

/-! ## Parts of a tree -/

/-- The children of a tree are parts of it. -/
theorem of_mem_children (K : Assembly R) {c : Tree} (hmem : c ∈ t.children) : R c t := by
  cases t with
  | leaf => simp [Tree.children] at hmem
  | node tag children location => exact K.child hmem

/-- The child nodes of a tree are parts of it. -/
theorem of_mem_childNodes (K : Assembly R) {c : Tree} (hmem : c ∈ t.childNodes) : R c t :=
  K.of_mem_children (List.mem_filter.mp hmem).1

/-- A child at an index is a part of the tree. -/
theorem of_getElem? (K : Assembly R) {i : Nat} {c : Tree} (hfound : t.children[i]? = some c) :
    R c t :=
  K.of_mem_children (List.mem_of_getElem? hfound)

/-- A child node at an index is a part of the tree. -/
theorem of_nodeAt? (K : Assembly R) {i : Nat} {c : Tree} (hfound : t.nodeAt? i = some c) :
    R c t :=
  K.of_getElem? (Option.filter_eq_some_iff.mp hfound).1

/-- The receiver of a call is a part of the call. -/
theorem of_receiver (K : Assembly R) {call : Call} {receiver : Tree}
    (hfound : t.call? = some call) (hreceives : call.receiver = some receiver) : R receiver t := by
  obtain ⟨first, hchildren, hread⟩ := Tree.children_of_call? hfound
  rw [hreceives] at hread
  obtain rfl := Tree.eq_of_receiver? hread
  exact K.of_mem_children (by simp [hchildren])

/-- The arguments of a call are parts of the call. -/
theorem of_mem_args (K : Assembly R) {call : Call} {arg : Tree}
    (hfound : t.call? = some call) (hmem : arg ∈ call.args) : R arg t := by
  obtain ⟨_, hchildren, _⟩ := Tree.children_of_call? hfound
  exact K.of_mem_children (by simp [hchildren, hmem])

/-- Both operands of a binary call are parts of the call. -/
theorem of_binaryCall? (K : Assembly R) {left right : Tree} {method : String}
    (hfound : t.binaryCall? = some (left, method, right)) : R left t ∧ R right t := by
  unfold Tree.binaryCall? at hfound
  split at hfound
  · rename_i hcall
    split at hfound
    · obtain ⟨rfl, rfl, rfl⟩ := by simpa using hfound
      exact ⟨K.of_receiver hcall rfl, K.of_mem_args hcall (by simp)⟩
    · cases hfound
  · cases hfound

/-! ## Generated nodes -/

/-- A new node of a plain kind is made of the parts that are its children. -/
theorem fresh (K : Assembly R) {tag : String} {children : List Tree}
    (hknown : plainTags.contains tag = true) (hparts : ∀ c ∈ children, R c t) :
    R (Tree.Build.fresh tag children) t :=
  K.generated hknown hparts placeWithin_none

/-- An optional part is a part or a leaf. -/
theorem optional (K : Assembly R) {part : Option Tree} (hwithin : ∀ c ∈ part, R c t) :
    R (Tree.Build.optional part) t := by
  cases part with
  | none => exact K.leaf _ _
  | some c => exact hwithin c rfl

/-- A call without receiver. -/
theorem bareCall (K : Assembly R) {method : String} {args : List Tree}
    (hother : method ≠ "transform!") (hparts : ∀ a ∈ args, R a t) :
    R (Tree.Build.call none method args) t :=
  K.call hother (by simp) hparts

/-- A call on a receiver. -/
theorem callOn (K : Assembly R) {receiver : Tree} {method : String} {args : List Tree}
    (hother : method ≠ "transform!") (hreceives : R receiver t) (hparts : ∀ a ∈ args, R a t) :
    R (Tree.Build.call (some receiver) method args) t :=
  K.call hother (by simpa using hreceives) hparts

/-- A node whose children are leaves. -/
theorem atom (K : Assembly R) {tag : String} {value : Scalar}
    (hknown : plainTags.contains tag = true) : R (Tree.Build.fresh tag [.leaf value]) t :=
  K.fresh hknown (by simpa using K.leaf value t)

/-- A symbol literal is made of no other part. -/
theorem sym (K : Assembly R) {name : String} : R (Tree.Build.sym name) t :=
  K.atom (by decide)

/-- A string literal is made of no other part. -/
theorem str (K : Assembly R) {value : String} : R (Tree.Build.str value) t :=
  K.atom (by decide)

/-- An integer literal is made of no other part. -/
theorem int (K : Assembly R) {value : Int64} : R (Tree.Build.int value) t :=
  K.atom (by decide)

/-- A read of a local is made of no other part. -/
theorem lvar (K : Assembly R) {name : String} : R (Tree.Build.lvar name) t :=
  K.atom (by decide)

/-- A parameter is made of no other part. -/
theorem arg (K : Assembly R) {name : String} : R (Tree.Build.arg name) t :=
  K.atom (by decide)

/-- An assignment to a local is made of its value. -/
theorem lvasgn (K : Assembly R) {name : String} {value : Tree} (hpart : R value t) :
    R (Tree.Build.lvasgn name value) t :=
  K.fresh (by decide) (by simpa using ⟨K.leaf _ _, hpart⟩)

/-- A sequence is made of its statements. -/
theorem begin (K : Assembly R) {statements : List Tree} (hparts : ∀ c ∈ statements, R c t) :
    R (Tree.Build.begin statements) t :=
  K.fresh (by decide) hparts

/-- An array is made of its values. -/
theorem array (K : Assembly R) {values : List Tree} (hparts : ∀ c ∈ values, R c t) :
    R (Tree.Build.array values) t :=
  K.fresh (by decide) hparts

end Assembly

/-- No generated node is a target of annotations. -/
theorem not_target_of_generated {tag : String} (hknown : generatedTags.contains tag = true) :
    targetTags.contains tag = false := by
  have hplain : ∀ tag ∈ generatedTags, targetTags.contains tag = false := by decide
  exact hplain tag (List.contains_iff_mem.mp hknown)

/-- The nesting of annotatable nodes compares trees by what they hold. -/
theorem containment_targetDepth : Containment fun a b => a.targetDepth ≤ b.targetDepth where
  refl _ := Nat.le_refl _
  trans := Nat.le_trans
  leaf _ _ := by simp [Tree.targetDepth]
  child hmem := by
    rw [Tree.targetDepth_node]
    exact Nat.le_trans (Tree.targetDepth_le_targetDepthAll hmem) (Nat.le_add_left _ _)
  generated hknown hparts _ := by
    rw [Tree.targetDepth_node, not_target_of_generated hknown]
    simpa using Tree.targetDepthAll_le hparts
  moved {a} _ _ hpart _ := by
    cases a with
    | leaf => exact hpart
    | node => simpa only [Tree.located, Tree.targetDepth] using hpart
  exchanged hlesser := by
    rw [Tree.targetDepth_node, Tree.targetDepth_node]
    refine Nat.add_le_add_left (Tree.targetDepthAll_le fun c hmem => ?_) _
    obtain ⟨d, hd, hle⟩ := hlesser c hmem
    exact Nat.le_trans hle (Tree.targetDepth_le_targetDepthAll hd)

end PhasedTests
