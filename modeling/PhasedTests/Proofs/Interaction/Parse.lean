import PhasedTests.Interaction.Basic
import PhasedTests.Proofs.Ir.View
import PhasedTests.Proofs.Outcome

/-!
# Parsed interactions

A cardinality that was resolved has a written form that is resolved to the same cardinality. So an
interaction, once parsed, holds everything that its mock expectation asks for; any other statement
is handed back as it is.
-/

namespace PhasedTests

namespace Tree

/-- Only nodes have tags. -/
theorem isNode_of_tagIn {t : Tree} {tags : List String} (htag : t.tagIn tags = true) :
    t.isNode = true := by
  unfold tagIn at htag
  rw [Bool.and_eq_true] at htag
  exact htag.1

/-- Any node is the receiver of a call on it. -/
theorem receiver?_of_isNode {t : Tree} (hnode : t.isNode = true) : t.receiver? = some (some t) := by
  cases t with
  | leaf value => cases hnode
  | node tag children location => rfl

/-- The receiver of a call is a node. -/
theorem isNode_of_receiver? {t receiver : Tree} (hread : t.receiver? = some (some receiver)) :
    receiver.isNode = true := by
  cases t with
  | leaf value => cases value <;> cases hread
  | node tag children location =>
    obtain rfl := Option.some.inj (Option.some.inj hread)
    rfl

/-- The receiver that a call has is a node. -/
theorem isNode_of_call? {t receiver : Tree} {method : String} {args : List Tree}
    (hcall : t.call? = some ⟨some receiver, method, args⟩) : receiver.isNode = true := by
  obtain ⟨_, -, hread⟩ := children_of_call? hcall
  exact isNode_of_receiver? hread

/-- Both operands of a binary call are nodes. -/
theorem isNode_of_binaryCall? {t left right : Tree} {method : String}
    (hcall : t.binaryCall? = some (left, method, right)) :
    left.isNode = true ∧ right.isNode = true := by
  unfold binaryCall? at hcall
  split at hcall
  · rename_i hfound
    split at hcall
    · rename_i hright
      obtain ⟨rfl, rfl, rfl⟩ : _ = left ∧ _ = method ∧ _ = right := by simpa using hcall
      exact ⟨isNode_of_call? hfound, hright⟩
    · cases hcall
  · cases hcall

end Tree

/-- The bounds that a range may hold once it is resolved: any, or one of the allowed nodes. -/
def Bound.Proper : Bound → Prop
  | .any => True
  | .value bound => bound.isWildcard = false ∧ bound.tagIn boundTags = true

namespace Cardinality

private theorem proper_of_boundAt {range : Tree} {index : Nat} {which : String} {bound : Bound}
    (hbound : boundAt range index which = .ok bound) : bound.Proper := by
  unfold boundAt at hbound
  split at hbound
  · split at hbound
    · rename_i found _ hallowed
      rw [← Except.ok.inj hbound]
      unfold Bound.ofTree
      split
      · trivial
      · rename_i hwildcard
        rw [Bool.not_eq_true] at hwildcard
        rw [hwildcard, Bool.false_or] at hallowed
        exact ⟨hwildcard, hallowed⟩
    · cases hbound
  · cases hbound

/-- The bound one below an allowed bound is a call on it, which is allowed too. -/
private theorem proper_pred {bound : Bound} (hproper : bound.Proper) : bound.pred.Proper := by
  cases bound with
  | any => trivial
  | value bound =>
    have hnode := Tree.isNode_of_tagIn hproper.2
    have hcall : (Tree.Build.call (some bound) "-" [Tree.Build.int 1]).call? =
        some ⟨some bound, "-", [Tree.Build.int 1]⟩ := by
      unfold Tree.Build.call Tree.Build.fresh Tree.call?
      simp [Tree.Build.optional, Tree.receiver?_of_isNode hnode]
    refine ⟨?_, rfl⟩
    unfold Tree.isWildcard Tree.bareCall?
    rw [hcall]
    rfl

private theorem isNode_toTree_bound {bound : Bound} (hproper : bound.Proper) :
    bound.toTree.isNode = true := by
  cases bound with
  | any => rfl
  | value bound => exact Tree.isNode_of_tagIn hproper.2

private theorem boundAt_toTree {range : Tree} {index : Nat} {which : String} {bound : Bound}
    (hproper : bound.Proper) (hfound : range.nodeAt? index = some bound.toTree) :
    boundAt range index which = .ok bound := by
  unfold boundAt
  rw [hfound]
  cases bound with
  | any => rfl
  | value bound =>
    change (if (bound.isWildcard || bound.tagIn boundTags) = true then
      Except.ok (Bound.ofTree bound) else _) = _
    rw [if_pos (by rw [hproper.2, Bool.or_true])]
    unfold Bound.ofTree
    rw [if_neg (by rw [hproper.1]; decide)]

/-- A cardinality is resolved from `_`, from a count, or from a range with two bounds, of which the
upper one is lowered where the range leaves it out. -/
theorem resolve_cases {t : Tree} {cardinality : Cardinality}
    (hresolved : resolve t = .ok cardinality) :
    (t.isWildcard = true ∧ cardinality = .any) ∨
    (t.isWildcard = false ∧ t.tagIn boundTags = true ∧ cardinality = .exact t) ∨
    ∃ found lower upper, range? t = some found ∧ boundAt found 0 "Minimum" = .ok lower ∧
      boundAt found 1 "Maximum" = .ok upper ∧
      cardinality = .range lower (if found.hasTag "erange" then upper.pred else upper) := by
  unfold resolve at hresolved
  split at hresolved
  · rename_i hwildcard
    exact Or.inl ⟨hwildcard, (Except.ok.inj hresolved).symm⟩
  · rename_i hwildcard
    split at hresolved
    · rename_i hcount
      exact Or.inr (Or.inl ⟨Bool.eq_false_iff.mpr hwildcard, hcount,
        (Except.ok.inj hresolved).symm⟩)
    · split at hresolved
      · cases hresolved
      · rename_i found hrange
        obtain ⟨lower, hlower, hresolved⟩ := ok_of_bind hresolved
        obtain ⟨upper, hupper, hresolved⟩ := ok_of_bind hresolved
        exact Or.inr (Or.inr ⟨found, lower, upper, hrange, hlower, hupper,
          (Except.ok.inj hresolved).symm⟩)

/-- The written form of a resolved cardinality is a node and resolved to the same cardinality. -/
theorem resolve_toTree {t : Tree} {cardinality : Cardinality}
    (hresolved : resolve t = .ok cardinality) :
    cardinality.toTree.isNode = true ∧ resolve cardinality.toTree = .ok cardinality := by
  rcases resolve_cases hresolved with
    ⟨-, rfl⟩ | ⟨-, hcount, rfl⟩ | ⟨found, lower, upper, -, hlower, hupper, hrange⟩
  · exact ⟨rfl, rfl⟩
  · exact ⟨Tree.isNode_of_tagIn hcount, hresolved⟩
  · have hfirst := proper_of_boundAt hlower
    have hlast := proper_of_boundAt hupper
    generalize hinclusive :
      (if found.hasTag "erange" = true then upper.pred else upper) = bound at hrange
    have hbound : bound.Proper := by
      rw [← hinclusive]
      split
      · exact proper_pred hlast
      · exact hlast
    rw [hrange]
    refine ⟨rfl, ?_⟩
    have hzero := @Tree.nodeAt?_zero "irange" lower.toTree [bound.toTree] none
      (isNode_toTree_bound hfirst)
    have hone := @Tree.nodeAt?_zero "irange" bound.toTree [] none (isNode_toTree_bound hbound)
    rw [← Tree.nodeAt?_succ "irange" lower.toTree] at hone
    change (boundAt (.node "irange" [lower.toTree, bound.toTree] none) 0 "Minimum" >>=
      fun low => boundAt (.node "irange" [lower.toTree, bound.toTree] none) 1 "Maximum" >>=
        fun high => pure (range low high)) = _
    rw [boundAt_toTree hfirst hzero, boundAt_toTree hbound hone]
    rfl

end Cardinality

namespace Interaction

/-- The answer that stands for an outcome is a node. -/
theorem isNode_outcomeOf (t : Tree) : (outcomeOf t).isNode = true := by
  unfold outcomeOf
  dsimp only
  split <;> rfl

private theorem mem_splitBlockPass {args : List Tree} {t : Tree}
    (hmem : t ∈ (splitBlockPass args).1) : t ∈ args := by
  induction args with
  | nil => cases hmem
  | cons first rest ih =>
    unfold splitBlockPass at hmem
    split at hmem
    · rw [← Option.some.inj hmem]
      exact List.mem_cons_self
    · exact List.mem_cons_of_mem _ (ih hmem)

/-- If its right-hand side is a call on a receiver, an interaction is built as soon as its left-hand
side is a cardinality. -/
theorem build_of_call {rhs receiver : Tree} {message : String} {args : List Tree}
    (hcall : rhs.call? = some ⟨some receiver, message, args⟩) (cardinality : Tree)
    (outcome : Option Tree) :
    build cardinality rhs outcome =
      (Cardinality.resolve cardinality).map fun count => some (Ir.InteractionView.build
        { cardinality := count.toTree
          receiver := receiver
          message := message
          args := if (splitBlockPass (Tree.nodesOf args)).2.isEmpty then none
            else some (Tree.Build.array (splitBlockPass (Tree.nodesOf args)).2)
          outcome := outcome.map outcomeOf
          blockPass := (splitBlockPass (Tree.nodesOf args)).1 }) := by
  have hinline : rhs.hasTag "block" = false := by
    unfold Tree.hasTag
    rcases Tree.tag_of_call? hcall with htag | htag <;> rw [htag, Bool.and_eq_false_iff] <;>
      exact Or.inr rfl
  unfold build
  rw [hinline, hcall]
  simp only [Bool.false_eq_true, ↓reduceIte]
  cases Cardinality.resolve cardinality <;> rfl

/-- A built interaction has all of its parts, and its cardinality is the one that was written. -/
theorem of_build {cardinality rhs built : Tree} {outcome : Option Tree}
    (hdone : build cardinality rhs outcome = .ok (some built)) :
    ∃ (view : Ir.InteractionView) (count : Cardinality), view.Proper ∧
      Cardinality.resolve cardinality = .ok count ∧ view.cardinality = count.toTree ∧
      built = view.build := by
  have hinline : rhs.hasTag "block" = false := by
    rw [Bool.eq_false_iff]
    intro hinline
    unfold build at hdone
    rw [hinline] at hdone
    cases hdone
  unfold build at hdone
  rw [hinline] at hdone
  simp only [Bool.false_eq_true, ↓reduceIte] at hdone
  split at hdone
  · cases hdone
  · cases hdone
  · rename_i receiver message args hcall
    obtain ⟨count, hcount, hdone⟩ := ok_of_bind hdone
    refine ⟨_, count, ?_, hcount, rfl, (Option.some.inj (Except.ok.inj hdone)).symm⟩
    constructor
    · exact (Cardinality.resolve_toTree hcount).1
    · exact Tree.isNode_of_call? hcall
    · intro t ht
      dsimp only at ht
      split at ht
      · cases ht
      · rw [← Option.some.inj ht]
        rfl
    · intro t ht
      obtain ⟨_, -, rfl⟩ := Option.map_eq_some_iff.mp ht
      exact isNode_outcomeOf _
    · intro t ht
      exact (List.mem_filter.mp (mem_splitBlockPass ht)).2

/-- An interaction is handed back, or parsed into a view whose cardinality is the one on the left of
its expectation. -/
theorem operands_of_parse {t parsed : Tree} (hdone : parse t = .ok parsed) :
    parsed = t ∨ ∃ (view : Ir.InteractionView) (operands : Tree × String × Tree)
      (count : Cardinality), view.Proper ∧ (parts t).1.binaryCall? = some operands ∧
      Cardinality.resolve operands.1 = .ok count ∧ view.cardinality = count.toTree ∧
      parsed = view.build.located t.location := by
  unfold parse at hdone
  split at hdone
  · dsimp only at hdone
    split at hdone
    · rename_i cardinality method rhs hoperands
      obtain ⟨built, hbuilt, hdone⟩ := ok_of_bind hdone
      cases built with
      | none => exact Or.inl (Except.ok.inj hdone).symm
      | some built =>
        obtain ⟨view, count, hproper, hcount, hwritten, rfl⟩ := of_build hbuilt
        exact Or.inr ⟨view, _, count, hproper, hoperands, hcount, hwritten,
          (Except.ok.inj hdone).symm⟩
    · exact Or.inl (Except.ok.inj hdone).symm
  · exact Or.inl (Except.ok.inj hdone).symm

/-- An interaction is parsed into its view, at its place, or handed back. -/
theorem parse_cases {t parsed : Tree} (hdone : parse t = .ok parsed) :
    parsed = t ∨ ∃ view : Ir.InteractionView, view.Proper ∧
      (∃ count, Cardinality.resolve view.cardinality = .ok count) ∧
      parsed = view.build.located t.location := by
  rcases operands_of_parse hdone with
    hsame | ⟨view, _, count, hproper, -, hcount, hwritten, hparsed⟩
  · exact Or.inl hsame
  · have hagain := (Cardinality.resolve_toTree hcount).2
    rw [← hwritten] at hagain
    exact Or.inr ⟨view, hproper, ⟨count, hagain⟩, hparsed⟩

end Interaction

end PhasedTests
