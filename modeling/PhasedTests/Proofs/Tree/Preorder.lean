import Mathlib.Data.List.Lex
import PhasedTests.Proofs.Tree.Shape

/-!
# Pre-order

The walk over a tree meets exactly the nodes that paths lead to, each at its path, in the order of
the paths: a path comes before its extensions, and a smaller index before a larger one. So whatever
is searched for along the walk is found at the first path that leads to it. Among these searches
are the one for an equal node and, along a single path, the one for the deepest node.
-/

namespace PhasedTests.Tree

mutual

/-- Nodes are met in the order of their paths. -/
theorem pairwise_walk : (t : Tree) → t.walk.Pairwise fun a b => a.1 < b.1
  | leaf _ => .nil
  | node tag children location => by
    refine List.pairwise_cons.mpr ⟨fun entry hmem => ?_, pairwise_walkAll children 0⟩
    obtain ⟨index, path, _, hpath, -⟩ := dig?_of_mem_walkAll children 0 entry hmem
    rw [hpath]
    exact List.nil_lt_cons _ _

private theorem pairwise_walkAll : (trees : List Tree) → (first : Nat) →
    (walkAll first trees).Pairwise fun a b => a.1 < b.1
  | [], _ => .nil
  | t :: rest, first => by
    have hfirst : (t.walk.map fun entry => (first :: entry.1, entry.2)).Pairwise
        fun a b => a.1 < b.1 := by
      refine List.pairwise_map.mpr ((pairwise_walk t).imp fun hbefore => ?_)
      exact List.cons_lt_cons_iff.mpr (.inr ⟨rfl, hbefore⟩)
    refine List.pairwise_append.mpr ⟨hfirst, pairwise_walkAll rest (first + 1), ?_⟩
    intro a ha b hb
    obtain ⟨entry, -, rfl⟩ := List.mem_map.mp ha
    obtain ⟨index, path, _, hpath, -⟩ := dig?_of_mem_walkAll rest (first + 1) b hb
    rw [hpath]
    exact List.cons_lt_cons_iff.mpr (.inl (by omega))

end

private theorem mem_walkAll {trees : List Tree} {child u : Tree} {path : List Nat} {index : Nat}
    (hchild : trees[index]? = some child) (hmem : (path, u) ∈ child.walk) (first : Nat) :
    ((first + index) :: path, u) ∈ walkAll first trees := by
  induction trees generalizing index first with
  | nil => cases hchild
  | cons t rest ih =>
    cases index with
    | zero =>
      obtain rfl : t = child := Option.some.inj hchild
      exact List.mem_append_left _ (List.mem_map.mpr ⟨_, hmem, rfl⟩)
    | succ index =>
      have hrest := ih hchild (first + 1)
      rw [Nat.add_assoc, Nat.add_comm 1 index] at hrest
      exact List.mem_append_right _ hrest

/-- Exactly the nodes that paths lead to are met. -/
theorem mem_walk_iff {t u : Tree} {path : List Nat} :
    (path, u) ∈ t.walk ↔ t.dig? path = some u ∧ u.isNode = true := by
  constructor
  · intro hmem
    have hdig := dig?_of_mem_walk t _ hmem
    exact ⟨hdig, isNode_of_dig? (isNode_of_mem_walk hmem) hdig⟩
  · rintro ⟨hdig, hnode⟩
    induction path generalizing t with
    | nil =>
      obtain rfl := Option.some.inj hdig
      cases t with
      | leaf value => cases hnode
      | node tag children location => exact List.mem_cons_self
    | cons index path ih =>
      obtain ⟨child, hchild, hfound⟩ := Option.bind_eq_some_iff.mp hdig
      obtain ⟨hindex, -⟩ := Option.filter_eq_some_iff.mp hchild
      cases t with
      | leaf value => cases hindex
      | node tag children location =>
        have hmem := mem_walkAll hindex (ih hfound) 0
        rw [Nat.zero_add] at hmem
        exact List.mem_cons_of_mem _ hmem

/-- A search along the walk finds what the first path to anything leads to. -/
theorem findSome?_walk {α : Type} {t : Tree} {answer : List Nat × Tree → Option α} {found : α} :
    t.walk.findSome? answer = some found ↔ ∃ path u, (path, u) ∈ t.walk ∧
      answer (path, u) = some found ∧
      ∀ earlier < path, ∀ v, (earlier, v) ∈ t.walk → answer (earlier, v) = none := by
  have hordered := pairwise_walk t
  constructor
  · intro hfound
    obtain ⟨before, ⟨path, u⟩, after, hwalk, hanswer, hbefore⟩ :=
      List.findSome?_eq_some_iff.mp hfound
    rw [hwalk] at hordered ⊢
    refine ⟨path, u, List.mem_append_right _ List.mem_cons_self, hanswer, ?_⟩
    intro earlier hearlier v hmem
    rcases List.mem_append.mp hmem with hmem | hmem
    · exact hbefore _ hmem
    · -- what is met later has a later path
      exfalso
      rcases List.mem_cons.mp hmem with hsame | hmem
      · rw [(Prod.mk.inj hsame).1] at hearlier
        exact lt_irrefl _ hearlier
      · have hafter := (List.pairwise_cons.mp (List.pairwise_append.mp hordered).2.1).1 _ hmem
        exact lt_asymm hearlier hafter
  · rintro ⟨path, u, hmem, hanswer, hfirst⟩
    obtain ⟨before, after, hwalk⟩ := List.append_of_mem hmem
    refine List.findSome?_eq_some_iff.mpr ⟨before, (path, u), after, hwalk, hanswer, ?_⟩
    intro entry hentry
    rw [hwalk] at hordered
    have hbefore := (List.pairwise_append.mp hordered).2.2 entry hentry _ List.mem_cons_self
    exact hfirst entry.1 hbefore entry.2 (hwalk ▸ List.mem_append_left _ hentry)

/-! ## Equal nodes -/

/-- The first equal node at or below a node: no earlier path leads to an equal one. -/
def FirstEqual (target t found : Tree) : Prop :=
  ∃ path, t.dig? path = some found ∧ (found == target) = true ∧
    ∀ earlier < path, ∀ other, t.dig? earlier = some other → (other == target) = false

mutual

private theorem findEqual?_eq_findSome? (target : Tree) : (t : Tree) →
    findEqual? target t =
      t.walk.findSome? fun entry => if entry.2 == target then some entry.2 else none
  | leaf _ => rfl
  | node tag children location => by
    rw [findEqual?, walk, List.findSome?_cons, findEqualAll?_eq_findSome? target children 0]
    split <;> rfl

private theorem findEqualAll?_eq_findSome? (target : Tree) : (trees : List Tree) → (first : Nat) →
    findEqualAll? target trees =
      (walkAll first trees).findSome? fun entry => if entry.2 == target then some entry.2 else none
  | [], _ => rfl
  | t :: rest, first => by
    rw [findEqualAll?, walkAll, List.findSome?_append, List.findSome?_map,
      findEqual?_eq_findSome? target t, findEqualAll?_eq_findSome? target rest (first + 1)]
    rfl

end

/-- The search for an equal node finds the first one. -/
theorem findEqual?_eq_some_iff {target t found : Tree} (hnode : t.isNode = true) :
    findEqual? target t = some found ↔ FirstEqual target t found := by
  rw [findEqual?_eq_findSome?, findSome?_walk]
  constructor
  · rintro ⟨path, u, hmem, hanswer, hfirst⟩
    dsimp only at hanswer
    split at hanswer
    · rename_i hsame
      obtain rfl := Option.some.inj hanswer
      refine ⟨path, (mem_walk_iff.mp hmem).1, hsame, fun earlier hearlier other hdig => ?_⟩
      have hother := hfirst earlier hearlier other
        (mem_walk_iff.mpr ⟨hdig, isNode_of_dig? hnode hdig⟩)
      simpa using hother
    · cases hanswer
  · rintro ⟨path, hdig, hsame, hfirst⟩
    refine ⟨path, found, mem_walk_iff.mpr ⟨hdig, isNode_of_dig? hnode hdig⟩, if_pos hsame, ?_⟩
    intro earlier hearlier other hmem
    exact if_neg (by rw [hfirst earlier hearlier other (mem_walk_iff.mp hmem).1]; decide)

/-! ## The deepest node along a path -/

/-- The longest part of a path, from its start on, that leads to a node. -/
structure Reaches (t : Tree) (path reached : List Nat) (found : Tree) : Prop where
  part : reached <+: path
  dig : t.dig? reached = some found
  longest : ∀ other, other <+: path → (t.dig? other).isSome = true → other.length ≤ reached.length

/-- The deepest tree that a path reaches is reached by it. -/
theorem reaches_deepest (t : Tree) (path : List Nat) :
    ∃ reached, t.Reaches path reached (t.deepest path).2 ∧
      reached.length = (t.deepest path).1 := by
  induction path generalizing t with
  | nil => exact ⟨[], ⟨List.prefix_rfl, rfl, fun other hpart _ => hpart.length_le⟩, rfl⟩
  | cons index path ih =>
    cases hchild : t.nodeAt? index with
    | none =>
      have hdeepest : t.deepest (index :: path) = (0, t) := by
        rw [deepest, hchild]
      rw [hdeepest]
      refine ⟨[], ⟨List.nil_prefix, rfl, fun other hpart hsome => ?_⟩, rfl⟩
      cases other with
      | nil => exact Nat.le_refl _
      | cons first rest =>
        obtain ⟨rfl, -⟩ := List.cons_prefix_cons.mp hpart
        rw [dig?, hchild] at hsome
        cases hsome
    | some child =>
      have hdeepest : t.deepest (index :: path) =
          ((child.deepest path).1 + 1, (child.deepest path).2) := by
        rw [deepest, hchild]
      obtain ⟨reached, hreaches, hlength⟩ := ih child
      rw [hdeepest]
      refine ⟨index :: reached, ⟨?_, ?_, fun other hpart hsome => ?_⟩, ?_⟩
      · exact List.cons_prefix_cons.mpr ⟨rfl, hreaches.part⟩
      · rw [dig?, hchild, Option.bind_some, hreaches.dig]
      · cases other with
        | nil => exact Nat.zero_le _
        | cons first rest =>
          obtain ⟨rfl, hrest⟩ := List.cons_prefix_cons.mp hpart
          rw [dig?, hchild, Option.bind_some] at hsome
          exact Nat.succ_le_succ (hreaches.longest rest hrest hsome)
      · rw [List.length_cons, hlength]

/-- A path reaches one tree. -/
theorem Reaches.unique {t first second : Tree} {path reached other : List Nat}
    (hfirst : t.Reaches path reached first) (hsecond : t.Reaches path other second) :
    reached = other ∧ first = second := by
  have hlength : reached.length = other.length := Nat.le_antisymm
    (hsecond.longest reached hfirst.part (by rw [hfirst.dig]; rfl))
    (hfirst.longest other hsecond.part (by rw [hsecond.dig]; rfl))
  obtain rfl : reached = other :=
    (List.prefix_of_prefix_length_le hfirst.part hsecond.part hlength.le).eq_of_length hlength
  exact ⟨rfl, Option.some.inj (hfirst.dig.symm.trans hsecond.dig)⟩

end PhasedTests.Tree
