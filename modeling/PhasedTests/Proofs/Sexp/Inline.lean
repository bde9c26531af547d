import PhasedTests.Proofs.Sexp.Tag
import PhasedTests.Proofs.Tree.Shape

/-!
# Written forms tell trees apart

The written form of a tree on one line is read token by token, so it tells the tree up to spans, and
where the tree ends.
-/

namespace PhasedTests

/-- Texts of tokens tell the tokens and where they end. -/
theorem IsTokenText.append_inj {first second rest later : List Char} {token other : Token}
    (hfirst : IsTokenText first token) (hsecond : IsTokenText second other)
    (hrest : IsBoundary rest) (hlater : IsBoundary later)
    (hsame : first ++ rest = second ++ later) : first = second ∧ token = other ∧ rest = later := by
  obtain ⟨c, cs, rfl, -, -, hread⟩ := hfirst
  obtain ⟨d, ds, rfl, -, -, hreadOther⟩ := hsecond
  rw [List.cons_append, List.cons_append] at hsame
  obtain ⟨rfl, htail⟩ := List.cons.inj hsame
  have hmatch := hread rest hrest
  rw [htail, hreadOther later hlater] at hmatch
  obtain ⟨htoken, hchars⟩ := Match.mk.inj hmatch
  refine ⟨hchars.symm, (Option.some.inj htoken).symm, ?_⟩
  rw [← (List.cons.inj hchars).2] at htail
  exact List.append_cancel_left htail

/-- A scalar does not start like a node. -/
private theorem IsTokenText.ne_openParen {chars rest later : List Char} {value : Scalar}
    (htext : IsTokenText chars (.scalar value)) (hrest : IsBoundary rest) :
    chars ++ rest ≠ '(' :: later := by
  intro hsame
  obtain ⟨c, cs, rfl, -, -, hread⟩ := htext
  rw [List.cons_append] at hsame
  obtain ⟨rfl, htail⟩ := List.cons.inj hsame
  have hparen : Match.atStart '(' (cs ++ rest) = ⟨some .openParen, ['(']⟩ := rfl
  rw [hread rest hrest] at hparen
  cases (Match.mk.inj hparen).1

namespace Tree

private theorem isBoundary_inlineTail (trees : List Tree) (rest : List Char) :
    IsBoundary (inlineTail trees ++ rest) := by
  cases trees with
  | nil => exact .closeParen rest
  | cons t trees => exact .space _

mutual

/-- The written form of a readable tree tells its shape and where it ends. -/
theorem bare_of_inlineChars_append : (a b : Tree) → a.Readable → b.Readable →
    ∀ {rest later : List Char}, IsBoundary rest → IsBoundary later →
      a.inlineChars ++ rest = b.inlineChars ++ later → a.bare = b.bare ∧ rest = later
  | leaf x, leaf y, _, _, _, _, hrest, hlater, hsame => by
    obtain ⟨-, htoken, hend⟩ :=
      (IsTokenText.scalar x).append_inj (IsTokenText.scalar y) hrest hlater hsame
    rw [Token.scalar.inj htoken]
    exact ⟨rfl, hend⟩
  | leaf x, node .., _, _, _, _, hrest, _, hsame =>
    absurd hsame ((IsTokenText.scalar x).ne_openParen hrest)
  | node .., leaf y, _, _, _, _, _, hlater, hsame =>
    absurd hsame.symm ((IsTokenText.scalar y).ne_openParen hlater)
  | node tag children location, node other others place, ha, hb, rest, later, hrest, hlater,
      hsame => by
    obtain ⟨htag, hchildren⟩ := readable_node.mp ha
    obtain ⟨hother, hothers⟩ := readable_node.mp hb
    obtain ⟨_, -, htoken⟩ := isTokenText_tag htag
    obtain ⟨_, -, hotherToken⟩ := isTokenText_tag hother
    rw [inlineChars, inlineChars, List.cons_append, List.cons_append, List.append_assoc,
      List.append_assoc] at hsame
    obtain ⟨htags, -, hinner⟩ := htoken.append_inj hotherToken
      (isBoundary_inlineTail children rest) (isBoundary_inlineTail others later)
      (List.cons.inj hsame).2
    obtain ⟨hbare, hend⟩ :=
      bareAll_of_inlineTail_append children others hchildren hothers hrest hlater hinner
    rw [bare, bare, String.toList_inj.mp htags, hbare]
    exact ⟨rfl, hend⟩

private theorem bareAll_of_inlineTail_append : (as bs : List Tree) → (∀ a ∈ as, a.Readable) →
    (∀ b ∈ bs, b.Readable) → ∀ {rest later : List Char}, IsBoundary rest → IsBoundary later →
      inlineTail as ++ rest = inlineTail bs ++ later → bareAll as = bareAll bs ∧ rest = later
  | [], [], _, _, _, _, _, _, hsame => ⟨rfl, (List.cons.inj hsame).2⟩
  | [], _ :: _, _, _, _, _, _, _, hsame => by
    cases (List.cons.inj hsame).1
  | _ :: _, [], _, _, _, _, _, _, hsame => by
    cases (List.cons.inj hsame).1
  | a :: as, b :: bs, ha, hb, rest, later, hrest, hlater, hsame => by
    rw [inlineTail, inlineTail, List.cons_append, List.cons_append, List.append_assoc,
      List.append_assoc] at hsame
    obtain ⟨hfirst, hothers⟩ := bare_of_inlineChars_append a b (ha a List.mem_cons_self)
      (hb b List.mem_cons_self) (isBoundary_inlineTail as rest) (isBoundary_inlineTail bs later)
      (List.cons.inj hsame).2
    obtain ⟨hlast, hend⟩ := bareAll_of_inlineTail_append as bs
      (fun t ht => ha t (List.mem_cons_of_mem _ ht)) (fun t ht => hb t (List.mem_cons_of_mem _ ht))
      hrest hlater hothers
    rw [bareAll, bareAll, hfirst, hlast]
    exact ⟨rfl, hend⟩

end

/-- Readable trees with the same written form have the same shape. -/
theorem bare_of_inline {a b : Tree} (ha : a.Readable) (hb : b.Readable)
    (hsame : a.inline = b.inline) : a.bare = b.bare := by
  have hchars : a.inlineChars ++ [] = b.inlineChars ++ [] := by
    rw [List.append_nil, List.append_nil]
    exact String.ofList_injective hsame
  exact (bare_of_inlineChars_append a b ha hb .nil .nil hchars).1

end Tree

end PhasedTests
