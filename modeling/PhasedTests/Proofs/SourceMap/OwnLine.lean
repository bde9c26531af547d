import PhasedTests.Proofs.SourceMap.Lines

/-!
# Statements on lines of their own

A node that breaks gives each of its child nodes a line of its own. The child is the first node on
that line, since whatever is met before it starts before the line feed. So if the child is printed
on this line alone and was read from the source, the source map answers with its source line.
-/

namespace PhasedTests

/-- The node is the first thing on its line. -/
def Printed.OpensLine (p : Printed) : Prop :=
  ∃ earlier count, p.before = earlier ++ '\n' :: List.replicate count ' '

/-- One node is met before another: its text starts before the other's. -/
def Printed.Precedes (a b : Printed) : Prop :=
  a.before ++ ['('] <+: b.before

namespace Tree

variable {indent : Nat}

/-- A printed child lies in one of the children; behind a line break it opens a line. -/
theorem mem_printedAll (trees : List Tree) (depth : Nat) (separation : Separation)
    (before : List Char) (first : Nat) :
    ∀ p ∈ printedAll indent depth separation before first trees, ∃ index child start inner,
      trees[index]? = some child ∧ inner ∈ printedBehind indent (depth + 1) start child ∧
      p = inner.below (first + index) ∧ before <+: start ∧
      (separation ≠ .inline → child.isNode = true →
        ∃ earlier count, start = earlier ++ '\n' :: List.replicate count ' ') := by
  induction trees generalizing separation before first with
  | nil => exact List.forall_mem_nil _
  | cons t rest ih =>
    intro p hmem
    rcases List.mem_append.mp hmem with hmem | hmem
    · obtain ⟨inner, hinner, rfl⟩ := List.mem_map.mp hmem
      refine ⟨0, t, _, inner, rfl, hinner, rfl, List.prefix_append _ _, ?_⟩
      intro hbreaks hnode
      have hbroken : separation.step t = .broken := by
        cases t with
        | leaf value => cases hnode
        | node tag children location =>
          cases separation with
          | inline => exact absurd rfl hbreaks
          | head => rfl
          | broken => rfl
      rw [hbroken]
      exact ⟨before, _, rfl⟩
    · obtain ⟨index, child, start, inner, hchild, hinner, rfl, hbefore, hopens⟩ :=
        ih _ _ _ p hmem
      have hstep : separation ≠ .inline → separation.step t ≠ .inline := by
        intro hbreaks hinline
        cases separation with
        | inline => exact hbreaks rfl
        | head => cases t <;> cases hinline
        | broken => cases hinline
      refine ⟨index + 1, child, start, inner, ?_, hinner, ?_, ?_, ?_⟩
      · rw [List.getElem?_cons_succ]
        exact hchild
      · rw [Nat.add_right_comm, Nat.add_assoc]
      · rw [List.append_assoc] at hbefore
        exact (List.prefix_append before _).trans hbefore
      · exact fun hbreaks => hopens (hstep hbreaks)

/-- Only the root is printed at the empty path. -/
private theorem before_of_path_eq_nil {t : Tree} {depth : Nat} {before : List Char} {p : Printed}
    (hmem : p ∈ printedBehind indent depth before t) (hpath : p.path = []) :
    p.before = before ∧ t.isNode = true := by
  cases t with
  | leaf value => cases hmem
  | node tag children location =>
    rcases List.mem_cons.mp hmem with rfl | hmem
    · exact ⟨rfl, rfl⟩
    · obtain ⟨_, _, _, inner, -, -, rfl, -⟩ := mem_printedAll children depth _ _ 0 p hmem
      cases hpath

/-- A child node of a broken node opens its line. -/
theorem opensLine_of_isMultiline (path : List Nat) (t : Tree) (depth : Nat)
    (before : List Char) : ∀ p ∈ printedBehind indent depth before t, ∀ index parent,
      p.path = path ++ [index] → t.dig? path = some parent → parent.isMultiline = true →
        p.OpensLine := by
  induction path generalizing t depth before with
  | nil =>
    intro p hmem index parent hpath hparent hmultiline
    obtain rfl := Option.some.inj hparent
    cases t with
    | leaf value => cases hmem
    | node tag children location =>
      rcases List.mem_cons.mp hmem with rfl | hmem
      · cases hpath
      · obtain ⟨_, child, start, inner, -, hinner, rfl, -, hopens⟩ :=
          mem_printedAll children depth _ _ 0 p hmem
        rw [hmultiline] at hopens
        obtain ⟨hbefore, hnode⟩ := before_of_path_eq_nil hinner (List.cons.inj hpath).2
        obtain ⟨earlier, count, hstart⟩ := hopens (fun h => nomatch h) hnode
        exact ⟨earlier, count, hbefore.trans hstart⟩
  | cons step path ih =>
    intro p hmem index parent hpath hparent hmultiline
    cases t with
    | leaf value => cases hmem
    | node tag children location =>
      rcases List.mem_cons.mp hmem with rfl | hmem
      · cases hpath
      · obtain ⟨position, child, start, inner, hchild, hinner, rfl, -⟩ :=
          mem_printedAll children depth _ _ 0 p hmem
        obtain ⟨hstep, hpath⟩ := List.cons.inj hpath
        obtain ⟨found, hfound, hparent⟩ := Option.bind_eq_some_iff.mp hparent
        rw [Nat.zero_add] at hstep
        have hsame : child = found := by
          rw [← hstep] at hfound
          exact Option.some.inj (hchild.symm.trans (Option.filter_eq_some_iff.mp hfound).1)
        rw [← hsame] at hparent
        exact ih child (depth + 1) start inner hinner index parent hpath hparent hmultiline

/-! ## The order of the nodes -/

mutual

/-- The text of a printed node starts with its opening parenthesis. -/
theorem own_cons_of_mem_printedBehind : (t : Tree) → (depth : Nat) → (before : List Char) →
    ∀ p ∈ printedBehind indent depth before t, ∃ body, p.own = '(' :: body
  | leaf _, _, _, _, hmem => nomatch hmem
  | node tag children location, depth, before, p, hmem => by
    rcases List.mem_cons.mp hmem with rfl | hmem
    · exact ⟨_, layoutChars_node indent depth tag children location⟩
    · exact own_cons_of_mem_printedAll children depth _ _ 0 p hmem

private theorem own_cons_of_mem_printedAll : (trees : List Tree) → (depth : Nat) →
    (separation : Separation) → (before : List Char) → (index : Nat) →
    ∀ p ∈ printedAll indent depth separation before index trees, ∃ body, p.own = '(' :: body
  | [], _, _, _, _, _, hmem => nomatch hmem
  | t :: rest, depth, separation, before, index, p, hmem => by
    rcases List.mem_append.mp hmem with hmem | hmem
    · obtain ⟨inner, hinner, rfl⟩ := List.mem_map.mp hmem
      exact own_cons_of_mem_printedBehind t (depth + 1) _ inner hinner
    · exact own_cons_of_mem_printedAll rest depth _ _ _ p hmem

end

mutual

/-- The nodes are printed in the order in which they are met. -/
theorem pairwise_printedBehind : (t : Tree) → (depth : Nat) → (before : List Char) →
    (printedBehind indent depth before t).Pairwise Printed.Precedes ∧
      ∀ p ∈ printedBehind indent depth before t, before <+: p.before
  | leaf _, _, _ => ⟨.nil, fun _ hmem => nomatch hmem⟩
  | node tag children location, depth, before => by
    obtain ⟨hordered, hbehind⟩ := pairwise_printedAll children depth
      (.ofMultiline (node tag children location).isMultiline) (before ++ '(' :: tag.toList) 0
    have hopen : before ++ ['('] <+: before ++ '(' :: tag.toList :=
      ⟨tag.toList, by rw [List.append_assoc]; rfl⟩
    refine ⟨List.pairwise_cons.mpr ⟨fun p hmem => hopen.trans (hbehind p hmem), hordered⟩, ?_⟩
    intro p hmem
    rcases List.mem_cons.mp hmem with rfl | hmem
    · exact List.prefix_rfl
    · exact (List.prefix_append _ _).trans (hbehind p hmem)

private theorem pairwise_printedAll : (trees : List Tree) → (depth : Nat) →
    (separation : Separation) →
    (before : List Char) → (index : Nat) →
    (printedAll indent depth separation before index trees).Pairwise Printed.Precedes ∧
      ∀ p ∈ printedAll indent depth separation before index trees, before <+: p.before
  | [], _, _, _, _ => ⟨.nil, fun _ hmem => nomatch hmem⟩
  | t :: rest, depth, separation, before, index => by
    obtain ⟨hfirst, hinner⟩ := pairwise_printedBehind t (depth + 1)
      (before ++ (separation.step t).chars indent depth)
    obtain ⟨hrest, hlater⟩ := pairwise_printedAll rest depth (separation.step t)
      (before ++ (separation.step t).chars indent depth ++ layoutChars indent (depth + 1) t)
      (index + 1)
    refine ⟨List.pairwise_append.mpr ⟨?_, hrest, ?_⟩, ?_⟩
    · exact List.pairwise_map.mpr hfirst
    · intro a ha b hb
      obtain ⟨inner, hmem, rfl⟩ := List.mem_map.mp ha
      obtain ⟨body, hown⟩ := own_cons_of_mem_printedBehind t (depth + 1) _ inner hmem
      have htext := prefix_of_mem_printedBehind t (depth + 1) _ inner hmem
      rw [hown] at htext
      have hopen : inner.before ++ ['('] <+: inner.before ++ '(' :: body :=
        ⟨body, by rw [List.append_assoc]; rfl⟩
      exact (hopen.trans htext).trans (hlater b hb)
    · intro p hmem
      rcases List.mem_append.mp hmem with hmem | hmem
      · obtain ⟨own, hown, rfl⟩ := List.mem_map.mp hmem
        exact (List.prefix_append _ _).trans (hinner own hown)
      · have hbefore := hlater p hmem
        rw [List.append_assoc] at hbefore
        exact (List.prefix_append _ _).trans hbefore

end

end Tree

namespace Printed

/-- A parenthesis that comes before a line feed and spaces comes before the line feed. -/
private theorem prefix_of_paren {chars earlier : List Char} {count : Nat}
    (hstarts : chars ++ ['('] <+: earlier ++ '\n' :: List.replicate count ' ') :
    chars ++ ['('] <+: earlier := by
  rcases List.prefix_or_prefix_of_prefix hstarts (List.prefix_append earlier _) with
    hearlier | ⟨behind, hbehind⟩
  · exact hearlier
  · rcases List.eq_nil_or_concat behind with rfl | ⟨others, c, rfl⟩
    · rw [List.append_nil] at hbehind
      rw [hbehind]
    · have hparen : c = '(' := by
        rw [List.concat_eq_append, ← List.append_assoc] at hbehind
        exact List.singleton_inj.mp (List.append_inj_right' hbehind rfl)
      rw [← hbehind, List.prefix_append_right_inj] at hstarts
      have hmem : '(' ∈ '\n' :: List.replicate count ' ' :=
        hstarts.subset (by simp [hparen])
      simp [List.mem_replicate] at hmem

/-- What is met before a node that opens its line starts on an earlier line. -/
theorem line_lt_of_precedes {a b : Printed} (hprecedes : a.Precedes b) (hopens : b.OpensLine) :
    a.line < b.line := by
  obtain ⟨earlier, count, hbefore⟩ := hopens
  unfold Precedes at hprecedes
  rw [hbefore] at hprecedes
  obtain ⟨rest, rfl⟩ := prefix_of_paren hprecedes
  unfold line
  rw [hbefore, List.count_append, List.count_append, List.count_append, List.count_cons_self]
  omega

end Printed

namespace SourceMap

/-- A node that was read from the source, is printed on a single line and opens it decides what the
map of the emitted text says about this line. -/
theorem line?_of_opensLine {source transformed : String} {indent : Nat} {t : Tree} {p : Printed}
    {line : Nat} (hmem : p ∈ t.printed indent) (hopens : p.OpensLine)
    (hsingle : p.isSingleLine = true) (hline : p.node.line? = some line) :
    (build source transformed t
      (Tree.placed (.ofChars (t.layout indent).toList) indent 0 0 t)).line? p.line = some line := by
  have hnode : t.isNode = true := by
    cases t with
    | leaf value => cases hmem
    | node => rfl
  have hlast : p.line ≤ (build source transformed t
      (Tree.placed (.ofChars (t.layout indent).toList) indent 0 0 t)).lineCount := by
    obtain ⟨rest, hrest⟩ := Tree.prefix_of_mem_printedBehind t 0 [] p hmem
    rw [lineCount_build_placed hnode, Tree.layout, String.toList_ofList, ← List.nil_append
      (Tree.layoutChars indent 0 t), ← hrest]
    unfold Printed.line
    simp only [List.count_append, List.count_singleton_self]
    omega
  obtain ⟨earlier, later, hsplit⟩ := List.append_of_mem hmem
  have hordered := (@Tree.pairwise_printedBehind indent t 0 []).1
  have hothers : earlier.filter (fun q => q.isSingleLine && q.line == p.line) = [] := by
    rw [List.filter_eq_nil_iff]
    intro q hq
    rw [Tree.printed] at hsplit
    rw [hsplit] at hordered
    have hprecedes := (List.pairwise_append.mp hordered).2.2 q hq p List.mem_cons_self
    have hlt := Printed.line_lt_of_precedes hprecedes hopens
    simp [Nat.ne_of_lt hlt]
  have hfirst : 1 ≤ p.line := by
    unfold Printed.line
    omega
  rw [line?_build hfirst hlast, sourceLine?_placed, hsplit, List.filter_append, hothers,
    List.nil_append, List.filter_cons_of_pos (by simp [hsingle]), List.findSome?_cons, hline]

end SourceMap

end PhasedTests
