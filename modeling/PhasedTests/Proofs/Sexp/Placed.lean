import PhasedTests.Proofs.Sexp.Layout
import PhasedTests.Proofs.Sexp.Tag

/-!
# Laid out trees read back

A laid out tree whose tags can be read is read as a tree of the same shape, in which every node has
the span of its own text. The tokens of a node are those of its tag, of its children in order and
of its parentheses, which is what the grammar asks for.
-/

namespace PhasedTests

namespace Tree

mutual

/-- The tree that the text of `t` is read as when it is written at byte `offset` of a text with
these lines: every node has the span of its text. -/
def placed (index : LineIndex) (indent depth offset : Nat) : Tree → Tree
  | leaf value => leaf value
  | node tag children location =>
    node tag
      (placedAll index indent depth (.ofMultiline (isMultiline (node tag children location)))
        (offset + 1 + byteLength tag.toList) children)
      (some (index.span offset
        (offset + byteLength (layoutChars indent depth (node tag children location)))))

/-- The trees that children are read as when the first separator is written at byte `offset`. -/
def placedAll (index : LineIndex) (indent depth : Nat) (separation : Separation) (offset : Nat) :
    List Tree → List Tree
  | [] => []
  | t :: rest =>
    let first := offset + byteLength ((separation.step t).chars indent depth)
    placed index indent (depth + 1) first t ::
      placedAll index indent depth (separation.step t)
        (first + byteLength (layoutChars indent (depth + 1) t)) rest

end

variable {index : LineIndex} {indent : Nat}

mutual

/-- The tree that is read has the shape of the tree that was written. -/
theorem bare_placed : (t : Tree) → (depth offset : Nat) →
    (placed index indent depth offset t).bare = t.bare
  | leaf _, _, _ => rfl
  | node tag children location, depth, offset => by
    rw [placed, bare, bare, bareAll_placedAll children]

private theorem bareAll_placedAll : (trees : List Tree) → (depth : Nat) →
    (separation : Separation) →
    (offset : Nat) →
    bareAll (placedAll index indent depth separation offset trees) = bareAll trees
  | [], _, _, _ => rfl
  | t :: rest, depth, separation, offset => by
    rw [placedAll, bareAll, bareAll, bare_placed t, bareAll_placedAll rest]

end

/-- Separators are gaps. -/
theorem isGapChar_of_mem_separation {separation : Separation} {depth : Nat} {c : Char}
    (hmem : c ∈ separation.chars indent depth) : Scan.isGapChar c = true := by
  cases separation with
  | inline => rw [List.mem_singleton.mp hmem]; rfl
  | head => rw [List.mem_singleton.mp hmem]; rfl
  | broken =>
    rcases List.mem_cons.mp hmem with rfl | hmem
    · rfl
    · rw [(List.mem_replicate.mp hmem).2]
      rfl

mutual

/-- The text of a tree is scanned as tokens that derive it. -/
theorem yields_placed : (t : Tree) → t.Readable → (depth offset : Nat) →
    ∃ lexemes, Scan.Yields offset (layoutChars indent depth t) lexemes ∧
      Reader.Derives index lexemes [placed index indent depth offset t]
  | leaf value, _, depth, offset =>
    ⟨_, .token (IsTokenText.scalar value) offset, .leaf value _ _ .nil⟩
  | node tag children location, hreadable, depth, offset => by
    obtain ⟨token, hnames, htoken⟩ := isTokenText_tag (hreadable tag List.mem_cons_self)
    obtain ⟨inner, last, hchildren, hinner⟩ := yields_placedAll children
      (fun tag htag => hreadable tag (List.mem_cons_of_mem _ htag)) depth
      (.ofMultiline (isMultiline (node tag children location)))
      (offset + 1 + byteLength tag.toList)
    have hbody := (Scan.Yields.token htoken (offset + 1)).append hchildren
      (fun rest _ => isBoundary_layoutChildren indent depth _ children rest)
    rw [placed, layoutChars_node]
    refine ⟨_, hbody.openParen, ?_⟩
    have hstop : offset + byteLength ('(' :: (tag.toList ++ layoutChildren indent depth
        (.ofMultiline (isMultiline (node tag children location))) children)) =
        offset + 1 + byteLength tag.toList + byteLength (layoutChildren indent depth
          (.ofMultiline (isMultiline (node tag children location))) children) := by
      rw [byteLength, byteLength_append, ← Nat.add_assoc, ← Nat.add_assoc]
      rfl
    rw [hstop]
    exact .node offset _ _ _ last _ hnames hinner .nil

private theorem yields_placedAll : (trees : List Tree) → (∀ tag ∈ tagsAll trees, isTag tag = true) →
    (depth : Nat) → (separation : Separation) → (offset : Nat) →
    ∃ inner last,
      Scan.Yields offset (layoutChildren indent depth separation trees)
        (inner ++ [⟨.closeParen, last,
          offset + byteLength (layoutChildren indent depth separation trees)⟩]) ∧
      Reader.Derives index inner (placedAll index indent depth separation offset trees)
  | [], _, _, _, offset => ⟨[], offset, .closeParen offset, .nil⟩
  | t :: rest, hreadable, depth, separation, offset => by
    obtain ⟨lexemes, htext, hfirst⟩ := yields_placed t
      (fun tag htag => hreadable tag (List.mem_append_left _ htag)) (depth + 1)
      (offset + byteLength ((separation.step t).chars indent depth))
    obtain ⟨inner, last, hchildren, hinner⟩ := yields_placedAll rest
      (fun tag htag => hreadable tag (List.mem_append_right _ htag)) depth (separation.step t)
      (offset + byteLength ((separation.step t).chars indent depth) +
        byteLength (layoutChars indent (depth + 1) t))
    have hbody := htext.append hchildren
      (fun later _ => isBoundary_layoutChildren indent depth _ rest later)
    have hwhole := hbody.gap (fun c hc => isGapChar_of_mem_separation hc)
    refine ⟨lexemes ++ inner, last, ?_, ?_⟩
    · rw [layoutChildren, byteLength_append, byteLength_append, ← Nat.add_assoc, ← Nat.add_assoc,
        List.append_assoc]
      exact hwhole
    · rw [placedAll]
      exact hfirst.append hinner

end

/-- Nodes stay nodes when they are placed. -/
theorem isNode_placed (t : Tree) (depth offset : Nat) :
    (placed index indent depth offset t).isNode = t.isNode := by
  cases t <;> rfl

/-- A laid out node is read again, with the spans of its text. -/
theorem readText_layout {t : Tree} (hnode : t.isNode = true) (hreadable : t.Readable)
    (path : String) : readText path (t.layout indent) =
      .ok (placed (LineIndex.ofChars (t.layout indent).toList) indent 0 0 t) := by
  obtain ⟨lexemes, hscan, hderives⟩ :=
    @yields_placed (LineIndex.ofChars (t.layout indent).toList) indent t hreadable 0 0
  have hend : Scan.fromOffset (byteLength (layoutChars indent 0 t)) ['\n'] = ⟨[], none⟩ := by
    rw [Scan.fromOffset_gapChar rfl, Scan.fromOffset_nil]
  have hall : Scan.ofChars (t.layout indent).toList = ⟨lexemes, none⟩ := by
    rw [layout, String.toList_ofList, Scan.ofChars, hscan _ (.newline []), Nat.zero_add, hend,
      Scan.after, List.append_nil]
  have hread := Reader.read_forms_of_derives hderives
    (by simpa only [List.mem_singleton, forall_eq, isNode_placed] using hnode) []
  unfold readText
  simp only [hall]
  rw [hread]
  rfl

end Tree

end PhasedTests
