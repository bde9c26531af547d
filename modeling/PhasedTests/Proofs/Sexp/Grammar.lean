import PhasedTests.Sexp.Reader

/-!
# The grammar of documents

Tokens derive trees: a scalar derives a leaf, and an opening parenthesis, a tag, the tokens of the
children and a closing parenthesis derive a node with the span from the one parenthesis to the
other. The reader, which keeps a stack of open nodes, accepts exactly the sequences of tokens that
derive nodes, and returns these nodes.
-/

namespace PhasedTests.Reader

/-- The tokens that may name a node: bare words, and the word for nil. -/
inductive NamesTag : Token → String → Prop
  | ident (name : String) : NamesTag (.ident name) name
  | nil : NamesTag (.scalar .nil) "nil"

/-- Which tokens derive which trees, in a text with these lines. -/
inductive Derives (index : LineIndex) : List Lexeme → List Tree → Prop
  | nil : Derives index [] []
  | leaf (value : Scalar) (first stop : Nat) {later : List Lexeme} {trees : List Tree} :
      Derives index later trees →
        Derives index (⟨.scalar value, first, stop⟩ :: later) (.leaf value :: trees)
  | node {token : Token} {tag : String} {inner later : List Lexeme} {children trees : List Tree}
      (first afterFirst tagFirst tagStop last stop : Nat) :
      NamesTag token tag → Derives index inner children → Derives index later trees →
        Derives index
          (⟨.openParen, first, afterFirst⟩ :: ⟨token, tagFirst, tagStop⟩ ::
            (inner ++ ⟨.closeParen, last, stop⟩ :: later))
          (.node tag children (some (index.span first stop)) :: trees)

namespace Derives

variable {index : LineIndex}

/-- Trees are derived from the tokens of the first ones and those of the later ones. -/
theorem append {first second : List Lexeme} {trees later : List Tree}
    (hfirst : Derives index first trees) (hsecond : Derives index second later) :
    Derives index (first ++ second) (trees ++ later) := by
  induction hfirst with
  | nil => exact hsecond
  | leaf value first stop _ ih => exact .leaf value first stop ih
  | node first afterFirst tagFirst tagStop last stop htag hinner _ _ ih =>
    rw [List.cons_append, List.cons_append, List.append_assoc, List.cons_append]
    exact .node first afterFirst tagFirst tagStop last stop htag hinner ih

end Derives

variable {index : LineIndex}

/-- Behind the head of a node its children are read. -/
private theorem read_head {token : Token} {tag : String} (htag : NamesTag token tag)
    (first afterFirst tagFirst tagStop : Nat) (opened : List OpenNode) (forms : List Tree)
    (later : List Lexeme) :
    read index opened forms
        (⟨.openParen, first, afterFirst⟩ :: ⟨token, tagFirst, tagStop⟩ :: later) =
      read index (⟨tag, first, []⟩ :: opened) forms later := by
  cases htag <;> rfl

/-- The reader goes over derived tokens by adding their trees to the innermost open node. -/
theorem read_of_derives {lexemes : List Lexeme} {trees : List Tree}
    (hderives : Derives index lexemes trees) (top : OpenNode) (outer : List OpenNode)
    (forms : List Tree) (later : List Lexeme) :
    read index (top :: outer) forms (lexemes ++ later) =
      read index ({ top with reversed := trees.reverse ++ top.reversed } :: outer) forms later := by
  induction hderives generalizing top outer later with
  | nil => rfl
  | leaf value first stop _ ih =>
    rw [List.cons_append]
    refine (ih _ _ _).trans ?_
    simp only [List.reverse_cons, List.append_assoc, List.singleton_append]
  | node first afterFirst tagFirst tagStop last stop htag _ _ ihinner ihlater =>
    simp only [List.cons_append, List.append_assoc]
    rw [read_head htag, ihinner]
    simp only [List.append_nil]
    refine (ihlater _ _ _).trans ?_
    simp only [List.reverse_cons, List.reverse_reverse, List.append_assoc, List.singleton_append]

/-- Outside all nodes it adds them to the forms, which have to be nodes. -/
theorem read_forms_of_derives {lexemes : List Lexeme} {trees : List Tree}
    (hderives : Derives index lexemes trees) (hnodes : ∀ t ∈ trees, t.isNode = true)
    (forms : List Tree) : read index [] forms lexemes = .ok (forms.reverse ++ trees) := by
  induction hderives generalizing forms with
  | nil => rw [List.append_nil]; rfl
  | leaf value first stop _ _ => cases hnodes _ List.mem_cons_self
  | node first afterFirst tagFirst tagStop last stop htag hinner _ _ ihlater =>
    rw [read_head htag, read_of_derives hinner]
    refine (ihlater (fun t ht => hnodes t (List.mem_cons_of_mem _ ht)) _).trans ?_
    simp only [List.append_nil, List.reverse_reverse, List.reverse_cons, List.append_assoc,
      List.singleton_append]

/-- What is left to read once the innermost open node is closed, or the forms if none is open. -/
private def Finishes (index : LineIndex) (forms result : List Tree) (lexemes : List Lexeme) :
    List OpenNode → Prop
  | [] => ∃ trees, Derives index lexemes trees ∧ (∀ t ∈ trees, t.isNode = true) ∧
      result = forms.reverse ++ trees
  | top :: outer => ∃ inner children last stop later,
      lexemes = inner ++ ⟨.closeParen, last, stop⟩ :: later ∧ Derives index inner children ∧
        read index
          (place (.node top.tag (top.reversed.reverse ++ children)
            (some (index.span top.first stop))) outer forms).1
          (place (.node top.tag (top.reversed.reverse ++ children)
            (some (index.span top.first stop))) outer forms).2 later = .ok result

/-- Once what starts with one more tree at the front is known to finish, so is the whole. -/
private theorem finishes_cons {forms result : List Tree} {opened : List OpenNode} {t : Tree}
    {lexemes later : List Lexeme} (hnode : t.isNode = true ∨ opened ≠ [])
    (hderives : ∀ {second : List Lexeme} {trees : List Tree}, Derives index second trees →
      Derives index (lexemes ++ second) (t :: trees))
    (hfinishes : Finishes index (place t opened forms).2 result later (place t opened forms).1) :
    Finishes index forms result (lexemes ++ later) opened := by
  cases opened with
  | nil =>
    obtain ⟨trees, htrees, hnodes, hresult⟩ := hfinishes
    refine ⟨t :: trees, hderives htrees, ?_, ?_⟩
    · intro u hu
      rcases List.mem_cons.mp hu with rfl | hu
      · exact hnode.resolve_right (fun h => h rfl)
      · exact hnodes u hu
    · rw [hresult]
      simp only [place, List.reverse_cons, List.append_assoc, List.singleton_append]
  | cons top outer =>
    obtain ⟨inner, children, last, stop, rest, rfl, hinner, hread⟩ := hfinishes
    refine ⟨lexemes ++ inner, t :: children, last, stop, rest, ?_, hderives hinner, ?_⟩
    · rw [List.append_assoc]
    · simpa only [place, List.reverse_cons, List.append_assoc, List.singleton_append] using hread

/-- A successful reading closes the innermost open node behind the tokens of its children. -/
private theorem finishes_of_read {lexemes : List Lexeme} {opened : List OpenNode}
    {forms result : List Tree} (hread : read index opened forms lexemes = .ok result) :
    Finishes index forms result lexemes opened := by
  induction hlength : lexemes.length using Nat.strongRecOn
    generalizing lexemes opened forms with
  | _ n ih =>
  subst hlength
  match lexemes, hread with
  | [], hread =>
    cases opened with
    | nil => exact ⟨[], .nil, by simp, by simpa [read] using hread.symm⟩
    | cons top outer => cases hread
  | ⟨.ident name, first, stop⟩ :: later, hread => cases opened <;> cases hread
  | ⟨.scalar value, first, stop⟩ :: later, hread =>
    cases opened with
    | nil => cases hread
    | cons top outer =>
      have hlater :
          Finishes index forms result later (place (.leaf value) (top :: outer) forms).1 :=
        ih later.length (by simp) hread rfl
      exact @finishes_cons index forms result (top :: outer) (.leaf value)
        [⟨.scalar value, first, stop⟩] later (Or.inr (by simp)) (.leaf value first stop) hlater
  | ⟨.closeParen, last, stop⟩ :: later, hread =>
    cases opened with
    | nil => cases hread
    | cons top outer =>
      refine ⟨[], [], last, stop, later, rfl, .nil, ?_⟩
      rw [List.append_nil]
      exact hread
  | [⟨.openParen, first, afterFirst⟩], hread => cases hread
  | ⟨.openParen, first, afterFirst⟩ :: ⟨token, tagFirst, tagStop⟩ :: later, hread =>
    have htag : ∃ tag, NamesTag token tag := by
      cases token with
      | ident name => exact ⟨name, .ident name⟩
      | openParen => cases hread
      | closeParen => cases hread
      | scalar value =>
        cases value with
        | nil => exact ⟨"nil", .nil⟩
        | symbol name => cases hread
        | text value => cases hread
        | int value => cases hread
        | float value => cases hread
    obtain ⟨tag, htag⟩ := htag
    rw [read_head htag] at hread
    obtain ⟨inner, children, last, stop, rest, rfl, hinner, hlater⟩ :=
      ih later.length (by simp only [List.length_cons]; omega) hread rfl
    have hrest := ih rest.length
      (by simp only [List.length_cons, List.length_append]; omega) hlater rfl
    have hnode : ∀ {second : List Lexeme} {trees : List Tree}, Derives index second trees →
        Derives index
          (⟨.openParen, first, afterFirst⟩ :: ⟨token, tagFirst, tagStop⟩ ::
            (inner ++ [⟨.closeParen, last, stop⟩]) ++ second)
          (.node tag children (some (index.span first stop)) :: trees) := by
      intro second trees htrees
      simpa using Derives.node first afterFirst tagFirst tagStop last stop htag hinner htrees
    have hwhole := finishes_cons (Or.inl rfl) hnode hrest
    simpa only [List.cons_append, List.append_assoc, List.nil_append] using hwhole

/-- The forms that the reader returns are nodes derived by the tokens it was given. -/
theorem derives_of_read {lexemes : List Lexeme} {forms : List Tree}
    (hread : read index [] [] lexemes = .ok forms) :
    Derives index lexemes forms ∧ ∀ t ∈ forms, t.isNode = true := by
  obtain ⟨trees, hderives, hnodes, rfl⟩ := finishes_of_read hread
  exact ⟨hderives, hnodes⟩

end PhasedTests.Reader
