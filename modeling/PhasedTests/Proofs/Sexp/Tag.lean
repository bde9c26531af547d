import PhasedTests.Proofs.Sexp.Grammar
import PhasedTests.Proofs.Sexp.Scan
import PhasedTests.Proofs.Tree.Inside
import PhasedTests.Proofs.Tree.Shape

/-!
# Tags

Which strings can be the tag of a node that was read: bare words, among them the word for nil, but
not the two words for floats. Written out, such a tag is one token.
-/

namespace PhasedTests

/-- A tag that the reader can produce: a bare word, but neither of the two words for floats. -/
def isTag (tag : String) : Bool :=
  match tag.toList with
  | [] => false
  | c :: word =>
    Match.isWordStart c && word.all Match.isWordRest && tag != "inf" && tag != "nan"

/-- The written form of such a tag is one token that names it. -/
theorem isTokenText_tag {tag : String} (htag : isTag tag = true) :
    ∃ token, Reader.NamesTag token tag ∧ IsTokenText tag.toList token := by
  unfold isTag at htag
  split at htag
  · cases htag
  · rename_i c word hchars
    simp only [Bool.and_eq_true, List.all_eq_true, bne_iff_ne] at htag
    obtain ⟨⟨⟨hstart, hword⟩, hinf⟩, hnan⟩ := htag
    have htext : String.ofList (c :: word) = tag := by rw [← hchars, String.ofList_toList]
    rw [hchars]
    refine ⟨Match.ofWord (c :: word), ?_, IsTokenText.word hstart hword⟩
    unfold Match.ofWord
    split
    · rename_i hnil
      rw [hnil] at htext
      rw [← htext]
      exact .nil
    · rw [if_neg, if_neg, htext]
      · exact .ident tag
      · intro hword
        rw [hword] at htext
        exact hnan htext.symm
      · intro hword
        rw [hword] at htext
        exact hinf htext.symm

namespace Tree

/-- Every node of the tree has a tag that can be read. -/
def Readable (t : Tree) : Prop :=
  ∀ tag ∈ t.tags, isTag tag = true

/-- Leaves are readable. -/
theorem readable_leaf (value : Scalar) : (leaf value).Readable := by
  intro tag htag
  cases htag

/-- A node is readable if its tag can be read and its children are readable. -/
theorem readable_node {tag : String} {children : List Tree} {location : Option Span} :
    (node tag children location).Readable ↔ isTag tag = true ∧ ∀ c ∈ children, c.Readable := by
  constructor
  · intro hreadable
    refine ⟨hreadable tag List.mem_cons_self, fun c hc inner hinner => ?_⟩
    exact hreadable inner (List.mem_cons_of_mem _ (mem_tagsAll.mpr ⟨c, hc, hinner⟩))
  · rintro ⟨htag, hchildren⟩ inner hinner
    rcases List.mem_cons.mp hinner with rfl | hinner
    · exact htag
    · obtain ⟨c, hc, hinner⟩ := mem_tagsAll.mp hinner
      exact hchildren c hc inner hinner

/-- The trees inside a readable tree are readable. -/
theorem Readable.of_inside {u t : Tree} (hreadable : t.Readable) (hinside : Inside u t) :
    u.Readable := by
  induction hinside with
  | self => exact hreadable
  | child hmem _ ih => exact ih ((readable_node.mp hreadable).2 _ hmem)

end Tree

namespace Match

private theorem ofQuoted_token {opening rest : List Char} {scalar : String → Scalar} {token : Token}
    (hread : (ofQuoted opening rest scalar).token = some token) :
    ∃ value, token = .scalar value := by
  unfold ofQuoted at hread
  dsimp only at hread
  split at hread
  · exact ⟨_, (Option.some.inj hread).symm⟩
  · cases hread

private theorem ofNumber_token {negative : Bool} {whole rest : List Char} {token : Token}
    (hread : (ofNumber negative whole rest).token = some token) :
    ∃ value, token = .scalar value := by
  unfold ofNumber at hread
  dsimp only at hread
  split at hread
  · obtain ⟨value, -, hvalue⟩ := Option.map_eq_some_iff.mp hread
    exact ⟨_, hvalue.symm⟩
  · exact ⟨_, (Option.some.inj hread).symm⟩

private theorem ofWord_cases {c : Char} {word : List Char} (hstart : isWordStart c = true)
    (hword : ∀ d ∈ word, isWordRest d = true) :
    (∃ value, ofWord (c :: word) = .scalar value) ∨
      ∃ name, ofWord (c :: word) = .ident name ∧ isTag name = true ∧ name ≠ "nil" := by
  unfold ofWord
  split
  · exact Or.inl ⟨_, rfl⟩
  · split
    · exact Or.inl ⟨_, rfl⟩
    · split
      · exact Or.inl ⟨_, rfl⟩
      · rename_i hnil hinf hnan
        have hne (other : List Char) (hother : c :: word ≠ other) :
            String.ofList (c :: word) ≠ String.ofList other := by
          intro heq
          exact hother (String.ofList_injective heq)
        refine Or.inr ⟨_, rfl, ?_, hne _ hnil⟩
        unfold isTag
        rw [String.toList_ofList]
        simp only [Bool.and_eq_true, List.all_eq_true, bne_iff_ne]
        exact ⟨⟨⟨hstart, hword⟩, hne _ hinf⟩, hne _ hnan⟩

/-- What a token that starts with a character can be: a parenthesis if that is the character, a
scalar, or a bare word that is a tag and not the word for nil. -/
theorem token_cases {c : Char} {rest : List Char} {token : Token}
    (hread : (atStart c rest).token = some token) :
    (c = '(' ∧ token = .openParen) ∨ (c = ')' ∧ token = .closeParen) ∨
      (∃ value, token = .scalar value) ∨
      ∃ name, token = .ident name ∧ isTag name = true ∧ name ≠ "nil" := by
  have hscalar (hvalue : ∃ value, token = .scalar value) :
      (c = '(' ∧ token = .openParen) ∨ (c = ')' ∧ token = .closeParen) ∨
        (∃ value, token = .scalar value) ∨
        ∃ name, token = .ident name ∧ isTag name = true ∧ name ≠ "nil" :=
    Or.inr (Or.inr (Or.inl hvalue))
  unfold atStart at hread
  split at hread
  · exact Or.inl ⟨by assumption, (Option.some.inj hread).symm⟩
  · split at hread
    · exact Or.inr (Or.inl ⟨by assumption, (Option.some.inj hread).symm⟩)
    · split at hread
      · exact hscalar (ofQuoted_token hread)
      · split at hread
        · split at hread
          · exact hscalar (ofQuoted_token hread)
          · split at hread
            · cases hread
            · exact hscalar ⟨_, (Option.some.inj hread).symm⟩
        · split at hread
          · rename_i hstart
            obtain rfl := Option.some.inj hread
            exact Or.inr (Or.inr (ofWord_cases hstart
              fun d hd => List.all_eq_true.mp List.all_takeWhile d hd))
          · split at hread
            · split at hread
              · exact hscalar ⟨_, (Option.some.inj hread).symm⟩
              · split at hread
                · cases hread
                · exact hscalar (ofNumber_token hread)
            · split at hread
              · exact hscalar (ofNumber_token hread)
              · cases hread

end Match

namespace Scan

/-- Every token of a scan starts with a character of the text. -/
theorem exists_atStart_of_mem (offset : Nat) (chars : List Char) :
    ∀ lexeme ∈ (fromOffset offset chars).lexemes,
      ∃ c rest, (Match.atStart c rest).token = some lexeme.token := by
  fun_induction fromOffset offset chars with
  | case1 => exact List.forall_mem_nil _
  | case2 => exact List.forall_mem_nil _
  | case3 offset chars c rest _ found first stop token htoken later ih =>
    exact List.forall_mem_cons.mpr ⟨⟨c, rest, htoken⟩, ih⟩

/-- Every bare word of a scan is a tag, and not the word for nil. -/
theorem isTag_of_mem {offset : Nat} {chars : List Char} :
    ∀ lexeme ∈ (fromOffset offset chars).lexemes, ∀ name, lexeme.token = .ident name →
      isTag name = true ∧ name ≠ "nil" := by
  intro lexeme hmem name hname
  obtain ⟨c, rest, htoken⟩ := exists_atStart_of_mem offset chars lexeme hmem
  rw [hname] at htoken
  rcases Match.token_cases htoken with
    ⟨-, hopen⟩ | ⟨-, hclose⟩ | ⟨value, hscalar⟩ | ⟨_, hident, htag⟩
  · cases hopen
  · cases hclose
  · cases hscalar
  · rw [Token.ident.inj hident]
    exact htag

end Scan

namespace Reader

/-- Derived trees have the tags that their tokens name. -/
theorem Derives.isTag_of_mem_tags {index : LineIndex} {lexemes : List Lexeme} {trees : List Tree}
    (hderives : Derives index lexemes trees)
    (hwords : ∀ lexeme ∈ lexemes, ∀ name, lexeme.token = .ident name → isTag name = true) :
    ∀ tag ∈ Tree.tagsAll trees, isTag tag = true := by
  induction hderives with
  | nil => exact fun tag htag => nomatch htag
  | leaf value first stop _ ih =>
    exact ih (fun lexeme hmem => hwords lexeme (List.mem_cons_of_mem _ hmem))
  | node first afterFirst tagFirst tagStop last stop hnames _ _ ihinner ihlater =>
    intro tag htag
    rcases List.mem_append.mp htag with htag | htag
    · rcases List.mem_cons.mp htag with rfl | htag
      · cases hnames with
        | ident => exact hwords ⟨.ident tag, tagFirst, tagStop⟩ (by simp) tag rfl
        | nil => decide
      · exact ihinner (fun lexeme hmem => hwords lexeme (by simp [hmem])) tag htag
    · exact ihlater (fun lexeme hmem => hwords lexeme (by simp [hmem])) tag htag

end Reader

/-- A successful reading found tokens that derive the forms of its tree. -/
theorem derives_of_readText {path text : String} {t : Tree} (hread : readText path text = .ok t) :
    ∃ forms, Reader.document forms = t ∧
      Reader.Derives (LineIndex.ofChars text.toList) (Scan.ofChars text.toList).lexemes forms ∧
      ∀ form ∈ forms, form.isNode = true := by
  unfold readText at hread
  dsimp only at hread
  split at hread
  · cases hread
  · split at hread
    · rename_i forms hforms
      obtain ⟨hderives, hnodes⟩ := Reader.derives_of_read hforms
      exact ⟨forms, Except.ok.inj hread, hderives, hnodes⟩
    · cases hread

/-- A document is its only form or a node around all of them. -/
theorem Reader.document_cases (forms : List Tree) :
    forms = [Reader.document forms] ∨
      ∃ location, Reader.document forms = .node "begin" forms location := by
  unfold Reader.document
  split
  · exact Or.inl rfl
  · exact Or.inr ⟨_, rfl⟩

/-- A tree that was read is a node. -/
theorem isNode_of_readText {path text : String} {t : Tree} (hread : readText path text = .ok t) :
    t.isNode = true := by
  obtain ⟨forms, rfl, -, hnodes⟩ := derives_of_readText hread
  rcases Reader.document_cases forms with hsingle | ⟨location, hbegin⟩
  · apply hnodes
    rw [hsingle]
    exact List.mem_singleton.mpr (congrArg _ hsingle.symm)
  · rw [hbegin]
    rfl

/-- The tags of a tree that was read can be read. -/
theorem readable_of_readText {path text : String} {t : Tree}
    (hread : readText path text = .ok t) : t.Readable := by
  obtain ⟨forms, rfl, hderives, -⟩ := derives_of_readText hread
  have htags := hderives.isTag_of_mem_tags
    fun lexeme hmem name hname => (Scan.isTag_of_mem lexeme hmem name hname).1
  intro tag htag
  rcases Reader.document_cases forms with hsingle | ⟨location, hbegin⟩
  · apply htags
    rw [hsingle]
    exact List.mem_append_left _ htag
  · rw [hbegin] at htag
    rcases List.mem_cons.mp htag with rfl | htag
    · decide
    · exact htags tag htag

end PhasedTests
