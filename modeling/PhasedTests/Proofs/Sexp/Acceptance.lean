import PhasedTests.Proofs.Sexp.Document
import PhasedTests.Proofs.Sexp.Tag

/-!
# The reader accepts exactly the documents

A text whose characters are all tokens is read exactly if its tokens are a document, and then they
are the tokens of the forms that are read. Otherwise the reading stops at the first token behind
which no document goes on, or, if there is none, at the innermost parenthesis that is left open.
-/

namespace PhasedTests

/-! ## The tokens of a tree -/

/-- The token that names a tag. -/
def Token.ofTag (tag : String) : Token :=
  if tag = "nil" then .scalar .nil else .ident tag

namespace Tree

mutual

/-- A tree written as tokens. -/
def tokens : Tree → List Token
  | node tag children _ => .openParen :: .ofTag tag :: (tokensAll children ++ [.closeParen])
  | leaf value => [.scalar value]

/-- Trees written as tokens, one behind the other. -/
def tokensAll : List Tree → List Token
  | [] => []
  | t :: rest => tokens t ++ tokensAll rest

end

end Tree

namespace Reader

variable {index : LineIndex}

private theorem NamesTag.eq_ofTag {token : Token} {tag : String} (hnames : NamesTag token tag)
    (hnil : ∀ name, token = .ident name → name ≠ "nil") : token = .ofTag tag := by
  cases hnames with
  | ident => exact (if_neg (hnil tag rfl)).symm
  | nil => rfl

/-- Derived trees are written as the tokens that derive them. -/
theorem Derives.tokensAll_eq {lexemes : List Lexeme} {trees : List Tree}
    (hderives : Derives index lexemes trees)
    (hnil : ∀ lexeme ∈ lexemes, ∀ name, lexeme.token = .ident name → name ≠ "nil") :
    Tree.tokensAll trees = lexemes.map Lexeme.token := by
  induction hderives with
  | nil => rfl
  | leaf value first stop _ ih =>
    rw [Tree.tokensAll, ih fun lexeme hmem => hnil lexeme (List.mem_cons_of_mem _ hmem)]
    rfl
  | node first afterFirst tagFirst tagStop last stop hnames _ _ ihinner ihlater =>
    have htag := hnames.eq_ofTag (hnil ⟨_, tagFirst, tagStop⟩ (by simp))
    rw [Tree.tokensAll, Tree.tokens, ihinner fun lexeme hmem => hnil lexeme (by simp [hmem]),
      ihlater fun lexeme hmem => hnil lexeme (by simp [hmem]), ← htag]
    simp

/-! ## Documents are what derives nodes -/

private theorem Derives.mem_children {lexemes : List Lexeme} {trees : List Tree}
    (hderives : Derives index lexemes trees) :
    lexemes.map Lexeme.token ∈ Document.children := by
  induction hderives with
  | nil => exact Document.nil_mem_children
  | leaf value first stop _ ih => exact Document.append_mem_children (.scalar value) ih
  | node first afterFirst tagFirst tagStop last stop hnames _ _ ihinner ihlater =>
    have hnode := Document.isNode_iff.mpr ⟨_, _, _, rfl, hnames, ihinner⟩
    have hwhole := Document.append_mem_children (.node hnode) ihlater
    simpa using hwhole

/-- The tokens of nodes spell a word of the grammar. -/
theorem Derives.mem_words {lexemes : List Lexeme} {trees : List Tree}
    (hderives : Derives index lexemes trees) (hnodes : ∀ t ∈ trees, t.isNode = true) :
    lexemes.map Lexeme.token ∈ Document.words := by
  induction hderives with
  | nil => exact Language.nil_mem_kstar _
  | leaf value first stop _ _ => cases hnodes _ List.mem_cons_self
  | node first afterFirst tagFirst tagStop last stop hnames hinner _ _ ihlater =>
    have hnode := Document.isNode_iff.mpr ⟨_, _, _, rfl, hnames, hinner.mem_children⟩
    have hwhole := Document.append_mem_words hnode
      (ihlater fun t ht => hnodes t (List.mem_cons_of_mem _ ht))
    simpa using hwhole

/-- If the parts of a row derive one tree each, the row derives these trees. -/
private theorem exists_derives_of_parts {P : Tree → Prop} {parts : List (List Token)}
    (hparts : ∀ part ∈ parts, ∀ {lexemes : List Lexeme}, lexemes.map Lexeme.token = part →
      ∃ t, P t ∧ Derives index lexemes [t])
    {lexemes : List Lexeme} (htokens : lexemes.map Lexeme.token = parts.flatten) :
    ∃ trees, (∀ t ∈ trees, P t) ∧ Derives index lexemes trees := by
  induction parts generalizing lexemes with
  | nil =>
    obtain rfl := List.map_eq_nil_iff.mp htokens
    exact ⟨[], List.forall_mem_nil _, .nil⟩
  | cons part parts ih =>
    rw [List.flatten_cons] at htokens
    obtain ⟨first, later, rfl, hfirst, hlater⟩ := List.map_eq_append_iff.mp htokens
    obtain ⟨t, ht, hderives⟩ := hparts part List.mem_cons_self hfirst
    obtain ⟨trees, htrees, hothers⟩ :=
      ih (fun part hmem => hparts part (List.mem_cons_of_mem _ hmem)) hlater
    exact ⟨t :: trees, List.forall_mem_cons.mpr ⟨ht, htrees⟩, hderives.append hothers⟩

mutual

private theorem exists_derives_of_isNode : {tokens : List Token} → Document.IsNode tokens →
    ∀ {lexemes : List Lexeme}, lexemes.map Lexeme.token = tokens →
      ∃ t, t.isNode = true ∧ Derives index lexemes [t]
  | _, .parenthesized hnames hparts, lexemes, htokens => by
    obtain ⟨⟨_, first, afterFirst⟩, rest, rfl, hopen, hrest⟩ := List.map_eq_cons_iff.mp htokens
    obtain ⟨⟨_, tagFirst, tagStop⟩, rest, rfl, hname, hrest⟩ := List.map_eq_cons_iff.mp hrest
    obtain ⟨inner, rest, rfl, hinner, hrest⟩ := List.map_eq_append_iff.mp hrest
    obtain ⟨⟨_, last, stop⟩, rfl, hclose⟩ := List.map_eq_singleton_iff.mp hrest
    obtain ⟨children, -, hchildren⟩ := exists_derives_of_parts (P := fun _ => True)
      (fun part hmem _ hlexemes =>
        (exists_derives_of_isChild (hparts part hmem) hlexemes).imp fun _ h => ⟨trivial, h⟩) hinner
    obtain rfl : _ = Token.openParen := hopen
    obtain rfl : _ = Token.closeParen := hclose
    dsimp only at hname
    subst hname
    exact ⟨_, rfl, .node first afterFirst tagFirst tagStop last stop hnames hchildren .nil⟩

private theorem exists_derives_of_isChild : {tokens : List Token} → Document.IsChild tokens →
    ∀ {lexemes : List Lexeme}, lexemes.map Lexeme.token = tokens →
      ∃ t, Derives index lexemes [t]
  | _, .node hnode, _, htokens => (exists_derives_of_isNode hnode htokens).imp fun _ h => h.2
  | _, .scalar value, _, htokens => by
    obtain ⟨⟨_, first, stop⟩, rfl, htoken⟩ := List.map_eq_singleton_iff.mp htokens
    obtain rfl : _ = Token.scalar value := htoken
    exact ⟨_, .leaf value first stop .nil⟩

end

/-- A reading succeeds exactly on documents. -/
theorem exists_read_iff (index : LineIndex) {lexemes : List Lexeme} :
    (∃ forms, read index [] [] lexemes = .ok forms) ↔
      lexemes.map Lexeme.token ∈ Document.words := by
  constructor
  · rintro ⟨forms, hread⟩
    obtain ⟨hderives, hnodes⟩ := derives_of_read hread
    exact hderives.mem_words hnodes
  · intro hword
    obtain ⟨parts, htokens, hparts⟩ := Language.mem_kstar.mp hword
    obtain ⟨trees, hnodes, hderives⟩ := exists_derives_of_parts
      (fun part hmem _ hlexemes => exists_derives_of_isNode (hparts part hmem) hlexemes) htokens
    exact ⟨_, read_forms_of_derives hderives hnodes []⟩

end Reader

/-! ## Parentheses -/

namespace Token

/-- Whether the token opens a parenthesis. -/
def opens : Token → Bool
  | openParen => true
  | _ => false

/-- Whether the token closes a parenthesis. -/
def closes : Token → Bool
  | closeParen => true
  | _ => false

end Token

/-- The tokens close every parenthesis that they open, and `count` parentheses before them. -/
def Closes (count : Nat) (tokens : List Token) : Prop :=
  tokens.countP Token.closes = tokens.countP Token.opens + count ∧
    ∀ before, before <+: tokens →
      before.countP Token.closes ≤ before.countP Token.opens + count

namespace Closes

/-- No tokens close all that they open. -/
theorem nil : Closes 0 [] := by
  refine ⟨rfl, fun before hbefore => ?_⟩
  rw [List.prefix_nil.mp hbefore]
  exact Nat.le_refl 0

/-- One more token in front opens a parenthesis, closes one or does neither. -/
theorem cons {token : Token} {tokens : List Token} {count later : Nat}
    (hcloses : Closes later tokens)
    (hstep : count + (if token.opens then 1 else 0) = later + (if token.closes then 1 else 0)) :
    Closes count (token :: tokens) := by
  obtain ⟨htotal, hbelow⟩ := hcloses
  refine ⟨?_, fun before hbefore => ?_⟩
  · rw [List.countP_cons, List.countP_cons]
    omega
  · rcases List.prefix_cons_iff.mp hbefore with rfl | ⟨rest, rfl, hrest⟩
    · exact Nat.zero_le _
    · have hcount := hbelow rest hrest
      rw [List.countP_cons, List.countP_cons]
      omega

end Closes

namespace Reader

open Document

/-! ## Where a reading stops -/

/-- The token at `offset` is the first one behind which `count` open nodes cannot be completed. -/
def Misplaced (count : Nat) (lexemes : List Lexeme) (offset : Nat) : Prop :=
  ∃ before lexeme after, lexemes = before ++ lexeme :: after ∧
    (∃ later, Completes count (before.map Lexeme.token ++ later)) ∧
    (∀ later, ¬Completes count (before.map Lexeme.token ++ lexeme.token :: later)) ∧
    lexeme.first = offset

/-- The tokens can be completed, and `offset` is where the innermost node starts that they leave
open, be it one of their own or one of those that start at `starts`. -/
def LeftOpen (starts : List Nat) (lexemes : List Lexeme) (offset : Nat) : Prop :=
  (∃ later, Completes starts.length (lexemes.map Lexeme.token ++ later)) ∧
    ((∃ before paren after, lexemes = before ++ paren :: after ∧ paren.token = .openParen ∧
        Closes 0 (after.map Lexeme.token) ∧ paren.first = offset) ∨
      ∃ depth, starts[depth]? = some offset ∧ Closes depth (lexemes.map Lexeme.token))

variable {index : LineIndex} {count : Nat} {starts : List Nat} {lexemes : List Lexeme}
  {offset : Nat}

/-- A token is misplaced if nothing goes on with it. -/
theorem Misplaced.head {lexeme : Lexeme}
    (hnone : ∀ later, ¬Completes count (lexeme.token :: later)) (after : List Lexeme) :
    Misplaced count (lexeme :: after) lexeme.first :=
  ⟨[], lexeme, after, rfl, exists_completes count, hnone, rfl⟩

/-- A misplaced token stays so behind tokens that lead from `count` to `later` open nodes. -/
theorem Misplaced.behind {later : Nat} (consumed : List Lexeme)
    (hmisplaced : Misplaced later lexemes offset)
    (hstep : ∀ rest, Completes count (consumed.map Lexeme.token ++ rest) ↔ Completes later rest) :
    Misplaced count (consumed ++ lexemes) offset := by
  obtain ⟨before, lexeme, after, rfl, ⟨rest, hrest⟩, hnone, hoffset⟩ := hmisplaced
  refine ⟨consumed ++ before, lexeme, after, by rw [List.append_assoc], ⟨rest, ?_⟩, ?_, hoffset⟩
  · rw [List.map_append, List.append_assoc]
    exact (hstep _).mpr hrest
  · intro rest hcompletes
    rw [List.map_append, List.append_assoc] at hcompletes
    exact hnone rest ((hstep _).mp hcompletes)

/-- A node that tokens leave open is left open behind the head of another node. -/
theorem LeftOpen.openParen {first afterFirst tagFirst tagStop : Nat} {token : Token} {tag : String}
    (hnames : NamesTag token tag) (hleft : LeftOpen (first :: starts) lexemes offset) :
    LeftOpen starts (⟨.openParen, first, afterFirst⟩ :: ⟨token, tagFirst, tagStop⟩ :: lexemes)
      offset := by
  have hplain : token.opens = false ∧ token.closes = false := by cases hnames <;> exact ⟨rfl, rfl⟩
  obtain ⟨⟨later, hlater⟩, hinnermost⟩ := hleft
  refine ⟨⟨later, completes_openParen.mpr ⟨⟨tag, hnames⟩, hlater⟩⟩, ?_⟩
  rcases hinnermost with ⟨before, paren, after, rfl, hparen, hcloses, hoffset⟩ |
    ⟨depth, hstart, hcloses⟩
  · exact Or.inl ⟨_ :: _ :: before, paren, after, rfl, hparen, hcloses, hoffset⟩
  · have htag : Closes depth (token :: lexemes.map Lexeme.token) :=
      hcloses.cons (by rw [hplain.1, hplain.2])
    cases depth with
    | zero => exact Or.inl ⟨[], _, _, rfl, rfl, htag, Option.some.inj hstart⟩
    | succ depth => exact Or.inr ⟨depth, hstart, htag.cons rfl⟩

/-- Behind a closing parenthesis the next node outwards is the innermost one. -/
theorem LeftOpen.closeParen {start first stop : Nat} (hleft : LeftOpen starts lexemes offset) :
    LeftOpen (start :: starts) (⟨.closeParen, first, stop⟩ :: lexemes) offset := by
  obtain ⟨⟨later, hlater⟩, hinnermost⟩ := hleft
  refine ⟨⟨later, completes_closeParen.mpr hlater⟩, ?_⟩
  rcases hinnermost with ⟨before, paren, after, rfl, hparen, hcloses, hoffset⟩ |
    ⟨depth, hstart, hcloses⟩
  · exact Or.inl ⟨_ :: before, paren, after, rfl, hparen, hcloses, hoffset⟩
  · exact Or.inr ⟨depth + 1, hstart, hcloses.cons rfl⟩

/-- A scalar leaves open what was open before it. -/
theorem LeftOpen.scalar {start first stop : Nat} {value : Scalar}
    (hleft : LeftOpen (start :: starts) lexemes offset) :
    LeftOpen (start :: starts) (⟨.scalar value, first, stop⟩ :: lexemes) offset := by
  obtain ⟨⟨later, hlater⟩, hinnermost⟩ := hleft
  refine ⟨⟨later, completes_scalar.mpr hlater⟩, ?_⟩
  rcases hinnermost with ⟨before, paren, after, rfl, hparen, hcloses, hoffset⟩ |
    ⟨depth, hstart, hcloses⟩
  · exact Or.inl ⟨_ :: before, paren, after, rfl, hparen, hcloses, hoffset⟩
  · exact Or.inr ⟨depth, hstart, hcloses.cons rfl⟩

/-- Placing a tree leaves the open nodes where they are. -/
private theorem first_of_place {t : Tree} {opened outer : List OpenNode} {forms others : List Tree}
    (hplace : place t opened forms = (outer, others)) :
    outer.map OpenNode.first = opened.map OpenNode.first := by
  cases opened with
  | nil =>
    obtain ⟨rfl, -⟩ := Prod.mk.inj hplace
    rfl
  | cons top rest =>
    obtain ⟨rfl, -⟩ := Prod.mk.inj hplace
    rfl

/-- A reading fails at a misplaced token, or at the innermost node that is left open. -/
theorem misplaced_or_leftOpen_of_read {opened : List OpenNode} {forms : List Tree}
    {failure : Failure} (hread : read index opened forms lexemes = .error failure) :
    Misplaced opened.length lexemes failure.offset ∨
      LeftOpen (opened.map OpenNode.first) lexemes failure.offset := by
  fun_induction read index opened forms lexemes with
  | case1 forms => cases hread
  | case2 forms top outer =>
    obtain rfl := Except.error.inj hread
    obtain ⟨later, hlater⟩ := exists_completes (outer.length + 1)
    refine Or.inr ⟨⟨later, ?_⟩, Or.inr ⟨0, rfl, .nil⟩⟩
    rw [List.length_map]
    exact hlater
  | case3 opened forms first stop =>
    obtain rfl := Except.error.inj hread
    obtain ⟨later, hlater⟩ := exists_completes ((opened.map OpenNode.first).length + 1)
    exact Or.inr ⟨⟨_ :: later, completes_openParen.mpr ⟨⟨_, .nil⟩, hlater⟩⟩,
      Or.inl ⟨[], _, [], rfl, rfl, .nil, rfl⟩⟩
  | case4 opened forms first afterFirst tag tagFirst tagStop rest ih =>
    rcases ih hread with hmisplaced | hleft
    · refine Or.inl (hmisplaced.behind [_, _] fun later => ?_)
      exact completes_openParen.trans (and_iff_right ⟨tag, .ident tag⟩)
    · exact Or.inr (hleft.openParen (.ident tag))
  | case5 opened forms first afterFirst tagFirst tagStop rest ih =>
    rcases ih hread with hmisplaced | hleft
    · refine Or.inl (hmisplaced.behind [_, _] fun later => ?_)
      exact completes_openParen.trans (and_iff_right ⟨"nil", .nil⟩)
    · exact Or.inr (hleft.openParen .nil)
  | case6 opened forms first afterFirst found offset stop rest hident hnil =>
    obtain rfl := Except.error.inj hread
    have huntagged : ∀ tag, ¬NamesTag found tag := by
      rintro tag (_ | _)
      · exact hident tag rfl
      · exact hnil rfl
    obtain ⟨later, hlater⟩ := exists_completes (opened.length + 1)
    exact Or.inl ⟨[_], _, rest, rfl, ⟨_ :: later, completes_openParen.mpr ⟨⟨_, .nil⟩, hlater⟩⟩,
      not_completes_untagged huntagged, rfl⟩
  | case7 forms offset stop rest =>
    obtain rfl := Except.error.inj hread
    exact Or.inl (.head (@not_completes_outside .closeParen nofun) rest)
  | case8 forms offset stop rest top outer t opened others hplace ih =>
    have hfirst := first_of_place hplace
    have hlength : opened.length = outer.length := by
      simpa using congrArg List.length hfirst
    rw [hfirst, hlength] at ih
    rcases ih hread with hmisplaced | hleft
    · exact Or.inl (hmisplaced.behind [_] fun later => completes_closeParen)
    · exact Or.inr hleft.closeParen
  | case9 forms value offset stop rest =>
    obtain rfl := Except.error.inj hread
    exact Or.inl (.head (@not_completes_outside (.scalar value) nofun) rest)
  | case10 forms value offset stop rest top outer ih =>
    rcases ih hread with hmisplaced | hleft
    · exact Or.inl (hmisplaced.behind [_] fun later => completes_scalar)
    · exact Or.inr hleft.scalar
  | case11 forms name offset stop rest =>
    obtain rfl := Except.error.inj hread
    exact Or.inl (.head (not_completes_ident 0 name) rest)
  | case12 forms name offset stop rest top outer =>
    obtain rfl := Except.error.inj hread
    exact Or.inl (.head (not_completes_ident _ name) rest)

end Reader

/-! ## Reading texts -/

/-- A text of tokens is read as the document of the forms that the reader returns, or fails as the
reader does. -/
theorem readText_eq (path : String) {text : String}
    (hplain : (Scan.ofChars text.toList).stray = none) :
    readText path text =
      match Reader.read (.ofChars text.toList) [] [] (Scan.ofChars text.toList).lexemes with
      | .ok forms => .ok (Reader.document forms)
      | .error failure =>
        .error ⟨path, (LineIndex.ofChars text.toList).position failure.offset, failure.fault⟩ := by
  unfold readText
  dsimp only
  split
  · rename_i stray hstray
    rw [hplain] at hstray
    cases hstray
  · rfl

/-- The reader accepts exactly its grammar. A text whose characters are all tokens is read exactly
if its tokens are a document. The forms that are read, written as tokens, are these tokens; one form
is the tree itself, and none or several are the children of a `begin`. When the text is not read,
the error stands at the first token with which the tokens no longer begin a document, or, if all of
them begin one, at the innermost parenthesis that they leave open. -/
theorem readText_document (path : String) {text : String}
    (hplain : (Scan.ofChars text.toList).stray = none) :
    let lexemes := (Scan.ofChars text.toList).lexemes
    let tokens := lexemes.map Lexeme.token
    let position := fun lexeme : Lexeme => (LineIndex.ofChars text.toList).position lexeme.first
    ((∃ t, readText path text = .ok t) ↔ tokens ∈ Document.words) ∧
      (∀ t, readText path text = .ok t → ∃ forms, (∀ form ∈ forms, form.isNode = true) ∧
        Tree.tokensAll forms = tokens ∧
        (forms = [t] ∨ forms.length ≠ 1 ∧ ∃ location, t = .node "begin" forms location)) ∧
      ∀ e, readText path text = .error e →
        (∃ before lexeme after, lexemes = before ++ lexeme :: after ∧
          Document.Extensible (before.map Lexeme.token) ∧
          ¬Document.Extensible (before.map Lexeme.token ++ [lexeme.token]) ∧
          e.position = position lexeme) ∨
        Document.Extensible tokens ∧ ∃ before paren after, lexemes = before ++ paren :: after ∧
          paren.token = .openParen ∧ Closes 0 (after.map Lexeme.token) ∧
          e.position = position paren := by
  intro lexemes tokens position
  have hread := readText_eq path hplain
  refine ⟨?_, ?_, ?_⟩
  · rw [← Reader.exists_read_iff (.ofChars text.toList), hread]
    cases Reader.read (.ofChars text.toList) [] [] lexemes with
    | ok forms => exact ⟨fun _ => ⟨forms, rfl⟩, fun _ => ⟨_, rfl⟩⟩
    | error failure => exact ⟨nofun, nofun⟩
  · intro t hdone
    obtain ⟨forms, rfl, hderives, hnodes⟩ := derives_of_readText hdone
    refine ⟨forms, hnodes,
      hderives.tokensAll_eq fun lexeme hmem name hname =>
        (Scan.isTag_of_mem lexeme hmem name hname).2, ?_⟩
    by_cases hsingle : forms = [Reader.document forms]
    · exact Or.inl hsingle
    · refine Or.inr ⟨fun hlength => ?_, (Reader.document_cases forms).resolve_left hsingle⟩
      obtain ⟨form, rfl⟩ := List.length_eq_one_iff.mp hlength
      exact hsingle rfl
  · intro e hfailed
    rw [hread] at hfailed
    split at hfailed
    · cases hfailed
    · rename_i failure hfailure
      obtain rfl := Except.error.inj hfailed
      rcases Reader.misplaced_or_leftOpen_of_read hfailure with
        ⟨before, lexeme, after, hsplit, hbegins, hnone, hoffset⟩ |
        ⟨hbegins, ⟨before, paren, after, hsplit, hparen, hcloses, hoffset⟩ | ⟨depth, hstart, -⟩⟩
      · refine Or.inl ⟨before, lexeme, after, hsplit, Document.extensible_iff.mpr hbegins, ?_, ?_⟩
        · intro hextensible
          obtain ⟨later, hlater⟩ := Document.extensible_iff.mp hextensible
          rw [List.append_assoc, List.singleton_append] at hlater
          exact hnone later hlater
        · exact congrArg (LineIndex.ofChars text.toList).position hoffset.symm
      · exact Or.inr ⟨Document.extensible_iff.mpr hbegins, before, paren, after, hsplit, hparen,
          hcloses, congrArg (LineIndex.ofChars text.toList).position hoffset.symm⟩
      · cases hstart

private theorem scan_bareWord :
    Scan.ofChars "(a (b 1) c)".toList = ⟨[⟨.openParen, 0, 1⟩, ⟨.ident "a", 1, 2⟩,
      ⟨.openParen, 3, 4⟩, ⟨.ident "b", 4, 5⟩, ⟨.scalar (.int 1), 6, 7⟩, ⟨.closeParen, 7, 8⟩,
      ⟨.ident "c", 9, 10⟩, ⟨.closeParen, 10, 11⟩], none⟩ :=
  (Scan.fromOffset_of_token rfl rfl <| Scan.fromOffset_of_token rfl rfl <|
    Scan.fromOffset_of_token rfl rfl <| Scan.fromOffset_of_token rfl rfl <|
    Scan.fromOffset_of_token rfl rfl <| Scan.fromOffset_of_token rfl rfl <|
    Scan.fromOffset_of_token rfl rfl <| Scan.fromOffset_of_token rfl rfl <|
    Scan.fromOffset_nil _).trans rfl

private theorem readText_bareWord :
    readText "a.sexp" "(a (b 1) c)" = .error ⟨"a.sexp", ⟨1, 10⟩, .bareWord "c"⟩ := by
  rw [readText_eq "a.sexp" (congrArg Scan.stray scan_bareWord), scan_bareWord]
  rfl

/-- A bare word among the children of a node: the node before it is read, and the error stands at
the word. -/
theorem readText_document_bareWord :
    let text := "(a (b 1) c)"
    let lexemes := (Scan.ofChars text.toList).lexemes
    (Scan.ofChars text.toList).stray = none ∧
      lexemes.map Lexeme.token ∉ Document.words ∧
      readText "a.sexp" text = .error ⟨"a.sexp", ⟨1, 10⟩, .bareWord "c"⟩ ∧
      ∃ before lexeme after, lexemes = before ++ lexeme :: after ∧
        Document.Extensible (before.map Lexeme.token) ∧
        ⟨1, 10⟩ = (LineIndex.ofChars text.toList).position lexeme.first := by
  intro text lexemes
  have hplain : (Scan.ofChars text.toList).stray = none := congrArg Scan.stray scan_bareWord
  have hfailed : readText "a.sexp" text = .error ⟨"a.sexp", ⟨1, 10⟩, .bareWord "c"⟩ :=
    readText_bareWord
  obtain ⟨hwords, -, herrors⟩ := readText_document "a.sexp" hplain
  refine ⟨hplain, fun hword => ?_, hfailed, ?_⟩
  · obtain ⟨t, hread⟩ := hwords.mpr hword
    cases hread.symm.trans hfailed
  · rcases herrors _ hfailed with ⟨before, lexeme, after, hsplit, hbegins, -, hposition⟩ |
      ⟨⟨word, hword, hbegins⟩, before, paren, after, hsplit, -, -, hposition⟩
    · exact ⟨before, lexeme, after, hsplit, hbegins, hposition⟩
    · refine ⟨before, paren, after, hsplit, ⟨word, hword, ?_⟩, hposition⟩
      rw [hsplit, List.map_append] at hbegins
      exact (List.prefix_append _ _).trans hbegins

end PhasedTests
