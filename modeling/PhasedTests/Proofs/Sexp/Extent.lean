import PhasedTests.Proofs.Sexp.Acceptance
import PhasedTests.Proofs.Sexp.Cut
import PhasedTests.Test.Context

/-!
# The text of a node

The span of a node that was read delimits the node's own text: this text, read alone, is the node
again, and the texts of its child nodes stand in it one behind the other. This holds of the node
that covers several forms too, which spans from the first parenthesis to the last.
-/

namespace PhasedTests

namespace Reader

variable {index : LineIndex}

/-- The same tokens derive trees of the same shape in any text. -/
theorem Derives.exists_of_tokens {lexemes : List Lexeme} {trees : List Tree}
    (hderives : Derives index lexemes trees) (index' : LineIndex) {others : List Lexeme}
    (htokens : others.map Lexeme.token = lexemes.map Lexeme.token) :
    ∃ found, Derives index' others found ∧ Tree.bareAll found = Tree.bareAll trees := by
  induction hderives generalizing others with
  | nil =>
    obtain rfl := List.map_eq_nil_iff.mp htokens
    exact ⟨[], .nil, rfl⟩
  | leaf value first stop _ ih =>
    obtain ⟨⟨_, first, stop⟩, later, rfl, htoken, hlater⟩ := List.map_eq_cons_iff.mp htokens
    obtain rfl : _ = Token.scalar value := htoken
    obtain ⟨found, hfound, hshape⟩ := ih hlater
    exact ⟨_, .leaf value first stop hfound, congrArg (_ :: ·) hshape⟩
  | @node token tag inner later children trees first afterFirst tagFirst tagStop last stop hnames
      _ _ ihinner ihlater =>
    obtain ⟨⟨_, first, afterFirst⟩, rest, rfl, hopen, hrest⟩ := List.map_eq_cons_iff.mp htokens
    obtain ⟨⟨_, tagFirst, tagStop⟩, rest, rfl, hname, hrest⟩ := List.map_eq_cons_iff.mp hrest
    rw [List.map_append] at hrest
    obtain ⟨inner, rest, rfl, hinner, hrest⟩ := List.map_eq_append_iff.mp hrest
    obtain ⟨⟨_, last, stop⟩, rest, rfl, hclose, hlater⟩ := List.map_eq_cons_iff.mp hrest
    obtain rfl : _ = Token.openParen := hopen
    obtain rfl : _ = token := hname
    obtain rfl : _ = Token.closeParen := hclose
    obtain ⟨nodes, hnodes, hchildren⟩ := ihinner hinner
    obtain ⟨found, hfound, hshape⟩ := ihlater hlater
    refine ⟨_, .node first afterFirst tagFirst tagStop last stop hnames hnodes hfound, ?_⟩
    rw [Tree.bareAll, Tree.bareAll, Tree.bare, Tree.bare, hchildren, hshape]

/-- No trees are derived from no tokens. -/
theorem Derives.eq_nil {lexemes : List Lexeme} (hderives : Derives index lexemes []) :
    lexemes = [] := by
  cases hderives
  rfl

/-- The nodes among derived trees span stretches that follow one another between any bounds of the
tokens. -/
theorem Derives.exists_spans {lexemes : List Lexeme} {trees : List Tree} {lower upper : Nat}
    (hderives : Derives index lexemes trees) (hordered : Ordered lexemes)
    (hbounds : ∀ lexeme ∈ lexemes, lower ≤ lexeme.first ∧ lexeme.stop ≤ upper) :
    ∃ spans : List Span, (Tree.nodesOf trees).map Tree.location = spans.map some ∧
      spans.Pairwise (fun a b => a.stop ≤ b.first) ∧
      ∀ span ∈ spans, lower ≤ span.first ∧ span.first < span.stop ∧ span.stop ≤ upper := by
  induction hderives generalizing lower with
  | nil => exact ⟨[], rfl, .nil, List.forall_mem_nil _⟩
  | leaf value first stop _ ih =>
    exact ih (hordered.sublist (List.sublist_cons_self _ _))
      fun lexeme hmem => hbounds lexeme (List.mem_cons_of_mem _ hmem)
  | @node token tag inner later children trees first afterFirst tagFirst tagStop last stop hnames
      _ _ _ ihlater =>
    have hsplit : (⟨.openParen, first, afterFirst⟩ :: ⟨token, tagFirst, tagStop⟩ ::
        (inner ++ ⟨.closeParen, last, stop⟩ :: later) : List Lexeme) =
        ⟨.openParen, first, afterFirst⟩ :: ((⟨token, tagFirst, tagStop⟩ :: inner) ++
          [⟨.closeParen, last, stop⟩]) ++ later := by simp
    rw [hsplit] at hordered hbounds
    have hnode := (hordered.sublist (List.sublist_append_left _ _)).bounds.1
    have hfirst := (hbounds ⟨.openParen, first, afterFirst⟩ (by simp)).1
    have hstop := (hbounds ⟨.closeParen, last, stop⟩ (by simp)).2
    have hlater : ∀ lexeme ∈ later, stop ≤ lexeme.first ∧ lexeme.stop ≤ upper := fun lexeme hmem =>
      ⟨(List.pairwise_append.mp hordered.1).2.2 ⟨.closeParen, last, stop⟩ (by simp) lexeme hmem,
        (hbounds lexeme (List.mem_append_right _ hmem)).2⟩
    obtain ⟨spans, hspans, hpairs, hwithin⟩ :=
      ihlater (hordered.sublist (List.sublist_append_right _ _)) hlater
    refine ⟨index.span first stop :: spans, congrArg (_ :: ·) hspans,
      List.pairwise_cons.mpr ⟨fun span hmem => (hwithin span hmem).1, hpairs⟩,
      List.forall_mem_cons.mpr ⟨⟨hfirst, hnode, hstop⟩, fun span hmem => ?_⟩⟩
    obtain ⟨hbehind, hspan⟩ := hwithin span hmem
    exact ⟨((Nat.le_of_lt hnode).trans hbehind).trans' hfirst, hspan⟩

/-- In derived trees the span of a node lies within that of every node around it. -/
theorem Derives.within_of_inside {lexemes : List Lexeme} {trees : List Tree} {t u v : Tree}
    (hderives : Derives index lexemes trees) (hordered : Ordered lexemes) (ht : t ∈ trees)
    (hu : Tree.Inside u t) (hv : Tree.NodeInside v u) :
    ∃ place span, u.location = some place ∧ v.location = some span ∧
      place.first ≤ span.first ∧ span.first < span.stop ∧ span.stop ≤ place.stop := by
  obtain ⟨around, haround, hderives⟩ := hderives.exists_stretch t ht u hu hv.isNode_around
  obtain ⟨own, hown, hinner⟩ :=
    hderives.exists_stretch u List.mem_cons_self v hv.inside hv.isNode
  obtain ⟨opening, name, middle, closing, rfl, -, -, -, hplace⟩ :=
    hderives.exists_of_node hv.isNode_around
  obtain ⟨first, innerName, inner, last, rfl, -, -, -, hspan⟩ := hinner.exists_of_node hv.isNode
  have haroundOrdered := hordered.sublist haround.sublist
  have hbounds := (@Ordered.bounds (name :: middle) _ _ haroundOrdered).2
  have hfirst := hbounds first (hown.subset (by simp))
  have hlast := hbounds last (hown.subset (by simp))
  have hless := (@Ordered.bounds (innerName :: inner) _ _
    (haroundOrdered.sublist hown.sublist)).1
  exact ⟨_, _, hplace, hspan, hfirst.1, hless, hlast.2⟩

/-! ## Documents -/

/-- Forms of the same shapes make documents of the same shape. -/
theorem bare_document {forms others : List Tree}
    (hshape : Tree.bareAll forms = Tree.bareAll others) :
    (document forms).bare = (document others).bare := by
  match forms, others, hshape with
  | [], [], _ => rfl
  | [a], [b], hshape => exact (List.cons.inj hshape).1
  | _ :: _ :: _, _ :: _ :: _, hshape => exact congrArg (Tree.node "begin" · none) hshape
  | [], _ :: _, hshape => cases hshape
  | _ :: _, [], hshape => cases hshape
  | [_], _ :: _ :: _, hshape => cases (List.cons.inj hshape).2
  | _ :: _ :: _, [_], hshape => cases (List.cons.inj hshape).2

/-- Several forms are covered from the first one to the last one. -/
theorem document_cons_append {first last : Tree} (between : List Tree) {begins ends : Span}
    (hfirst : first.location = some begins) (hlast : last.location = some ends) :
    document (first :: (between ++ [last])) =
      .node "begin" (first :: (between ++ [last])) (some (begins.cover ends)) := by
  obtain ⟨second, others, hothers⟩ : ∃ second others, between ++ [last] = second :: others :=
    List.exists_cons_of_ne_nil (by simp)
  have hend : (first :: (second :: others)).getLast? = some last := by
    rw [← hothers, ← List.cons_append, List.getLast?_append]
    rfl
  rw [hothers, document]
  · simp only [hend, List.head?_cons, Option.bind_eq_bind, Option.bind_some, hfirst, hlast]
    rfl
  · intro form hsingle
    cases hsingle

/-- The tokens of a node: from its opening to its closing parenthesis, with those of its children
among them, and alone a document that is the node. -/
structure Covers (index : LineIndex) (own : List Lexeme) (u : Tree) : Prop where
  ends : ∃ opening inner closing, own = opening :: (inner ++ [closing]) ∧
    closing.token = .closeParen ∧ u.location = some (index.span opening.first closing.stop)
  children : ∃ inner, inner.Sublist own ∧ Derives index inner u.children
  forms : ∃ forms, Derives index own forms ∧ (∀ form ∈ forms, form.isNode = true) ∧
    document forms = u

private theorem Derives.covers {own : List Lexeme} {u : Tree} (hderives : Derives index own [u])
    (hnode : u.isNode = true) : Covers index own u := by
  obtain ⟨opening, name, inner, closing, rfl, -, hclose, hinner, hlocation⟩ :=
    hderives.exists_of_node hnode
  refine ⟨⟨opening, name :: inner, closing, rfl, hclose, hlocation⟩, ⟨inner, ?_, hinner⟩,
    [u], hderives, by simpa using hnode, rfl⟩
  exact ((List.sublist_append_left inner [closing]).cons name).cons opening

/-- The tokens of several forms are those of the node that covers them. -/
theorem Derives.covers_document {lexemes : List Lexeme} {first last : Tree} {between : List Tree}
    (hderives : Derives index lexemes (first :: (between ++ [last])))
    (hnodes : ∀ form ∈ first :: (between ++ [last]), form.isNode = true)
    (hordered : Ordered lexemes) :
    Covers index lexemes (document (first :: (between ++ [last]))) := by
  have hforms : Derives index lexemes ([first] ++ (between ++ [last])) := hderives
  obtain ⟨head, later, rfl, hhead, hlater⟩ := exists_append hforms
  obtain ⟨middle, tail, rfl, -, htail⟩ := exists_append hlater
  obtain ⟨headOpen, name, inner, headClose, rfl, -, -, -, hfirst⟩ :=
    hhead.exists_of_node (hnodes first List.mem_cons_self)
  obtain ⟨tailOpen, tailName, tailInner, tailClose, rfl, -, hclose, -, hlast⟩ :=
    htail.exists_of_node (hnodes last (by simp))
  have hheadOrdered : Ordered (headOpen :: ((name :: inner) ++ [headClose])) :=
    hordered.sublist (List.sublist_append_left _ _)
  have htailOrdered : Ordered (tailOpen :: ((tailName :: tailInner) ++ [tailClose])) :=
    hordered.sublist ((List.sublist_append_right middle _).trans (List.sublist_append_right _ _))
  have hbegin := hheadOrdered.bounds.1
  have hend := htailOrdered.bounds.1
  have hbetween := (List.pairwise_append.mp hordered.1).2.2 headClose (by simp) tailOpen (by simp)
  have hwhole := document_cons_append between hfirst hlast
  rw [LineIndex.cover_span index hbegin hend, Nat.min_eq_left (by omega),
    Nat.max_eq_right (by omega)] at hwhole
  refine ⟨⟨headOpen, name :: (inner ++ [headClose]) ++ middle ++ tailOpen :: tailName :: tailInner,
    tailClose, by simp, hclose, congrArg Tree.location hwhole⟩, ⟨_, .refl _, ?_⟩, _, hderives,
    hnodes, rfl⟩
  rw [hwhole]
  exact hderives

/-- Every node of a document with a form is covered by a stretch of the tokens. -/
theorem Derives.exists_covers {lexemes : List Lexeme} {forms : List Tree}
    (hderives : Derives index lexemes forms) (hnodes : ∀ form ∈ forms, form.isNode = true)
    (hforms : forms ≠ []) (hordered : Ordered lexemes) {path : List Nat} {u : Tree}
    (hdig : (document forms).dig? path = some u) :
    ∃ own, own <:+: lexemes ∧ Covers index own u := by
  have hinner (form : Tree) (hform : form ∈ forms) (hinside : Tree.Inside u form)
      (hnode : u.isNode = true) : ∃ own, own <:+: lexemes ∧ Covers index own u := by
    obtain ⟨own, hstretch, hown⟩ := hderives.exists_stretch form hform u hinside hnode
    exact ⟨own, hstretch, hown.covers hnode⟩
  have hinside := Tree.inside_of_dig? hdig
  match forms, hforms with
  | [form], _ =>
    exact hinner form List.mem_cons_self hinside
      (Tree.isNode_of_dig? (hnodes form List.mem_cons_self) hdig)
  | first :: second :: rest, _ =>
    have hwhole : Covers index lexemes (document (first :: second :: rest)) := by
      rw [← List.dropLast_append_getLast (l := second :: rest) (by simp)] at hderives hnodes ⊢
      exact hderives.covers_document hnodes hordered
    rcases document_cases (first :: second :: rest) with hsingle | ⟨location, hbegin⟩
    · cases (List.cons.inj hsingle).2
    · have hnode : u.isNode = true := Tree.isNode_of_dig? (by rw [hbegin]; rfl) hdig
      rw [hbegin] at hinside hwhole
      cases hinside with
      | self => exact ⟨lexemes, List.infix_rfl, hwhole⟩
      | child hform hinside => exact hinner _ hform hinside hnode

end Reader

namespace Scan

/-- The tokens of a scan from one on up to a closing parenthesis take a stretch of the text that is
scanned alone as these tokens. -/
theorem exists_own {chars : List Char} {lexemes inner : List Lexeme} {opening closing : Lexeme}
    (hscan : ofChars chars = ⟨lexemes, none⟩) (hclose : closing.token = .closeParen)
    (hstretch : opening :: (inner ++ [closing]) <:+: lexemes) :
    ∃ before body after, chars = before ++ (body ++ [')']) ++ after ∧
      opening.first = byteLength before ∧
      closing.stop = byteLength (before ++ (body ++ [')'])) ∧
      Closed (body ++ [')']) ((opening :: (inner ++ [closing])).map Lexeme.token) := by
  obtain ⟨earlier, later, rfl⟩ := hstretch
  have hstart : fromOffset 0 chars =
      ⟨earlier ++ opening :: (inner ++ closing :: later), none⟩ := by
    rw [← ofChars, hscan]
    simp
  obtain ⟨before, rest, rfl, hfirst, hrest⟩ := exists_drop hstart
  rw [← List.cons_append] at hrest
  obtain ⟨body, after, rfl, hlast, hstop, hclosed⟩ := exists_closed hclose hrest
  have hparen : byteLength [')'] = 1 := rfl
  refine ⟨before, body, after, by simp, by omega, ?_, ?_⟩
  · rw [byteLength_append, byteLength_append, hparen]
    omega
  · simpa [hclose] using hclosed

end Scan

/-! ## Reading the text of a node -/

/-- A text that is read holds nothing but tokens and gaps. -/
theorem stray_eq_none_of_readText {path text : String} {t : Tree}
    (hread : readText path text = .ok t) : (Scan.ofChars text.toList).stray = none := by
  unfold readText at hread
  dsimp only at hread
  split at hread
  · cases hread
  · assumption

/-- A closed text whose tokens are those of some forms is read as a document of the same shape. -/
theorem readText_of_closed {index : LineIndex} {chars : List Char} {own : List Lexeme}
    {forms : List Tree} (hclosed : Scan.Closed chars (own.map Lexeme.token))
    (hderives : Reader.Derives index own forms) (hnodes : ∀ form ∈ forms, form.isNode = true)
    (path : String) :
    ∃ found, readText path (String.ofList chars) = .ok found ∧
      found.bare = (Reader.document forms).bare := by
  obtain ⟨lexemes, htokens, hscan⟩ := hclosed.ofChars
  obtain ⟨others, hothers, hshape⟩ :=
    hderives.exists_of_tokens (.ofChars chars) htokens
  have hsame : others.map Tree.bare = forms.map Tree.bare := by
    rw [← Tree.bareAll_eq_map, hshape, Tree.bareAll_eq_map]
  have hothersNodes : ∀ form ∈ others, form.isNode = true := by
    intro form hform
    have hmem : form.bare ∈ forms.map Tree.bare := hsame ▸ List.mem_map_of_mem hform
    obtain ⟨other, hother, hbare⟩ := List.mem_map.mp hmem
    rw [← Tree.isNode_bare, ← hbare, Tree.isNode_bare]
    exact hnodes other hother
  refine ⟨Reader.document others, ?_, Reader.bare_document hshape⟩
  have hread := Reader.read_forms_of_derives hothers hothersNodes []
  rw [readText_eq path (by rw [String.toList_ofList, hscan]), String.toList_ofList, hscan, hread]
  rfl

/-- The location of a node delimits the node's own text. In a text with at least one form, every
node at every path has a span, whose start and finish are the positions of its first and its last
byte. The text between, which is the node's source text, is read alone as a tree of the node's
shape. The spans of its child nodes lie within its own and follow one another in order. -/
theorem readText_location {path text : String} {t u : Tree} {steps : List Nat}
    (hread : readText path text = .ok t) (hforms : (Scan.ofChars text.toList).lexemes ≠ [])
    (hdig : t.dig? steps = some u) :
    ∃ before body after span, text.toList = before ++ (body ++ [')']) ++ after ∧
      u.location = some span ∧
      span.first = byteLength before ∧ span.stop = byteLength (before ++ (body ++ [')'])) ∧
      span.start = .behind before ∧ span.finish = .behind (before ++ body) ∧
      sliceBytes? text.toList span.first span.stop = some (body ++ [')']) ∧
      (Context.ofText text).sourceText u = String.ofList (body ++ [')']) ∧
      (∀ name, ∃ found, readText name (String.ofList (body ++ [')'])) = .ok found ∧
        found.bare = u.bare) ∧
      ∃ spans : List Span, u.childNodes.map Tree.location = spans.map some ∧
        spans.Pairwise (fun a b => a.stop ≤ b.first) ∧
        ∀ inner ∈ spans, span.first ≤ inner.first ∧ inner.first < inner.stop ∧
          inner.stop ≤ span.stop := by
  obtain ⟨forms, rfl, hderives, hnodes⟩ := derives_of_readText hread
  have hscan : Scan.ofChars text.toList = ⟨(Scan.ofChars text.toList).lexemes, none⟩ := by
    rw [← stray_eq_none_of_readText hread]
  have hordered : Ordered (Scan.ofChars text.toList).lexemes :=
    (Scan.ordered_of_fromOffset hscan).1
  have hsome : forms ≠ [] := by
    rintro rfl
    exact hforms hderives.eq_nil
  obtain ⟨own, hstretch, ⟨⟨opening, inner, closing, rfl, hclose, hlocation⟩,
    ⟨middle, hmiddle, hchildren⟩, others, hothers, hothersNodes, rfl⟩⟩ :=
    hderives.exists_covers hnodes hsome hordered hdig
  obtain ⟨before, body, after, htext, hfirst, hstop, hclosed⟩ :=
    Scan.exists_own hscan hclose hstretch
  have hownOrdered := hordered.sublist hstretch.sublist
  obtain ⟨spans, hspans, hpairs, hwithin⟩ := hchildren.exists_spans (hownOrdered.sublist hmiddle)
    fun lexeme hmem => hownOrdered.bounds.2 lexeme (hmiddle.subset hmem)
  have hslice := sliceBytes?_append before (body ++ [')']) after
  rw [hfirst, hstop] at hwithin
  rw [hfirst, hstop, htext, LineIndex.span_closeParen] at hlocation
  rw [← htext] at hslice
  refine ⟨before, body, after, _, htext, hlocation, rfl, rfl, rfl, rfl, hslice, ?_, ?_, spans,
    hspans, hpairs, hwithin⟩
  · unfold Context.sourceText Context.ofText
    simp only [hlocation, Option.bind_eq_bind, Option.bind_some, hslice]
  · exact readText_of_closed hclosed hothers hothersNodes

private theorem scan_commented :
    Scan.ofChars "(a 1) ; (note\n(b \"x)\ny\" (c nan))".toList = ⟨[⟨.openParen, 0, 1⟩,
      ⟨.ident "a", 1, 2⟩, ⟨.scalar (.int 1), 3, 4⟩, ⟨.closeParen, 4, 5⟩, ⟨.openParen, 14, 15⟩,
      ⟨.ident "b", 15, 16⟩, ⟨.scalar (.text "x)\ny"), 17, 23⟩, ⟨.openParen, 24, 25⟩,
      ⟨.ident "c", 25, 26⟩, ⟨.scalar (.float (Float.ofBits 0x7FF8000000000000)), 27, 30⟩,
      ⟨.closeParen, 30, 31⟩, ⟨.closeParen, 31, 32⟩], none⟩ :=
  (Scan.fromOffset_of_token rfl rfl <| Scan.fromOffset_of_token rfl rfl <|
    Scan.fromOffset_of_token rfl rfl <| Scan.fromOffset_of_token rfl rfl <|
    Scan.fromOffset_of_token rfl rfl <| Scan.fromOffset_of_token rfl rfl <|
    Scan.fromOffset_of_token rfl rfl <| Scan.fromOffset_of_token rfl rfl <|
    Scan.fromOffset_of_token rfl rfl <| Scan.fromOffset_of_token rfl rfl <|
    Scan.fromOffset_of_token rfl rfl <| Scan.fromOffset_of_token rfl rfl <|
    Scan.fromOffset_nil _).trans rfl

private theorem readText_commented :
    readText "a.sexp" "(a 1) ; (note\n(b \"x)\ny\" (c nan))" = .ok (.node "begin"
      [.node "a" [.int 1] (some ⟨0, 5, ⟨1, 1⟩, ⟨1, 5⟩⟩),
        .node "b" [.text "x)\ny",
          .node "c" [.leaf (.float (Float.ofBits 0x7FF8000000000000))]
            (some ⟨24, 31, ⟨3, 4⟩, ⟨3, 10⟩⟩)]
          (some ⟨14, 32, ⟨2, 1⟩, ⟨3, 11⟩⟩)]
      (some ⟨0, 32, ⟨1, 1⟩, ⟨3, 11⟩⟩)) := by
  rw [readText_eq "a.sexp" (congrArg Scan.stray scan_commented), scan_commented]
  rfl

/-- A node behind a comment, with a string of two lines in it, among several forms. -/
theorem readText_location_commented :
    let text := "(a 1) ; (note\n(b \"x)\ny\" (c nan))"
    let u := Tree.node "b" [.text "x)\ny",
      .node "c" [.leaf (.float (Float.ofBits 0x7FF8000000000000))] (some ⟨24, 31, ⟨3, 4⟩, ⟨3, 10⟩⟩)]
      (some ⟨14, 32, ⟨2, 1⟩, ⟨3, 11⟩⟩)
    (∃ t, readText "a.sexp" text = .ok t ∧ t.dig? [1] = some u) ∧
      ∃ found, readText "b.sexp" ((Context.ofText text).sourceText u) = .ok found ∧
        found.bare = u.bare := by
  intro text u
  have hread : readText "a.sexp" text = .ok (.node "begin"
      [.node "a" [.int 1] (some ⟨0, 5, ⟨1, 1⟩, ⟨1, 5⟩⟩), u]
      (some ⟨0, 32, ⟨1, 1⟩, ⟨3, 11⟩⟩)) := readText_commented
  have hforms : (Scan.ofChars text.toList).lexemes ≠ [] := by
    intro hnone
    rw [scan_commented] at hnone
    cases hnone
  obtain ⟨before, body, after, span, -, -, -, -, -, -, -, hsource, hagain, -⟩ :=
    @readText_location _ _ _ _ [1] hread hforms rfl
  rw [hsource]
  exact ⟨⟨_, hread, rfl⟩, hagain "b.sexp"⟩

end PhasedTests
