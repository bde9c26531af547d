import PhasedTests.Proofs.Sexp.Tag

/-!
# Where nodes are read

A gap and the characters that a token takes are the next characters of the text, so every token of
a scan stands at the offset that it names. A node is placed at its opening parenthesis, and a
document of several forms at the first of them, so a node starts on a line of the text.
-/

namespace PhasedTests

open Text

/-- The lines of a text. A final line feed ends the last line and starts no other. -/
def lineTotal (chars : List Char) : Nat :=
  chars.count '\n' + if chars.getLast?.all (· == '\n') then 0 else 1

example : lineTotal ['a', '\n', 'b'] = 2 ∧ lineTotal ['a', '\n'] = 1 ∧ lineTotal [] = 0 := by
  decide

/-- A character that is no line feed stands on one of the lines. -/
theorem line_le_lineTotal {before after : List Char} {c : Char} (hfeed : c ≠ '\n') :
    1 + before.count '\n' ≤ lineTotal (before ++ c :: after) := by
  unfold lineTotal
  rw [List.count_append, List.count_cons_of_ne hfeed]
  split
  · rename_i hlast
    cases hafter : after.getLast? with
    | none =>
      obtain rfl := List.getLast?_eq_none_iff.mp hafter
      simp [hfeed] at hlast
    | some d =>
      have hmem : d ∈ after := List.mem_of_getLast? hafter
      have hd : d = '\n' := by
        simpa [List.getLast?_append, List.getLast?_cons, hafter] using hlast
      have hcount : 0 < after.count '\n' := List.count_pos_iff.mpr (hd ▸ hmem)
      omega
  · omega

private theorem Text.Quoted.append_splitBody (chars : List Char) :
    (Quoted.splitBody chars).1 ++ (Quoted.splitBody chars).2 = chars := by
  fun_induction Quoted.splitBody chars with
  | case1 => rfl
  | case2 => rfl
  | case3 => rfl
  | case4 c rest _ body after hsplit ih =>
    rw [hsplit] at ih
    rw [← ih]
    rfl
  | case5 => rfl
  | case6 c rest _ _ _ body after hsplit ih =>
    rw [hsplit] at ih
    rw [← ih]
    rfl

namespace Match

/-- The fraction of a number is a prefix of what follows. -/
theorem prefix_fraction (rest : List Char) : fraction rest <+: rest := by
  unfold fraction
  split
  · rename_i rest
    have hdigits := List.takeWhile_prefix Numeral.isDigit (l := rest)
    split
    · exact List.nil_prefix
    · exact List.cons_prefix_cons.mpr ⟨rfl, hdigits⟩
  · exact List.nil_prefix

/-- The sign of an exponent is a prefix of what follows. -/
theorem prefix_sign (rest : List Char) : sign rest <+: rest := by
  unfold sign
  split <;> simp

/-- What follows a prefix of a text continues it. -/
private theorem prefix_append {first second chars : List Char} (hfirst : first <+: chars)
    (hsecond : second <+: chars.drop first.length) : first ++ second <+: chars := by
  obtain ⟨rest, rfl⟩ := hfirst
  rw [List.drop_left] at hsecond
  exact (List.prefix_append_right_inj first).mpr hsecond

private theorem prefix_exponent (rest : List Char) : exponent rest <+: rest := by
  unfold exponent
  split
  · rename_i c rest
    have hdigits := prefix_append (prefix_sign rest)
      (List.takeWhile_prefix Numeral.isDigit (l := rest.drop (sign rest).length))
    split
    · split
      · exact List.nil_prefix
      · exact List.cons_prefix_cons.mpr ⟨rfl, hdigits⟩
    · exact List.nil_prefix
  · exact List.nil_prefix

private theorem taken_ofNumber (negative : Bool) (whole rest : List Char) :
    ∃ cs, (ofNumber negative whole rest).taken =
      (if negative then ['-'] else []) ++ (whole ++ cs) ∧ cs <+: rest := by
  unfold ofNumber
  dsimp only
  split
  · exact ⟨[], by rw [List.append_nil], List.nil_prefix⟩
  · exact ⟨_, rfl, prefix_append (prefix_fraction rest)
      (prefix_exponent (rest.drop (fraction rest).length))⟩

private theorem taken_ofQuoted (opening rest : List Char) (scalar : String → Scalar) :
    ∃ cs, (ofQuoted opening rest scalar).taken = opening ++ cs ∧ cs <+: rest := by
  have hsplit := Quoted.append_splitBody rest
  unfold ofQuoted
  dsimp only
  split
  · rename_i after hafter
    refine ⟨_, rfl, after, ?_⟩
    rw [hafter] at hsplit
    rw [List.append_assoc]
    exact hsplit
  · exact ⟨_, rfl, _, hsplit⟩

/-- What a match takes are the next characters of the text, at least one. -/
theorem taken_eq (c : Char) (rest : List Char) :
    ∃ cs, (atStart c rest).taken = c :: cs ∧ cs <+: rest := by
  have hrun (p : Char → Bool) : rest.takeWhile p <+: rest := List.takeWhile_prefix p
  have hsingle : [] <+: rest := List.nil_prefix
  unfold atStart
  split
  · exact ⟨[], rfl, hsingle⟩
  · split
    · exact ⟨[], rfl, hsingle⟩
    · split
      · exact taken_ofQuoted [c] rest .text
      · split
        · split
          · rename_i body
            obtain ⟨cs, htaken, hcs⟩ := taken_ofQuoted [c, '"'] body .symbol
            exact ⟨'"' :: cs, htaken, List.cons_prefix_cons.mpr ⟨rfl, hcs⟩⟩
          · have hname := hrun fun d => !isDelimiter d
            split
            · exact ⟨[], rfl, hsingle⟩
            · exact ⟨_, rfl, hname⟩
        · split
          · exact ⟨_, rfl, hrun isWordRest⟩
          · split
            · rename_i hminus
              subst hminus
              split
              · exact ⟨_, rfl, _, rfl⟩
              · obtain ⟨cs, htaken, hcs⟩ := taken_ofNumber true (rest.takeWhile Numeral.isDigit)
                  (rest.drop (rest.takeWhile Numeral.isDigit).length)
                have hnumber := prefix_append (hrun Numeral.isDigit) hcs
                split
                · exact ⟨[], rfl, hsingle⟩
                · exact ⟨_, htaken, hnumber⟩
            · split
              · obtain ⟨cs, htaken, hcs⟩ := taken_ofNumber false
                  (c :: rest.takeWhile Numeral.isDigit) (rest.dropWhile Numeral.isDigit)
                have hdrop : rest.drop (rest.takeWhile Numeral.isDigit).length =
                    rest.dropWhile Numeral.isDigit :=
                  List.append_cancel_left ((List.prefix_iff_eq_append.mp (hrun _)).trans
                    List.takeWhile_append_dropWhile.symm)
                exact ⟨_, htaken, prefix_append (hrun Numeral.isDigit) (hdrop ▸ hcs)⟩
              · exact ⟨[], rfl, hsingle⟩

end Match

namespace Scan

/-- A gap is what the text starts with. -/
theorem prefix_gap (inComment : Bool) (chars : List Char) : gap inComment chars <+: chars := by
  induction chars generalizing inComment with
  | nil => exact List.nil_prefix
  | cons c rest ih =>
    have hlater (inComment : Bool) : c :: gap inComment rest <+: c :: rest :=
      List.cons_prefix_cons.mpr ⟨rfl, ih inComment⟩
    rw [gap]
    split
    · exact hlater _
    · split
      · exact hlater _
      · split
        · exact hlater _
        · exact List.nil_prefix

/-- Every opening parenthesis of a scan stands in the text, at the offset that it names. -/
theorem openParen_of_mem (offset : Nat) (chars : List Char) :
    ∀ lexeme ∈ (fromOffset offset chars).lexemes, lexeme.token = .openParen →
      ∃ before after, chars = before ++ '(' :: after ∧
        lexeme.first = offset + byteLength before := by
  fun_induction fromOffset offset chars with
  | case1 => exact List.forall_mem_nil _
  | case2 => exact List.forall_mem_nil _
  | case3 offset chars c rest hrest found first stop token htoken later ih =>
    have hgap : gap false chars ++ c :: rest = chars := by
      rw [← hrest]
      exact List.prefix_iff_eq_append.mp (prefix_gap false chars)
    intro lexeme hmem hopen
    rcases List.mem_cons.mp hmem with rfl | hmem
    · obtain rfl : token = .openParen := hopen
      rcases Match.token_cases htoken with
        ⟨rfl, -⟩ | ⟨-, hclose⟩ | ⟨value, hscalar⟩ | ⟨_, hident, -⟩
      · exact ⟨gap false chars, rest, hgap.symm, rfl⟩
      · cases hclose
      · cases hscalar
      · cases hident
    · obtain ⟨before, after, hbefore, hfirst⟩ := ih lexeme hmem hopen
      obtain ⟨cs, htaken, hcs⟩ := Match.taken_eq c rest
      have hdrop : rest.drop (found.taken.length - 1) = rest.drop cs.length := by
        change rest.drop ((Match.atStart c rest).taken.length - 1) = _
        rw [htaken, List.length_cons, Nat.add_sub_cancel]
      rw [hdrop] at hbefore
      refine ⟨gap false chars ++ (c :: cs ++ before), after, ?_, ?_⟩
      · have hsplit := List.prefix_iff_eq_append.mp hcs
        rw [hbefore] at hsplit
        calc chars = gap false chars ++ c :: (cs ++ (before ++ '(' :: after)) := by
              rw [hsplit, hgap]
          _ = _ := by simp only [List.append_assoc, List.cons_append]
      · rw [hfirst]
        change offset + byteLength _ + byteLength (Match.atStart c rest).taken + _ = _
        rw [htaken, byteLength_append, byteLength_append]
        omega

end Scan

namespace Reader

/-- A row of derived trees is derived part by part. -/
theorem Derives.exists_append {index : LineIndex} {first later : List Tree}
    {lexemes : List Lexeme} (hderives : Derives index lexemes (first ++ later)) :
    ∃ own behind, lexemes = own ++ behind ∧ Derives index own first ∧
      Derives index behind later := by
  induction first generalizing lexemes with
  | nil => exact ⟨[], lexemes, rfl, .nil, hderives⟩
  | cons t first ih =>
    cases hderives with
    | leaf value begins stop hderives =>
      obtain ⟨own, behind, rfl, hown, hbehind⟩ := ih hderives
      exact ⟨_ :: own, behind, rfl, .leaf value begins stop hown, hbehind⟩
    | node begins afterFirst tagFirst tagStop last stop htag hinner hderives =>
      obtain ⟨own, behind, rfl, hown, hbehind⟩ := ih hderives
      refine ⟨_, behind, ?_,
        .node begins afterFirst tagFirst tagStop last stop htag hinner hown, hbehind⟩
      simp only [List.cons_append, List.append_assoc]

/-- A derived node spans the text from its opening to its closing parenthesis, with its tag and its
children between them. -/
theorem Derives.exists_of_node {index : LineIndex} {lexemes : List Lexeme} {u : Tree}
    (hderives : Derives index lexemes [u]) (hnode : u.isNode = true) :
    ∃ opening name inner closing, lexemes = opening :: name :: (inner ++ [closing]) ∧
      opening.token = .openParen ∧ closing.token = .closeParen ∧
      Derives index inner u.children ∧
      u.location = some (index.span opening.first closing.stop) := by
  cases hderives with
  | leaf => cases hnode
  | node first afterFirst tagFirst tagStop last stop htag hinner hlater =>
    cases hlater
    exact ⟨_, _, _, _, rfl, rfl, rfl, hinner, rfl⟩

/-- Every node inside a derived tree is derived by a stretch of the tokens. -/
theorem Derives.exists_stretch {index : LineIndex} {lexemes : List Lexeme} {trees : List Tree}
    (hderives : Derives index lexemes trees) :
    ∀ t ∈ trees, ∀ u, Tree.Inside u t → u.isNode = true →
      ∃ own, own <:+: lexemes ∧ Derives index own [u] := by
  induction hderives with
  | nil => exact fun t hmem => nomatch hmem
  | leaf value first stop _ ih =>
    intro t hmem u hinside hnode
    rcases List.mem_cons.mp hmem with rfl | hmem
    · cases hinside
      cases hnode
    · obtain ⟨own, hown, hderives⟩ := ih t hmem u hinside hnode
      exact ⟨own, hown.trans (List.suffix_cons _ _).isInfix, hderives⟩
  | @node token tag inner later children trees first afterFirst tagFirst tagStop last stop htag
      hinner _ ihinner ihlater =>
    intro t hmem u hinside hnode
    rcases List.mem_cons.mp hmem with rfl | hmem
    · cases hinside with
      | self =>
        refine ⟨_, ⟨[], later, ?_⟩,
          .node first afterFirst tagFirst tagStop last stop htag hinner .nil⟩
        simp
      | child hmem hinside =>
        obtain ⟨own, hown, hderives⟩ := ihinner _ hmem u hinside hnode
        have hstretch : inner <:+: ⟨.openParen, first, afterFirst⟩ :: ⟨token, tagFirst, tagStop⟩ ::
            (inner ++ ⟨.closeParen, last, stop⟩ :: later) :=
          ⟨[⟨.openParen, first, afterFirst⟩, ⟨token, tagFirst, tagStop⟩],
            ⟨.closeParen, last, stop⟩ :: later, by simp⟩
        exact ⟨own, hown.trans hstretch, hderives⟩
    · obtain ⟨own, hown, hderives⟩ := ihlater t hmem u hinside hnode
      have hstretch : later <:+: ⟨.openParen, first, afterFirst⟩ :: ⟨token, tagFirst, tagStop⟩ ::
          (inner ++ ⟨.closeParen, last, stop⟩ :: later) :=
        ⟨⟨.openParen, first, afterFirst⟩ :: ⟨token, tagFirst, tagStop⟩ ::
          (inner ++ [⟨.closeParen, last, stop⟩]), [], by simp⟩
      exact ⟨own, hown.trans hstretch, hderives⟩

/-- Every node inside a derived tree spans the text from an opening parenthesis on. -/
theorem Derives.location_of_inside {index : LineIndex} {lexemes : List Lexeme}
    {trees : List Tree} (hderives : Derives index lexemes trees) :
    ∀ t ∈ trees, ∀ u, Tree.Inside u t → u.isNode = true →
      ∃ lexeme ∈ lexemes, lexeme.token = .openParen ∧
        ∃ stop, u.location = some (index.span lexeme.first stop) := by
  intro t hmem u hinside hnode
  obtain ⟨own, hstretch, hown⟩ := hderives.exists_stretch t hmem u hinside hnode
  obtain ⟨opening, name, inner, closing, rfl, hopen, -, -, hlocation⟩ := hown.exists_of_node hnode
  exact ⟨opening, hstretch.subset List.mem_cons_self, hopen, _, hlocation⟩

/-- The only form of a document is the document. -/
theorem document_mem {forms : List Tree} (hsingle : forms = [document forms]) :
    document forms ∈ forms := by
  have hmem := List.mem_singleton_self (document forms)
  rwa [← hsingle] at hmem

/-- A document of other than one form starts where one of its forms does. -/
theorem start_of_document {forms : List Tree} (hforms : forms ≠ [document forms])
    {span : Span} (hlocation : (document forms).location = some span) :
    ∃ form ∈ forms, ∃ place, form.location = some place ∧ place.start = span.start := by
  unfold document at hforms hlocation
  split at hlocation
  · exact absurd rfl hforms
  · obtain ⟨a, ha, hlocation⟩ := Option.bind_eq_some_iff.mp hlocation
    obtain ⟨first, hfirst, hlocation⟩ := Option.bind_eq_some_iff.mp hlocation
    obtain ⟨b, hb, hlocation⟩ := Option.bind_eq_some_iff.mp hlocation
    obtain ⟨last, hlast, hcover⟩ := Option.bind_eq_some_iff.mp hlocation
    obtain rfl := Option.some.inj hcover
    unfold Span.cover
    dsimp only
    split
    · exact ⟨b, List.mem_of_getLast? hb, last, hlast, rfl⟩
    · exact ⟨a, List.mem_of_head? ha, first, hfirst, rfl⟩

end Reader

/-- A span from an opening parenthesis of a text on starts on one of the lines. -/
private theorem line_of_openParen {chars before after : List Char} {stop first : Nat}
    (hchars : chars = before ++ '(' :: after) (hfirst : first = byteLength before) :
    1 ≤ ((LineIndex.ofChars chars).span first stop).start.line ∧
      ((LineIndex.ofChars chars).span first stop).start.line ≤ lineTotal chars := by
  subst hchars hfirst
  have hline := LineIndex.line_position before ('(' :: after)
  have hbound := @line_le_lineTotal before after '(' (by decide)
  change 1 ≤ ((LineIndex.ofChars _).position (byteLength before)).line ∧
    ((LineIndex.ofChars _).position (byteLength before)).line ≤ _
  omega

/-- Every node inside a form of a document has a place, which starts on a line of the text. -/
private theorem place_of_forms {text : String} {forms : List Tree}
    (hderives : Reader.Derives (LineIndex.ofChars text.toList) (Scan.ofChars text.toList).lexemes
      forms) :
    ∀ form ∈ forms, ∀ u, Tree.Inside u form → u.isNode = true →
      ∃ span, u.location = some span ∧ 1 ≤ span.start.line ∧
        span.start.line ≤ lineTotal text.toList := by
  intro form hform u hinside hnode
  obtain ⟨lexeme, hlexeme, hopen, stop, hlocation⟩ :=
    hderives.location_of_inside form hform u hinside hnode
  obtain ⟨before, after, hchars, hfirst⟩ := Scan.openParen_of_mem 0 _ lexeme hlexeme hopen
  rw [Nat.zero_add] at hfirst
  exact ⟨_, hlocation, line_of_openParen hchars hfirst⟩

/-- Every node below the root of a tree that was read has a place. -/
theorem located_of_readText {path text : String} {t : Tree} (hread : readText path text = .ok t) :
    ∀ c ∈ t.children, ∀ u, Tree.Inside u c → u.isNode = true → u.location.isSome = true := by
  obtain ⟨forms, rfl, hderives, -⟩ := derives_of_readText hread
  intro c hc u hinside hnode
  have hform : ∃ form ∈ forms, Tree.Inside u form := by
    rcases Reader.document_cases forms with hsingle | ⟨location, hbegin⟩
    · exact ⟨_, Reader.document_mem hsingle, hinside.of_child hc⟩
    · rw [hbegin] at hc
      exact ⟨c, hc, hinside⟩
  obtain ⟨form, hform, hinside⟩ := hform
  obtain ⟨span, hlocation, -⟩ := place_of_forms hderives form hform u hinside hnode
  rw [hlocation]
  rfl

/-- Every place in a tree that was read starts on a line of the text. -/
theorem line_of_readText {path text : String} {t u : Tree} {line : Nat}
    (hread : readText path text = .ok t) (hinside : Tree.Inside u t) (hline : u.line? = some line) :
    1 ≤ line ∧ line ≤ lineTotal text.toList := by
  obtain ⟨forms, rfl, hderives, -⟩ := derives_of_readText hread
  obtain ⟨span, hlocation, rfl⟩ := Option.map_eq_some_iff.mp hline
  have hinner : ∀ form ∈ forms, ∀ v, Tree.Inside v form → ∀ place, v.location = some place →
      1 ≤ place.start.line ∧ place.start.line ≤ lineTotal text.toList := by
    intro form hform v hv place hplace
    have hnode : v.isNode = true := by
      cases v with
      | leaf value => cases hplace
      | node => rfl
    obtain ⟨found, hfound, hbounds⟩ := place_of_forms hderives form hform v hv hnode
    obtain rfl := Option.some.inj (hfound.symm.trans hplace)
    exact hbounds
  by_cases hsingle : forms = [Reader.document forms]
  · exact hinner _ (Reader.document_mem hsingle) u hinside span hlocation
  · obtain ⟨location, hbegin⟩ := (Reader.document_cases forms).resolve_left hsingle
    rw [hbegin] at hinside
    cases hinside with
    | self =>
      obtain ⟨form, hform, place, hplace, hstart⟩ :=
        Reader.start_of_document hsingle (hbegin ▸ hlocation)
      rw [← hstart]
      exact hinner form hform form (.self form) place hplace
    | child hform hinside => exact hinner _ hform u hinside span hlocation

end PhasedTests
