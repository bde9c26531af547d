import PhasedTests.Proofs.Sexp.Location

/-!
# Texts cut behind a closing parenthesis

A closing parenthesis stops the longest match: outside quotes no token goes on over it, and a quoted
body is closed before it or not at all. So the tokens up to a closing parenthesis do not depend on
the text behind it, and a stretch of a text from a token to a closing parenthesis is scanned alone
as it is scanned in the text.
-/

namespace PhasedTests

open Text

namespace Match

variable {behind other : List Char}

/-- A run of characters other than the closing parenthesis stops before it. -/
private theorem takeWhile_closeParen {p : Char → Bool} (hclose : p ')' = false)
    (before behind : List Char) :
    (before ++ ')' :: behind).takeWhile p = before.takeWhile p := by
  induction before with
  | nil => rw [List.nil_append, List.takeWhile_cons_of_neg (by simp [hclose]), List.takeWhile_nil]
  | cons c before ih => rw [List.cons_append, List.takeWhile_cons, List.takeWhile_cons, ih]

private theorem dropWhile_closeParen {p : Char → Bool} (hclose : p ')' = false)
    (before behind : List Char) :
    (before ++ ')' :: behind).dropWhile p = before.dropWhile p ++ ')' :: behind := by
  induction before with
  | nil => rw [List.nil_append, List.dropWhile_cons_of_neg (by simp [hclose])]; rfl
  | cons c before ih =>
    rw [List.cons_append, List.dropWhile_cons, List.dropWhile_cons, ih]
    split <;> rfl

/-- A word without a closing parenthesis does not go on over one. -/
private theorem prefix_of_prefix_closeParen (word : List Char) {before behind : List Char}
    (hword : word <+: before ++ ')' :: behind) (hclose : ')' ∉ word) : word <+: before := by
  rcases List.prefix_or_prefix_of_prefix hword (List.prefix_append before _) with
    hbefore | ⟨rest, rfl⟩
  · exact hbefore
  · cases rest with
    | nil => rw [List.append_nil]
    | cons c rest =>
      have hnext := (List.prefix_append_right_inj before).mp hword
      rw [(List.cons_prefix_cons.mp hnext).1] at hclose
      simp at hclose

private theorem fraction_closeParen (before behind : List Char) :
    fraction (before ++ ')' :: behind) = fraction before := by
  cases before with
  | nil => rfl
  | cons c before =>
    by_cases hpoint : c = '.'
    · subst hpoint
      simp only [List.cons_append, fraction, takeWhile_closeParen (p := Numeral.isDigit) rfl]
    · have hnone (rest : List Char) : fraction (c :: rest) = [] := by
        unfold fraction
        split
        · rename_i hsame
          exact absurd (List.cons.inj hsame).1 hpoint
        · rfl
      rw [List.cons_append, hnone, hnone]

private theorem sign_closeParen (before behind : List Char) :
    sign (before ++ ')' :: behind) = sign before := by
  cases before with
  | nil => rfl
  | cons c before =>
    unfold sign
    split <;> simp_all

private theorem exponent_closeParen (before behind : List Char) :
    exponent (before ++ ')' :: behind) = exponent before := by
  cases before with
  | nil => rfl
  | cons c before =>
    have hsign : (sign before).length ≤ before.length := (prefix_sign before).length_le
    simp only [List.cons_append, exponent, sign_closeParen, List.drop_append_of_le_length hsign,
      takeWhile_closeParen (p := Numeral.isDigit) rfl]

/-- A number ends at a closing parenthesis as it does at the end of the text. -/
private theorem ofNumber_closeParen (negative : Bool) (whole before behind : List Char) :
    ofNumber negative whole (before ++ ')' :: behind) = ofNumber negative whole before := by
  have hplaces : (fraction before).length ≤ before.length := (prefix_fraction before).length_le
  simp only [ofNumber, fraction_closeParen, List.drop_append_of_le_length hplaces,
    exponent_closeParen]

/-- A quoted token that ends before the parenthesis does not depend on what follows. -/
private theorem ofQuoted_append (opening : List Char) {before behind taken : List Char}
    {scalar : String → Scalar} {token : Token}
    (hread : ofQuoted opening (before ++ behind) scalar = ⟨some token, taken⟩)
    (hlength : taken.length ≤ opening.length + before.length) (other : List Char) :
    ofQuoted opening (before ++ other) scalar = ⟨some token, taken⟩ := by
  unfold ofQuoted at hread
  dsimp only at hread
  split at hread
  · rename_i after hafter
    obtain ⟨htoken, rfl⟩ := Match.mk.inj hread
    rw [List.length_append, List.length_append, List.length_singleton] at hlength
    have hbody : (Quoted.splitBody (before ++ behind)).1.length < before.length := by omega
    obtain ⟨later, hlater⟩ := Quoted.splitBody_append (Prod.ext rfl hafter) hbody other
    unfold ofQuoted
    rw [hlater, ← htoken]
    rfl
  · cases (Match.mk.inj hread).1

/-- Behind a colon: a quoted name that is closed before the parenthesis, or a bare one. -/
private theorem atStart_colon_closeParen {before behind taken : List Char} {token : Token}
    (hread : atStart ':' (before ++ ')' :: behind) = ⟨some token, taken⟩)
    (hlength : taken.length ≤ 1 + before.length) (other : List Char) :
    atStart ':' (before ++ ')' :: other) = ⟨some token, taken⟩ := by
  unfold atStart at hread ⊢
  simp only [Char.reduceEq, ↓reduceIte] at hread ⊢
  split at hread
  · rename_i body hbody
    obtain ⟨rest, rfl⟩ :=
      prefix_of_prefix_closeParen ['"'] ⟨body, hbody.symm⟩ (by decide)
    obtain rfl := (List.cons.inj hbody).2
    refine ofQuoted_append _ hread ?_ _
    rwa [List.length_append, ← Nat.add_assoc] at hlength
  · rename_i hbare
    rw [takeWhile_closeParen rfl] at hread
    split
    · rename_i body hbody
      obtain ⟨rest, rfl⟩ :=
        prefix_of_prefix_closeParen ['"'] ⟨body, hbody.symm⟩ (by decide)
      exact absurd rfl (hbare _)
    · rwa [takeWhile_closeParen rfl]

/-- Behind a minus sign: the word for infinity, or a number. -/
private theorem atStart_minus_closeParen {before behind taken : List Char} {token : Token}
    (hread : atStart '-' (before ++ ')' :: behind) = ⟨some token, taken⟩) (other : List Char) :
    atStart '-' (before ++ ')' :: other) = ⟨some token, taken⟩ := by
  have hdigits : (before.takeWhile Numeral.isDigit).length ≤ before.length :=
    (List.takeWhile_prefix _).length_le
  unfold atStart at hread ⊢
  have hstart : isWordStart '-' = false := rfl
  simp only [Char.reduceEq, ↓reduceIte, hstart, Bool.false_eq_true] at hread ⊢
  split at hread
  · rename_i later hinf
    obtain ⟨rest, rfl⟩ :=
      prefix_of_prefix_closeParen ['i', 'n', 'f'] ⟨later, hinf.symm⟩ (by decide)
    exact hread
  · rename_i hinf
    rw [takeWhile_closeParen rfl] at hread
    split
    · rename_i later hsame
      obtain ⟨rest, rfl⟩ :=
        prefix_of_prefix_closeParen ['i', 'n', 'f'] ⟨later, hsame.symm⟩ (by decide)
      exact absurd rfl (hinf _)
    · rw [takeWhile_closeParen rfl]
      cases hwhole : before.takeWhile Numeral.isDigit with
      | nil =>
        rw [hwhole] at hread
        cases (Match.mk.inj hread).1
      | cons d whole =>
        rw [hwhole] at hread hdigits
        simpa only [List.drop_append_of_le_length hdigits, ofNumber_closeParen] using hread

/-- A token that ends before a closing parenthesis does not depend on what follows it. -/
theorem atStart_closeParen {c : Char} {before behind taken : List Char} {token : Token}
    (hread : atStart c (before ++ ')' :: behind) = ⟨some token, taken⟩)
    (hlength : taken.length ≤ 1 + before.length) (other : List Char) :
    atStart c (before ++ ')' :: other) = ⟨some token, taken⟩ := by
  by_cases hcolon : c = ':'
  · subst hcolon
    exact atStart_colon_closeParen hread hlength other
  by_cases hminus : c = '-'
  · subst hminus
    exact atStart_minus_closeParen hread other
  unfold atStart at hread ⊢
  rw [if_neg hcolon, if_neg hminus] at hread ⊢
  by_cases hquote : c = '"'
  · subst hquote
    exact ofQuoted_append ['"'] hread hlength _
  · rw [if_neg hquote] at hread ⊢
    simpa only [takeWhile_closeParen (p := isWordRest) rfl,
      takeWhile_closeParen (p := Numeral.isDigit) rfl,
      dropWhile_closeParen (p := Numeral.isDigit) rfl, ofNumber_closeParen] using hread

/-- A match that is a closing parenthesis takes the parenthesis. -/
theorem closeParen_of_atStart {c : Char} {rest cs : List Char}
    (hread : atStart c rest = ⟨some .closeParen, c :: cs⟩) : c = ')' ∧ cs = [] := by
  rcases token_cases (congrArg Match.token hread) with ⟨-, hopen⟩ | ⟨rfl, -⟩ | ⟨_, hscalar⟩ |
    ⟨_, hident, -⟩
  · cases hopen
  · exact ⟨rfl, (List.cons.inj (Match.mk.inj hread).2).2.symm⟩
  · cases hscalar
  · cases hident

end Match

/-! ## Stretches of tokens -/

/-- The stretches that the tokens take hold something and follow one another. -/
def Ordered (lexemes : List Lexeme) : Prop :=
  lexemes.Pairwise (fun a b => a.stop ≤ b.first) ∧ ∀ lexeme ∈ lexemes, lexeme.first < lexeme.stop

namespace Ordered

variable {lexemes : List Lexeme}

/-- Tokens that are left out do not change the order of the others. -/
theorem sublist {some : List Lexeme} (hordered : Ordered lexemes) (hsome : some.Sublist lexemes) :
    Ordered some :=
  ⟨hordered.1.sublist hsome, fun lexeme hmem => hordered.2 lexeme (hsome.subset hmem)⟩

/-- Between a first and a last token lie all others. -/
theorem bounds {opening closing : Lexeme} (hordered : Ordered (opening :: (lexemes ++ [closing]))) :
    opening.first < closing.stop ∧ ∀ lexeme ∈ opening :: (lexemes ++ [closing]),
      opening.first ≤ lexeme.first ∧ lexeme.stop ≤ closing.stop := by
  obtain ⟨hpairs, hstretches⟩ := hordered
  obtain ⟨hopening, hpairs⟩ := List.pairwise_cons.mp hpairs
  have hclosing := (List.pairwise_append.mp hpairs).2.2
  have hopen := hstretches opening List.mem_cons_self
  have hclose := hstretches closing (by simp)
  have hends := hopening closing (by simp)
  refine ⟨by omega, fun lexeme hmem => ?_⟩
  rcases List.mem_cons.mp hmem with rfl | hmem
  · omega
  · have hbehind := hopening lexeme hmem
    rcases List.mem_append.mp hmem with hmem | hmem
    · have hbefore := hclosing lexeme hmem closing List.mem_cons_self
      omega
    · obtain rfl := List.mem_singleton.mp hmem
      omega

end Ordered

namespace Scan

/-! ## Gaps -/

/-- A gap ends at a character that is neither a gap character nor the start of a comment, and does
not depend on what follows this character. -/
theorem gap_append_cons {inComment : Bool} {skipped rest : List Char} {c : Char}
    (hgap : gap inComment (skipped ++ c :: rest) = skipped) :
    isGapChar c = false ∧ c ≠ ';' ∧
      ∀ other, gap inComment (skipped ++ c :: other) = skipped := by
  induction skipped generalizing inComment with
  | nil =>
    rw [List.nil_append, gap] at hgap
    split at hgap
    · cases hgap
    · rename_i hcomment
      split at hgap
      · cases hgap
      · rename_i hsemicolon
        split at hgap
        · cases hgap
        · rename_i hblank
          refine ⟨by simpa using hblank, hsemicolon, fun other => ?_⟩
          rw [List.nil_append, gap, if_neg hcomment, if_neg hsemicolon, if_neg hblank]
  | cons d skipped ih =>
    rw [List.cons_append, gap] at hgap
    simp only [List.cons_append, gap]
    split at hgap
    · rename_i hcomment
      obtain ⟨hc, hsemicolon, hothers⟩ := ih (List.cons.inj hgap).2
      refine ⟨hc, hsemicolon, fun other => ?_⟩
      rw [if_pos hcomment, hothers]
    · rename_i hcomment
      split at hgap
      · rename_i hsemicolon
        obtain ⟨hc, hstart, hothers⟩ := ih (List.cons.inj hgap).2
        refine ⟨hc, hstart, fun other => ?_⟩
        rw [if_neg hcomment, if_pos hsemicolon, hothers]
      · rename_i hsemicolon
        split at hgap
        · rename_i hblank
          obtain ⟨hc, hstart, hothers⟩ := ih (List.cons.inj hgap).2
          refine ⟨hc, hstart, fun other => ?_⟩
          rw [if_neg hcomment, if_neg hsemicolon, if_pos hblank, hothers]
        · cases hgap

/-- A gap before a token only moves the offset. -/
theorem fromOffset_skip {skipped rest : List Char} {c : Char}
    (hgap : gap false (skipped ++ c :: rest) = skipped) (offset : Nat) :
    fromOffset offset (skipped ++ c :: rest) =
      fromOffset (offset + byteLength skipped) (c :: rest) := by
  obtain ⟨hblank, hsemicolon, -⟩ := gap_append_cons hgap
  have hnone : gap false (c :: rest) = [] := by
    rw [gap, if_neg (by decide), if_neg hsemicolon, if_neg (by simp [hblank])]
  apply fromOffset_congr
  · rw [hgap, hnone]
    rfl
  · rw [hgap, hnone, List.drop_left]
    rfl

/-! ## One token of a scan -/

/-- A scan that finds a token skips a gap, takes the characters of the token and goes on. -/
theorem exists_of_fromOffset_eq_cons {offset : Nat} {chars : List Char} {lexeme : Lexeme}
    {later : List Lexeme} {stray : Option Stray}
    (hscan : fromOffset offset chars = ⟨lexeme :: later, stray⟩) :
    ∃ skipped c cs rest, chars = skipped ++ c :: (cs ++ rest) ∧
      gap false chars = skipped ∧
      Match.atStart c (cs ++ rest) = ⟨some lexeme.token, c :: cs⟩ ∧
      lexeme.first = offset + byteLength skipped ∧
      lexeme.stop = lexeme.first + byteLength (c :: cs) ∧
      fromOffset lexeme.stop rest = ⟨later, stray⟩ := by
  rw [fromOffset.eq_def] at hscan
  split at hscan
  · cases hscan
  · rename_i c rest hrest
    have hchars : gap false chars ++ c :: rest = chars := by
      rw [← hrest]
      exact List.prefix_iff_eq_append.mp (prefix_gap false chars)
    obtain ⟨cs, htaken, rest, rfl⟩ := Match.taken_eq c rest
    dsimp only at hscan
    split at hscan
    · cases hscan
    · rename_i token htoken
      obtain ⟨hlexemes, hstray⟩ := Scan.mk.inj hscan
      obtain ⟨rfl, hlater⟩ := List.cons.inj hlexemes
      rw [htaken, List.length_cons, Nat.add_sub_cancel, List.drop_left] at hlater hstray
      refine ⟨_, c, cs, rest, hchars.symm, rfl, ?_, rfl, ?_, ?_⟩
      · rw [← htoken, ← htaken]
      · rw [htaken]
      · dsimp only
        rw [htaken, ← hlater, ← hstray]

/-- The tokens of a scan take stretches of the text that follow one another. -/
theorem ordered_of_fromOffset {offset : Nat} {chars : List Char} {lexemes : List Lexeme}
    {stray : Option Stray} (hscan : fromOffset offset chars = ⟨lexemes, stray⟩) :
    Ordered lexemes ∧ ∀ lexeme ∈ lexemes, offset ≤ lexeme.first := by
  induction lexemes generalizing offset chars with
  | nil => exact ⟨⟨.nil, List.forall_mem_nil _⟩, List.forall_mem_nil _⟩
  | cons lexeme later ih =>
    obtain ⟨skipped, c, cs, rest, -, -, -, hfirst, hstop, hlater⟩ :=
      exists_of_fromOffset_eq_cons hscan
    obtain ⟨⟨hordered, hstretches⟩, hbehind⟩ := ih hlater
    have hsize : 0 < c.utf8Size := Char.utf8Size_pos c
    rw [byteLength] at hstop
    refine ⟨⟨List.pairwise_cons.mpr ⟨hbehind, hordered⟩,
      List.forall_mem_cons.mpr ⟨by omega, hstretches⟩⟩,
      List.forall_mem_cons.mpr ⟨by omega, fun b hb => ?_⟩⟩
    have hb := hbehind b hb
    omega

/-! ## Stretches of a scan -/

/-- What a scan finds from a token on is the scan of the text from this token on. -/
theorem exists_drop {offset : Nat} {chars : List Char} {before : List Lexeme} {lexeme : Lexeme}
    {later : List Lexeme} {stray : Option Stray}
    (hscan : fromOffset offset chars = ⟨before ++ lexeme :: later, stray⟩) :
    ∃ front rest, chars = front ++ rest ∧
      lexeme.first = offset + byteLength front ∧
      fromOffset lexeme.first rest = ⟨lexeme :: later, stray⟩ := by
  induction before generalizing offset chars with
  | nil =>
    obtain ⟨skipped, c, cs, rest, rfl, hgap, -, hfirst, -⟩ := exists_of_fromOffset_eq_cons hscan
    refine ⟨skipped, c :: (cs ++ rest), rfl, hfirst, ?_⟩
    rwa [hfirst, ← fromOffset_skip hgap]
  | cons other before ih =>
    obtain ⟨skipped, c, cs, rest, rfl, -, -, hfirst, hstop, hlater⟩ :=
      exists_of_fromOffset_eq_cons hscan
    obtain ⟨front, rest, rfl, hlexeme, hrest⟩ := ih hlater
    refine ⟨skipped ++ (c :: cs ++ front), rest, by simp, ?_, hrest⟩
    rw [byteLength_append, byteLength_append]
    omega

/-- Wherever the text starts and whatever follows it, it is scanned as these tokens. -/
def Closed (chars : List Char) (tokens : List Token) : Prop :=
  ∀ offset rest, ∃ lexemes, lexemes.map Lexeme.token = tokens ∧
    fromOffset offset (chars ++ rest) =
      after lexemes (fromOffset (offset + byteLength chars) rest)

/-- No tokens are closed and read as no trees. -/
theorem Closed.nil : Closed [] [] :=
  fun _ _ => ⟨[], rfl, rfl⟩

/-- One more gap and token before a closed text. -/
theorem Closed.cons {skipped cs chars : List Char} {c : Char} {token : Token}
    {tokens : List Token} (hgap : ∀ other, gap false (skipped ++ c :: other) = skipped)
    (hread : ∀ other, Match.atStart c (cs ++ (chars ++ other)) = ⟨some token, c :: cs⟩)
    (hchars : Closed chars tokens) : Closed (skipped ++ c :: (cs ++ chars)) (token :: tokens) := by
  intro offset rest
  obtain ⟨hblank, hsemicolon, -⟩ := gap_append_cons (hgap [])
  obtain ⟨lexemes, htokens, hlater⟩ :=
    hchars (offset + byteLength skipped + byteLength (c :: cs)) rest
  have htoken := fromOffset_token hblank hsemicolon (hread rest) (offset + byteLength skipped)
  have hbytes : offset + byteLength (skipped ++ c :: (cs ++ chars)) =
      offset + byteLength skipped + byteLength (c :: cs) + byteLength chars := by
    rw [byteLength_append, ← List.cons_append, byteLength_append]
    omega
  let first := offset + byteLength skipped
  refine ⟨⟨token, first, first + byteLength (c :: cs)⟩ :: lexemes,
    congrArg (token :: ·) htokens, ?_⟩
  calc fromOffset offset (skipped ++ c :: (cs ++ chars) ++ rest)
      = fromOffset offset (skipped ++ c :: (cs ++ (chars ++ rest))) := by
        simp only [List.append_assoc, List.cons_append]
    _ = fromOffset (offset + byteLength skipped) (c :: cs ++ (chars ++ rest)) :=
        fromOffset_skip (hgap _) offset
    _ = _ := by rw [htoken, hlater, after_after, hbytes, List.singleton_append]

/-- A closed text alone. -/
theorem Closed.ofChars {chars : List Char} {tokens : List Token} (hclosed : Closed chars tokens) :
    ∃ lexemes, lexemes.map Lexeme.token = tokens ∧ ofChars chars = ⟨lexemes, none⟩ := by
  obtain ⟨lexemes, htokens, hscan⟩ := hclosed 0 []
  refine ⟨lexemes, htokens, ?_⟩
  rw [List.append_nil, fromOffset_nil, after, List.append_nil] at hscan
  exact hscan

/-- Up to a closing parenthesis a text is scanned alone as it is scanned in a longer text. -/
theorem exists_closed {offset : Nat} {chars : List Char} {before : List Lexeme} {close : Lexeme}
    {later : List Lexeme} {stray : Option Stray} (hclose : close.token = .closeParen)
    (hscan : fromOffset offset chars = ⟨before ++ close :: later, stray⟩) :
    ∃ front rest, chars = front ++ ')' :: rest ∧ close.first = offset + byteLength front ∧
      close.stop = close.first + 1 ∧
      Closed (front ++ [')']) (before.map Lexeme.token ++ [.closeParen]) := by
  induction before generalizing offset chars with
  | nil =>
    obtain ⟨skipped, c, cs, rest, rfl, hgap, hread, hfirst, hstop, -⟩ :=
      exists_of_fromOffset_eq_cons hscan
    obtain ⟨-, -, hothers⟩ := gap_append_cons hgap
    obtain ⟨rfl, rfl⟩ := Match.closeParen_of_atStart (hread.trans (by rw [hclose]))
    exact ⟨skipped, rest, rfl, hfirst, hstop, .cons hothers (fun _ => rfl) .nil⟩
  | cons lexeme before ih =>
    obtain ⟨skipped, c, cs, rest, rfl, hgap, hread, hfirst, hstop, hlater⟩ :=
      exists_of_fromOffset_eq_cons hscan
    obtain ⟨-, -, hothers⟩ := gap_append_cons hgap
    obtain ⟨front, rest, rfl, hcloseFirst, hcloseStop, hclosed⟩ := ih hlater
    refine ⟨skipped ++ c :: (cs ++ front), rest, by simp, ?_, hcloseStop, ?_⟩
    · rw [byteLength_append, ← List.cons_append, byteLength_append]
      omega
    · rw [← List.append_assoc] at hread
      have hcut (other : List Char) :
          Match.atStart c (cs ++ (front ++ [')'] ++ other)) = ⟨some lexeme.token, c :: cs⟩ := by
        simpa using Match.atStart_closeParen hread (by simp [Nat.add_comm]) other
      simpa using hclosed.cons hothers hcut

end Scan

end PhasedTests
