import PhasedTests.Proofs.Decimal.Positional
import PhasedTests.Proofs.Text.Quoted
import PhasedTests.Sexp.Lexer

/-!
# Written scalars are tokens

The written form of a scalar, followed by a space, a line feed, a closing parenthesis or nothing, is
one token that holds the scalar. Every kind of scalar has its own first characters, and what may
follow it ends the longest match.
-/

namespace PhasedTests

open Text

/-- A text that may follow a scalar: it is empty or starts with a space, a line feed or a closing
parenthesis. -/
def IsBoundary (rest : List Char) : Prop :=
  ∀ c ∈ rest.head?, c = ' ' ∨ c = '\n' ∨ c = ')'

namespace IsBoundary

/-- A token may end at the end of the text. -/
theorem nil : IsBoundary [] := by
  intro c hc
  cases hc

/-- A token may end before a space. -/
theorem space (rest : List Char) : IsBoundary (' ' :: rest) := by
  intro c hc
  exact Or.inl (Option.some.inj hc).symm

/-- A token may end before a line feed. -/
theorem newline (rest : List Char) : IsBoundary ('\n' :: rest) := by
  intro c hc
  exact Or.inr (Or.inl (Option.some.inj hc).symm)

/-- A token may end before a closing parenthesis. -/
theorem closeParen (rest : List Char) : IsBoundary (')' :: rest) := by
  intro c hc
  exact Or.inr (Or.inr (Option.some.inj hc).symm)

/-- A property that holds of none of the three characters fails behind a scalar. -/
theorem head_eq_false {rest : List Char} (hrest : IsBoundary rest) {p : Char → Bool}
    (hspace : p ' ' = false) (hnewline : p '\n' = false) (hclose : p ')' = false) :
    ∀ c ∈ rest.head?, p c = false := by
  intro c hc
  rcases hrest c hc with rfl | rfl | rfl
  · exact hspace
  · exact hnewline
  · exact hclose

end IsBoundary

/-- A run ends where its property fails. -/
theorem takeWhile_append_of_head {p : Char → Bool} {run rest : List Char}
    (hrun : ∀ c ∈ run, p c = true) (hrest : ∀ c ∈ rest.head?, p c = false) :
    (run ++ rest).takeWhile p = run := by
  rw [List.takeWhile_append_of_pos hrun]
  cases rest with
  | nil => rw [List.takeWhile_nil, List.append_nil]
  | cons c rest =>
    have hc : ¬p c = true := by simp [hrest c rfl]
    rw [List.takeWhile_cons_of_neg hc, List.append_nil]

namespace Match

private theorem ne_of_class {p : Char → Bool} {c d : Char} (hc : p c = true) (hd : p d = false) :
    c ≠ d := by
  rintro rfl
  rw [hd] at hc
  cases hc

private theorem isWordStart_of_isDigit {c : Char} (hdigit : Numeral.isDigit c = true) :
    isWordStart c = false := by
  have hbounds : 48 ≤ c.toNat ∧ c.toNat ≤ 57 := by
    simpa [Numeral.isDigit, Char.le_def, UInt32.le_iff_toNat_le] using hdigit
  rw [Bool.eq_false_iff]
  intro hword
  have hcases : (97 ≤ c.toNat ∧ c.toNat ≤ 122) ∨ (65 ≤ c.toNat ∧ c.toNat ≤ 90) ∨ c = '_' := by
    simpa [isWordStart, Char.le_def, UInt32.le_iff_toNat_le, or_assoc] using hword
  rcases hcases with hlower | hupper | rfl
  · omega
  · omega
  · exact absurd hdigit (by decide)

/-- A bare word is read as far as it goes. -/
theorem atStart_wordStart {c : Char} (hstart : isWordStart c = true) (rest : List Char) :
    atStart c rest =
      ⟨some (ofWord (c :: rest.takeWhile isWordRest)), c :: rest.takeWhile isWordRest⟩ := by
  have hopen := ne_of_class (d := '(') hstart rfl
  have hclose := ne_of_class (d := ')') hstart rfl
  have hquote := ne_of_class (d := '"') hstart rfl
  have hcolon := ne_of_class (d := ':') hstart rfl
  unfold atStart
  rw [if_neg hopen, if_neg hclose, if_neg hquote, if_neg hcolon, if_pos hstart]

/-- A bare word is read up to its boundary. -/
theorem atStart_word {c : Char} {word rest : List Char} (hstart : isWordStart c = true)
    (hword : ∀ d ∈ word, isWordRest d = true) (hrest : IsBoundary rest) :
    atStart c (word ++ rest) = ⟨some (ofWord (c :: word)), c :: word⟩ := by
  have hrun : (word ++ rest).takeWhile isWordRest = word :=
    takeWhile_append_of_head hword (hrest.head_eq_false rfl rfl rfl)
  rw [atStart_wordStart hstart, hrun]

/-- A quoted text is read up to its closing quote. -/
private theorem ofQuoted_encode (opening chars rest : List Char) (scalar : String → Scalar) :
    ofQuoted opening (Quoted.escape chars ++ '"' :: rest) scalar =
      ⟨some (.scalar (scalar (String.ofList chars))),
        opening ++ (Quoted.escape chars ++ ['"'])⟩ := by
  unfold ofQuoted
  rw [Quoted.splitBody_escape]
  dsimp only
  rw [Quoted.unescape_escape]
  rfl

private theorem atStart_quoted (chars rest : List Char) :
    atStart '"' (Quoted.escape chars ++ ['"'] ++ rest) =
      ⟨some (.scalar (.text (String.ofList chars))), '"' :: (Quoted.escape chars ++ ['"'])⟩ := by
  rw [List.append_assoc, List.singleton_append]
  exact ofQuoted_encode ['"'] chars rest .text

/-- A quoted symbol is read up to its closing quote. -/
theorem atStart_quotedSymbol (chars rest : List Char) :
    atStart ':' (Quoted.encode chars ++ rest) =
      ⟨some (.scalar (.symbol (String.ofList chars))), ':' :: Quoted.encode chars⟩ := by
  have htext : Quoted.encode chars ++ rest = '"' :: (Quoted.escape chars ++ '"' :: rest) := by
    unfold Quoted.encode
    rw [List.cons_append, List.cons_append, List.append_assoc, List.singleton_append]
  rw [htext]
  exact ofQuoted_encode [':', '"'] chars rest .symbol

/-- A bare symbol is read as far as its name goes. -/
theorem atStart_name {c : Char} {rest : List Char} (hname : isDelimiter c = false) :
    atStart ':' (c :: rest) =
      ⟨some (.scalar (.symbol (String.ofList (c :: rest.takeWhile fun d => !isDelimiter d)))),
        ':' :: c :: rest.takeWhile fun d => !isDelimiter d⟩ := by
  have hquote : c ≠ '"' := by
    rintro rfl
    exact absurd hname (by decide)
  have hrun : (c :: rest).takeWhile (fun d => !isDelimiter d) =
      c :: rest.takeWhile fun d => !isDelimiter d :=
    List.takeWhile_cons_of_pos (by simp [hname])
  unfold atStart
  simp only [Char.reduceEq, ↓reduceIte]
  split
  · rename_i hbody
    exact absurd (List.cons.inj hbody).1 hquote
  · rw [hrun]

/-- A bare symbol is read up to the first delimiter. -/
theorem atStart_bareSymbol {c : Char} {name rest : List Char}
    (hname : ∀ d ∈ c :: name, isDelimiter d = false) (hrest : IsBoundary rest) :
    atStart ':' (c :: name ++ rest) =
      ⟨some (.scalar (.symbol (String.ofList (c :: name)))), ':' :: c :: name⟩ := by
  have hrun : (name ++ rest).takeWhile (fun d => !isDelimiter d) = name := by
    apply takeWhile_append_of_head
    · intro d hd
      rw [hname d (List.mem_cons_of_mem _ hd)]
      rfl
    · exact hrest.head_eq_false rfl rfl rfl
  rw [List.cons_append, atStart_name (hname c List.mem_cons_self), hrun]

/-- Digits, with or without a minus sign before them, are read up to the first other character,
and the number goes on from there. -/
theorem atStart_digits (negative : Bool) {whole tail : List Char} (hwhole : whole ≠ [])
    (hdigits : ∀ c ∈ whole, Numeral.isDigit c = true)
    (htail : ∀ c ∈ tail.head?, Numeral.isDigit c = false) :
    ∃ c cs, (if negative then ['-'] else []) ++ whole = c :: cs ∧
      (c = '-' ∨ Numeral.isDigit c = true) ∧
      atStart c (cs ++ tail) = ofNumber negative whole tail := by
  have hrun : (whole ++ tail).takeWhile Numeral.isDigit = whole :=
    takeWhile_append_of_head hdigits htail
  obtain ⟨c, cs, rfl⟩ := List.exists_cons_of_ne_nil hwhole
  have hc : Numeral.isDigit c = true := hdigits c List.mem_cons_self
  cases negative with
  | true =>
    refine ⟨'-', c :: cs, rfl, Or.inl rfl, ?_⟩
    have hletter : c ≠ 'i' := by
      rintro rfl
      exact absurd hc (by decide)
    have hstart : isWordStart '-' = false := rfl
    unfold atStart
    simp only [Char.reduceEq, ↓reduceIte, hstart, Bool.false_eq_true]
    split
    · rename_i hinf
      exact absurd (List.cons.inj hinf).1 hletter
    · rw [hrun]
      dsimp only
      rw [List.drop_left]
  | false =>
    refine ⟨c, cs, rfl, Or.inr hc, ?_⟩
    have hopen := ne_of_class (d := '(') hc rfl
    have hclose := ne_of_class (d := ')') hc rfl
    have hquote := ne_of_class (d := '"') hc rfl
    have hcolon := ne_of_class (d := ':') hc rfl
    have hminus := ne_of_class (d := '-') hc rfl
    have hrest : (cs ++ tail).takeWhile Numeral.isDigit = cs :=
      takeWhile_append_of_head (fun d hd => hdigits d (List.mem_cons_of_mem _ hd)) htail
    have hdrop : (cs ++ tail).dropWhile Numeral.isDigit = tail := by
      have hsplit := List.takeWhile_append_dropWhile (p := Numeral.isDigit) (l := cs ++ tail)
      rw [hrest] at hsplit
      exact List.append_cancel_left hsplit
    unfold atStart
    rw [if_neg hopen, if_neg hclose, if_neg hquote, if_neg hcolon,
      if_neg (by rw [isWordStart_of_isDigit hc]; decide), if_neg hminus, if_pos hc]
    dsimp only
    rw [hrest, hdrop]

private theorem exponent_of_boundary {rest : List Char} (hrest : IsBoundary rest) :
    exponent rest = [] := by
  cases rest with
  | nil => rfl
  | cons c rest =>
    have hletter : ¬(c = 'e' ∨ c = 'E') := by rcases hrest c rfl with rfl | rfl | rfl <;> decide
    exact if_neg hletter

private theorem fraction_of_boundary {rest : List Char} (hrest : IsBoundary rest) :
    fraction rest = [] := by
  cases rest with
  | nil => rfl
  | cons c rest => rcases hrest c rfl with rfl | rfl | rfl <;> rfl

/-- Digits alone are an integer. -/
private theorem ofNumber_whole (negative : Bool) (whole : List Char) {rest : List Char}
    (hrest : IsBoundary rest) :
    ofNumber negative whole rest =
      ⟨(Numeral.toInt64? negative whole).map fun value => .scalar (.int value),
        (if negative then ['-'] else []) ++ whole⟩ := by
  unfold ofNumber
  rw [fraction_of_boundary hrest]
  simp only [List.length_nil, List.drop_zero]
  rw [exponent_of_boundary hrest]
  rfl

/-- Digits with a point between them are a float. -/
private theorem ofNumber_point (negative : Bool) (whole : List Char) {places rest : List Char}
    (hplaces : places ≠ []) (hdigits : ∀ c ∈ places, Numeral.isDigit c = true)
    (hrest : IsBoundary rest) :
    ofNumber negative whole ('.' :: places ++ rest) =
      ⟨some (.scalar (.float (Decimal.toFloat negative (Numeral.ofDigits (whole ++ places))
        (-(places.length : Int))))),
        (if negative then ['-'] else []) ++ (whole ++ '.' :: places)⟩ := by
  have hfraction : fraction ('.' :: places ++ rest) = '.' :: places := by
    have hrun : (places ++ rest).takeWhile Numeral.isDigit = places :=
      takeWhile_append_of_head hdigits (hrest.head_eq_false rfl rfl rfl)
    rw [List.cons_append]
    unfold fraction
    simp only [hrun]
  have hdrop : ('.' :: places ++ rest).drop ('.' :: places).length = rest := List.drop_left
  have hvalue : exponentValue [] = 0 := rfl
  unfold ofNumber
  rw [hfraction]
  dsimp only
  rw [hdrop, exponent_of_boundary hrest, hvalue, List.isEmpty_cons, Bool.false_and,
    if_neg (by decide), List.drop_succ_cons, List.drop_zero, List.append_nil, Int.zero_sub]

end Match

/-- The characters are read as this one token, whatever may follow a scalar behind them. -/
def IsTokenText (chars : List Char) (token : Token) : Prop :=
  ∃ c cs, chars = c :: cs ∧ Scan.isGapChar c = false ∧ c ≠ ';' ∧
    ∀ rest, IsBoundary rest → Match.atStart c (cs ++ rest) = ⟨some token, chars⟩

namespace IsTokenText

/-- A character outside a gap can be told by any property that the gap characters lack. -/
private theorem not_gap {p : Char → Bool} {c : Char} (hc : p c = true)
    (hgap : [' ', '\t', '\n', '\r', '\x0c', ';'].any p = false) :
    Scan.isGapChar c = false ∧ c ≠ ';' := by
  have hmem : c ∉ [' ', '\t', '\n', '\r', '\x0c', ';'] := fun hmem =>
    List.any_eq_false.mp hgap c hmem hc
  simp only [List.mem_cons, List.not_mem_nil, or_false, not_or] at hmem
  obtain ⟨hspace, htab, hfeed, hreturn, hform, hsemicolon⟩ := hmem
  refine ⟨?_, hsemicolon⟩
  unfold Scan.isGapChar
  simp [hspace, htab, hfeed, hreturn, hform]

/-- A bare word is one token. -/
theorem word {c : Char} {word : List Char} (hstart : Match.isWordStart c = true)
    (hword : ∀ d ∈ word, Match.isWordRest d = true) :
    IsTokenText (c :: word) (Match.ofWord (c :: word)) := by
  obtain ⟨hgap, hsemicolon⟩ := not_gap hstart (by decide)
  exact ⟨c, word, rfl, hgap, hsemicolon, fun rest hrest => Match.atStart_word hstart hword hrest⟩

/-- The written form of a symbol is read as this symbol. -/
theorem symbol (name : List Char) :
    IsTokenText (Scalar.symbolChars name) (.scalar (.symbol (String.ofList name))) := by
  unfold Scalar.symbolChars
  split
  · exact ⟨':', _, rfl, rfl, by decide, fun rest _ => Match.atStart_quotedSymbol name rest⟩
  · rename_i hbare
    rw [Bool.or_eq_true, not_or] at hbare
    obtain ⟨hempty, hplain⟩ := hbare
    refine ⟨':', name, rfl, rfl, by decide, fun rest hrest => ?_⟩
    cases name with
    | nil => exact absurd rfl hempty
    | cons c name =>
      refine Match.atStart_bareSymbol ?_ hrest
      intro d hd
      rw [Bool.eq_false_iff]
      intro hdelimiter
      exact hplain (List.any_eq_true.mpr ⟨d, hd, hdelimiter⟩)

/-- The written form of a text is read as this text. -/
theorem text (value : List Char) :
    IsTokenText (Quoted.encode value) (.scalar (.text (String.ofList value))) :=
  ⟨'"', Quoted.escape value ++ ['"'], rfl, rfl, by decide,
    fun rest _ => Match.atStart_quoted value rest⟩

/-- Digits, with a sign or without, start one token if the number that goes on from them ends where
the text does. -/
private theorem number (negative : Bool) {whole tail : List Char} {token : Token}
    (hwhole : whole ≠ []) (hdigits : ∀ c ∈ whole, Numeral.isDigit c = true)
    (htail : ∀ c ∈ tail.head?, Numeral.isDigit c = false)
    (hnumber : ∀ rest, IsBoundary rest → Match.ofNumber negative whole (tail ++ rest) =
      ⟨some token, (if negative then ['-'] else []) ++ (whole ++ tail)⟩) :
    IsTokenText ((if negative then ['-'] else []) ++ (whole ++ tail)) token := by
  have hfirst : ∀ c, c = '-' ∨ Numeral.isDigit c = true →
      Scan.isGapChar c = false ∧ c ≠ ';' := by
    intro c hc
    rcases hc with rfl | hdigit
    · exact ⟨rfl, by decide⟩
    · exact not_gap hdigit (by decide)
  obtain ⟨c, cs, hchars, hc, -⟩ := Match.atStart_digits negative hwhole hdigits htail
  obtain ⟨hgap, hsemicolon⟩ := hfirst c hc
  refine ⟨c, cs ++ tail, ?_, hgap, hsemicolon, ?_⟩
  · rw [← List.append_assoc, hchars, List.cons_append]
  · intro rest hrest
    have hnext : ∀ c ∈ (tail ++ rest).head?, Numeral.isDigit c = false := by
      cases tail with
      | nil => exact hrest.head_eq_false rfl rfl rfl
      | cons d tail => exact htail
    obtain ⟨c', cs', hchars', -, hread⟩ := Match.atStart_digits negative hwhole hdigits hnext
    obtain ⟨rfl, rfl⟩ := List.cons.inj (hchars.symm.trans hchars')
    rw [List.append_assoc, hread, hnumber rest hrest]

/-- The written form of an integer is read as this integer. -/
theorem int (value : Int64) :
    IsTokenText (Numeral.ofInt value.toInt) (.scalar (.int value)) := by
  have htext : Numeral.ofInt value.toInt = (if decide (value.toInt < 0) then ['-'] else []) ++
      (Numeral.toDigits value.toInt.natAbs ++ []) := by
    unfold Numeral.ofInt
    by_cases hneg : value.toInt < 0
    · rw [if_pos hneg, if_pos (by simpa using hneg), List.append_nil]
      rfl
    · rw [if_neg hneg, if_neg (by simpa using hneg), List.append_nil]
      rfl
  rw [htext]
  apply number
  · exact Numeral.toDigits_ne_nil _
  · exact fun c hc => Numeral.isDigit_of_mem_toDigits hc
  · exact fun c hc => nomatch hc
  · intro rest hrest
    rw [List.nil_append, Match.ofNumber_whole _ _ hrest, Numeral.toInt64?_natAbs, List.append_nil]
    rfl

/-- Not-a-number and the infinities are written as words, every other float with a point. -/
theorem float (x : Float) : IsTokenText (Scalar.floatChars x) (.scalar (.float x)) := by
  by_cases hnan : x.isNaN = true
  · rw [Scalar.floatChars, if_pos hnan, Decimal.eq_ofBits_of_isNaN hnan]
    exact @word 'n' ['a', 'n'] rfl (List.all_eq_true.mp rfl)
  · rw [Bool.not_eq_true] at hnan
    by_cases hinf : x.isInf = true
    · have hx := Decimal.eq_ofBits_of_magnitude (Decimal.toBits_mod_signBit_of_isInf hinf).symm
      unfold Scalar.floatChars
      simp only [hnan, Bool.false_eq_true, ↓reduceIte, hinf]
      by_cases hneg : Decimal.isNegative x = true
      · rw [if_pos hneg] at hx
        rw [if_pos hneg, ← hx]
        exact ⟨'-', ['i', 'n', 'f'], rfl, rfl, by decide, fun rest _ => rfl⟩
      · rw [if_neg hneg] at hx
        rw [if_neg hneg, ← hx]
        exact @word 'i' ['n', 'f'] rfl (List.all_eq_true.mp rfl)
    · rw [Bool.not_eq_true] at hinf
      obtain ⟨whole, places, hwhole, hplaces, hdigits, htext, hreads⟩ :=
        Scalar.floatChars_of_finite hnan hinf
      rw [htext]
      apply number
      · exact hwhole
      · exact fun c hc => hdigits c (List.mem_append_left _ hc)
      · intro c hc
        rw [← Option.some.inj hc]
        rfl
      · intro rest hrest
        have hread := Match.ofNumber_point (Decimal.isNegative x) whole hplaces
          (fun c hc => hdigits c (List.mem_append_right _ hc)) hrest
        rw [hread, Decimal.toFloat_eq hnan hinf hreads]

/-- The written form of a scalar is one token that holds it. -/
theorem scalar (value : Scalar) : IsTokenText value.inlineChars (.scalar value) := by
  cases value with
  | symbol name =>
    have htoken := symbol name.toList
    rw [String.ofList_toList] at htoken
    exact htoken
  | text value =>
    have htoken := text value.toList
    rw [String.ofList_toList] at htoken
    exact htoken
  | int value => exact int value
  | float value => exact float value
  | nil => exact @word 'n' ['i', 'l'] rfl (List.all_eq_true.mp rfl)

end IsTokenText

namespace Scalar

private theorem newline_not_mem_digits {digits : List Char}
    (hdigits : ∀ c ∈ digits, Numeral.isDigit c = true) : '\n' ∉ digits := by
  intro hmem
  exact absurd (hdigits _ hmem) (by decide)

/-- The written form of a scalar never breaks a line. -/
theorem newline_not_mem_inlineChars (value : Scalar) : '\n' ∉ value.inlineChars := by
  cases value with
  | symbol name =>
    change '\n' ∉ symbolChars name.toList
    unfold symbolChars
    split
    · simpa using Quoted.newline_not_mem_encode name.toList
    · rename_i hbare
      intro hmem
      rcases List.mem_cons.mp hmem with hmem | hmem
      · exact absurd hmem (by decide)
      · apply hbare
        rw [Bool.or_eq_true, List.any_eq_true]
        exact Or.inr ⟨'\n', hmem, rfl⟩
  | text value => exact Quoted.newline_not_mem_encode value.toList
  | int value =>
    change '\n' ∉ Numeral.ofInt value.toInt
    have hdigits := newline_not_mem_digits
      (fun c hc => Numeral.isDigit_of_mem_toDigits (n := value.toInt.natAbs) hc)
    unfold Numeral.ofInt
    split
    · simpa using hdigits
    · exact hdigits
  | float x =>
    change '\n' ∉ floatChars x
    by_cases hfinite : x.isNaN = false ∧ x.isInf = false
    · obtain ⟨whole, places, -, -, hdigits, htext, -⟩ :=
        floatChars_of_finite hfinite.1 hfinite.2
      have hnone := newline_not_mem_digits hdigits
      rw [htext]
      split <;> simpa using hnone
    · unfold floatChars
      split
      · decide
      · split
        · split <;> decide
        · simp_all
  | nil => decide

end Scalar

end PhasedTests
