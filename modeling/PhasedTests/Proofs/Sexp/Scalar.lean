import PhasedTests.Proofs.Sexp.Pattern
import PhasedTests.Proofs.Source.Span

/-!
# Scalars delimit themselves

The written form of a scalar needs nothing between it and what follows but a space, a line feed, a
closing parenthesis or the end of the text. It is the longest match there, so a scan finds it as one
token, and goes on with the tokens that follow as if they stood alone, only further on.
-/

namespace PhasedTests

/-- The token of a text behind `count` bytes. -/
def Lexeme.moved (count : Nat) (lexeme : Lexeme) : Lexeme :=
  ⟨lexeme.token, count + lexeme.first, count + lexeme.stop⟩

/-- The characters that are no token, in a text behind `count` bytes. -/
def Stray.moved (count : Nat) (stray : Stray) : Stray :=
  ⟨stray.chars, count + stray.first, count + stray.stop⟩

namespace Scan

/-- The scan of a text behind `count` bytes. -/
def moved (count : Nat) (scan : Scan) : Scan :=
  ⟨scan.lexemes.map (Lexeme.moved count), scan.stray.map (Stray.moved count)⟩

/-- What is found does not depend on where the text starts, only the offsets do. -/
theorem fromOffset_add (count offset : Nat) (chars : List Char) :
    fromOffset (count + offset) chars = (fromOffset offset chars).moved count := by
  fun_induction fromOffset offset chars with
  | case1 offset chars hrest =>
    rw [fromOffset.eq_def]
    split
    · rfl
    · rename_i hcons
      cases hrest.symm.trans hcons
  | case2 offset chars c rest hrest found first stop htoken =>
    have hfirst : count + offset + byteLength (gap false chars) = count + first := Nat.add_assoc ..
    have hstop : count + first + byteLength found.taken = count + stop := Nat.add_assoc ..
    rw [fromOffset_of_drop hrest]
    dsimp only
    rw [show Match.atStart c rest = found from rfl, htoken, hfirst, hstop]
    rfl
  | case3 offset chars c rest hrest found first stop token htoken later ih =>
    have hfirst : count + offset + byteLength (gap false chars) = count + first := Nat.add_assoc ..
    have hstop : count + first + byteLength found.taken = count + stop := Nat.add_assoc ..
    rw [fromOffset_of_drop hrest]
    dsimp only
    rw [show Match.atStart c rest = found from rfl, htoken, hfirst, hstop, ih]
    rfl

end Scan

/-- The written form of a scalar delimits itself. Before a space, a line feed, a closing parenthesis
or the end of the text it is scanned as one token that holds the scalar and spans exactly the bytes
of the written form, and behind it the text is scanned as it is alone. The written form is the
longest part of the text from its start that matches the pattern of a token, and it never breaks a
line. -/
theorem scan_inlineChars (value : Scalar) {rest : List Char} (hrest : IsBoundary rest) :
    let written := value.inlineChars
    let count := (bytes written).length
    Scan.ofChars (written ++ rest) =
        Scan.after [⟨.scalar value, 0, count⟩] ((Scan.ofChars rest).moved count) ∧
      LongestMatch (written ++ rest) written ∧ '\n' ∉ written := by
  intro written count
  have htoken := IsTokenText.scalar value
  refine ⟨?_, ?_, value.newline_not_mem_inlineChars⟩
  · have hlater : Scan.fromOffset count rest = (Scan.ofChars rest).moved count :=
      Scan.fromOffset_add count 0 rest
    have hscan := Scan.Yields.token htoken 0 rest hrest
    rw [Nat.zero_add, ← length_bytes, hlater] at hscan
    exact hscan
  · obtain ⟨c, cs, hchars, -, -, hread⟩ := htoken
    have hlongest := Match.longestMatch_atStart (congrArg Match.token (hread rest hrest))
    rw [hread rest hrest, ← List.cons_append, ← hchars] at hlongest
    exact hlongest

/-- A quoted symbol of eight bytes, and behind a space the number that is read there alone. -/
theorem scan_inlineChars_quotedSymbol :
    let written := [':', '"', 'é', ' ', '\\', '"', '"']
    let rest := [' ', '-', '1']
    IsBoundary rest ∧
      Scan.ofChars (written ++ rest) =
        ⟨[⟨.scalar (.symbol "é \""), 0, 8⟩, ⟨.scalar (.int (-1)), 9, 11⟩], none⟩ ∧
      LongestMatch (written ++ rest) written ∧ '\n' ∉ written := by
  intro written rest
  have hrest : IsBoundary rest := .space _
  have hwritten : (Scalar.symbol "é \"").inlineChars = written := by decide
  have hlater : Scan.ofChars rest = ⟨[⟨.scalar (.int (-1)), 1, 3⟩], none⟩ := by
    have hnumber := Scan.Yields.token (IsTokenText.int (-1)) 1 [] .nil
    rw [Scan.fromOffset_nil] at hnumber
    exact (Scan.fromOffset_gapChar rfl 0 ['-', '1']).trans hnumber
  obtain ⟨hscan, hlongest, hfeed⟩ := scan_inlineChars (.symbol "é \"") hrest
  rw [hwritten] at hscan hlongest hfeed
  rw [hlater] at hscan
  exact ⟨hrest, hscan, hlongest, hfeed⟩

end PhasedTests
