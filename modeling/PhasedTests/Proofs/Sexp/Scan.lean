import PhasedTests.Proofs.Sexp.Token
import PhasedTests.Proofs.Source.LineIndex

/-!
# Scanning written text

How a scan goes over one gap character, one token, and the written forms in a row. What a written
form is scanned as depends on nothing before it, and on what follows it only through the boundary.
-/

namespace PhasedTests

open Text

namespace Scan

/-- The scan with tokens found before it. -/
def after (lexemes : List Lexeme) (later : Scan) : Scan :=
  ⟨lexemes ++ later.lexemes, later.stray⟩

/-- Tokens before tokens before a scan are the tokens of both before it. -/
theorem after_after (first second : List Lexeme) (later : Scan) :
    after first (after second later) = after (first ++ second) later := by
  unfold after
  rw [List.append_assoc]

/-- In the empty text nothing is found. -/
theorem fromOffset_nil (offset : Nat) : fromOffset offset [] = ⟨[], none⟩ := by
  rw [fromOffset.eq_def]
  rfl

/-- What stands behind the gap is a token, or it ends the scan. -/
theorem fromOffset_of_drop {chars rest : List Char} {c : Char}
    (hrest : chars.drop (gap false chars).length = c :: rest) (offset : Nat) :
    fromOffset offset chars =
      let found := Match.atStart c rest
      let first := offset + byteLength (gap false chars)
      let stop := first + byteLength found.taken
      match found.token with
      | none => ⟨[], some ⟨found.taken, first, stop⟩⟩
      | some token =>
        after [⟨token, first, stop⟩] (fromOffset stop (rest.drop (found.taken.length - 1))) := by
  rw [fromOffset.eq_def]
  split
  · rename_i hnil
    cases hrest.symm.trans hnil
  · rename_i hcons
    obtain ⟨rfl, rfl⟩ := List.cons.inj (hrest.symm.trans hcons)
    rfl

/-- The scan of a text whose first token is known goes on behind that token. -/
theorem fromOffset_of_token {chars rest : List Char} {c : Char} {token : Token} {later : Scan}
    {offset : Nat} (hrest : chars.drop (gap false chars).length = c :: rest)
    (htoken : (Match.atStart c rest).token = some token)
    (hlater : fromOffset
      (offset + byteLength (gap false chars) + byteLength (Match.atStart c rest).taken)
      (rest.drop ((Match.atStart c rest).taken.length - 1)) = later) :
    fromOffset offset chars =
      after [⟨token, offset + byteLength (gap false chars),
        offset + byteLength (gap false chars) + byteLength (Match.atStart c rest).taken⟩]
        later := by
  rw [fromOffset_of_drop hrest]
  simp only [htoken, hlater]

/-- A scan depends only on what stands behind the gap, and where. -/
theorem fromOffset_congr {offset offset' : Nat} {chars chars' : List Char}
    (hbytes : offset + byteLength (gap false chars) = offset' + byteLength (gap false chars'))
    (hdrop : chars.drop (gap false chars).length = chars'.drop (gap false chars').length) :
    fromOffset offset chars = fromOffset offset' chars' := by
  rw [fromOffset.eq_def offset, fromOffset.eq_def offset']
  simp only [hbytes]
  rw [hdrop]

/-- A gap character only moves the offset. -/
theorem fromOffset_gapChar {c : Char} (hgap : isGapChar c = true) (offset : Nat)
    (rest : List Char) : fromOffset offset (c :: rest) = fromOffset (offset + c.utf8Size) rest := by
  have hsemicolon : c ≠ ';' := by
    rintro rfl
    exact absurd hgap (by decide)
  have hskip : gap false (c :: rest) = c :: gap false rest := by
    rw [gap, if_neg (by decide), if_neg hsemicolon, if_pos hgap]
  apply fromOffset_congr
  · rw [hskip, byteLength, Nat.add_assoc]
  · rw [hskip, List.length_cons, List.drop_succ_cons]

/-- Without a gap before it a token is found at once, and the scan goes on behind it. -/
theorem fromOffset_token {c : Char} {cs rest : List Char} {token : Token}
    (hgap : isGapChar c = false) (hsemicolon : c ≠ ';')
    (hread : Match.atStart c (cs ++ rest) = ⟨some token, c :: cs⟩) (offset : Nat) :
    fromOffset offset (c :: cs ++ rest) =
      after [⟨token, offset, offset + byteLength (c :: cs)⟩]
        (fromOffset (offset + byteLength (c :: cs)) rest) := by
  have hskip : gap false (c :: (cs ++ rest)) = [] := by
    rw [gap, if_neg (by decide), if_neg hsemicolon, if_neg (by simp [hgap])]
  have hdrop : (c :: (cs ++ rest)).drop (gap false (c :: (cs ++ rest))).length =
      c :: (cs ++ rest) := by
    rw [hskip, List.length_nil, List.drop_zero]
  rw [List.cons_append, fromOffset_of_drop hdrop]
  simp only [hread, hskip, byteLength, List.length_cons, Nat.add_sub_cancel, List.drop_left,
    Nat.add_zero]

/-- The text is scanned as these tokens when it starts at byte `offset`, whatever may follow a
scalar behind it. -/
def Yields (offset : Nat) (text : List Char) (lexemes : List Lexeme) : Prop :=
  ∀ rest, IsBoundary rest →
    fromOffset offset (text ++ rest) =
      after lexemes (fromOffset (offset + byteLength text) rest)

namespace Yields

/-- The empty text yields no tokens. -/
theorem nil (offset : Nat) : Yields offset [] [] := by
  intro rest _
  rfl

/-- One token. -/
theorem token {text : List Char} {token : Token} (htoken : IsTokenText text token)
    (offset : Nat) : Yields offset text [⟨token, offset, offset + byteLength text⟩] := by
  obtain ⟨c, cs, rfl, hgap, hsemicolon, hread⟩ := htoken
  intro rest hrest
  exact fromOffset_token hgap hsemicolon (hread rest hrest) offset

/-- A closing parenthesis. -/
theorem closeParen (offset : Nat) :
    Yields offset [')'] [⟨.closeParen, offset, offset + 1⟩] := by
  intro rest _
  exact @fromOffset_token ')' [] rest .closeParen rfl (by decide) rfl offset

/-- An opening parenthesis, whatever follows it. -/
theorem openParen {offset : Nat} {text : List Char} {lexemes : List Lexeme}
    (htext : Yields (offset + 1) text lexemes) :
    Yields offset ('(' :: text) (⟨.openParen, offset, offset + 1⟩ :: lexemes) := by
  intro rest hrest
  have hbytes : byteLength ('(' :: text) = 1 + byteLength text := rfl
  have hopen := @fromOffset_token '(' [] (text ++ rest) .openParen rfl (by decide) rfl offset
  rw [hbytes, ← Nat.add_assoc]
  change fromOffset offset ('(' :: (text ++ rest)) = _
  refine hopen.trans ?_
  change after _ (fromOffset (offset + 1) (text ++ rest)) = _
  rw [htext rest hrest, after_after]
  rfl

/-- Gap characters before a text only move its offset. -/
theorem gap {offset : Nat} {gapText text : List Char} {lexemes : List Lexeme}
    (hgap : ∀ c ∈ gapText, isGapChar c = true)
    (htext : Yields (offset + byteLength gapText) text lexemes) :
    Yields offset (gapText ++ text) lexemes := by
  induction gapText generalizing offset with
  | nil => exact htext
  | cons c gapText ih =>
    have hlater : Yields (offset + c.utf8Size) (gapText ++ text) lexemes := by
      apply ih (fun d hd => hgap d (List.mem_cons_of_mem _ hd))
      rw [Nat.add_assoc]
      exact htext
    intro rest hrest
    have hstep := fromOffset_gapChar (hgap c List.mem_cons_self) offset (gapText ++ text ++ rest)
    rw [List.cons_append, List.cons_append, hstep, hlater rest hrest, byteLength, Nat.add_assoc]

/-- Two texts in a row, if what follows the first one is a boundary. -/
theorem append {offset : Nat} {first second : List Char} {lexemes later : List Lexeme}
    (hfirst : Yields offset first lexemes)
    (hsecond : Yields (offset + byteLength first) second later)
    (hboundary : ∀ rest, IsBoundary rest → IsBoundary (second ++ rest)) :
    Yields offset (first ++ second) (lexemes ++ later) := by
  intro rest hrest
  rw [List.append_assoc, hfirst _ (hboundary rest hrest), hsecond rest hrest, after_after,
    byteLength_append, Nat.add_assoc]

end Yields

end Scan

end PhasedTests
