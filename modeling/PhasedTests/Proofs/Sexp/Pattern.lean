import Mathlib.Data.List.TakeWhile
import PhasedTests.Proofs.Sexp.Location

/-!
# The longest match

The written forms of the tokens, pattern by pattern, apart from how they are found. What is taken
for a token matches one of the patterns, and no longer part of the text from its start matches any
of them: a run of characters goes on as far as it can, a number with a fraction or an exponent goes
on over the digits before it, and a quoted body is closed by the first quote that is not escaped.
-/

namespace PhasedTests

open Text

/-- The characters are digits, at least one. -/
def IsDigits (chars : List Char) : Prop :=
  chars ≠ [] ∧ ∀ c ∈ chars, Numeral.isDigit c = true

/-- A fraction: a point and digits, or nothing. -/
inductive IsFraction : List Char → Prop
  | none : IsFraction []
  | point {digits : List Char} : IsDigits digits → IsFraction ('.' :: digits)

/-- A sign, or nothing. -/
inductive IsSign : List Char → Prop
  | none : IsSign []
  | minus : IsSign ['-']
  | plus : IsSign ['+']

/-- An exponent: a letter, a sign or none, and digits, or nothing. -/
inductive IsExponent : List Char → Prop
  | none : IsExponent []
  | letter {c : Char} {sign digits : List Char} : c = 'e' ∨ c = 'E' → IsSign sign →
      IsDigits digits → IsExponent (c :: (sign ++ digits))

/-- The texts that match the pattern of a token. -/
inductive Pattern : List Char → Prop
  | openParen : Pattern ['(']
  | closeParen : Pattern [')']
  | quoted {body : List Char} : Quoted.IsBody body → Pattern ('"' :: (body ++ ['"']))
  | quotedSymbol {body : List Char} : Quoted.IsBody body → Pattern (':' :: '"' :: (body ++ ['"']))
  | bareSymbol {name : List Char} : name ≠ [] → (∀ c ∈ name, isDelimiter c = false) →
      Pattern (':' :: name)
  | word {c : Char} {rest : List Char} : Match.isWordStart c = true →
      (∀ d ∈ rest, Match.isWordRest d = true) → Pattern (c :: rest)
  | number (negative : Bool) {whole places power : List Char} : IsDigits whole →
      IsFraction places → IsExponent power →
      Pattern ((if negative then ['-'] else []) ++ (whole ++ (places ++ power)))
  | minusInfinity : Pattern ['-', 'i', 'n', 'f']

/-- The longest part of a text from its start that matches a pattern. -/
structure LongestMatch (chars taken : List Char) : Prop where
  pattern : Pattern taken
  part : taken <+: chars
  longest : ∀ other, Pattern other → other <+: chars → other.length ≤ taken.length

namespace Match

/-! ## Runs of characters -/

/-- A run of characters with a property goes on behind characters that have it. -/
private theorem length_le_takeWhile {p : Char → Bool} {run : List Char}
    (hrun : ∀ c ∈ run, p c = true) (rest : List Char) :
    run.length ≤ ((run ++ rest).takeWhile p).length := by
  rw [List.takeWhile_append_of_pos hrun, List.length_append]
  exact Nat.le_add_right _ _

/-- Digits are not overlooked. -/
private theorem takeWhile_ne_nil {digits : List Char} (hdigits : IsDigits digits)
    (rest : List Char) : (digits ++ rest).takeWhile Numeral.isDigit ≠ [] := by
  intro hnone
  rw [List.takeWhile_append_of_pos hdigits.2] at hnone
  exact hdigits.1 (List.append_eq_nil_iff.mp hnone).1

/-! ## Numbers -/

private theorem isFraction_fraction (rest : List Char) : IsFraction (fraction rest) := by
  unfold fraction
  split
  · split
    · exact .none
    · rename_i hsome
      exact .point ⟨hsome, fun c hc => List.mem_takeWhile_imp hc⟩
  · exact .none

private theorem isSign_sign (rest : List Char) : IsSign (sign rest) := by
  unfold sign
  split
  · exact .minus
  · exact .plus
  · exact .none

private theorem isExponent_exponent (rest : List Char) : IsExponent (exponent rest) := by
  unfold exponent
  split
  · rename_i c rest
    split
    · rename_i hletter
      split
      · exact .none
      · rename_i hsome
        exact .letter hletter (isSign_sign rest)
          ⟨hsome, fun c hc => List.mem_takeWhile_imp hc⟩
    · exact .none
  · exact .none

/-- A sign before digits is read, and none if there is none. -/
private theorem sign_append {chars digits : List Char} (hsign : IsSign chars)
    (hdigits : IsDigits digits) (rest : List Char) : sign (chars ++ (digits ++ rest)) = chars := by
  cases hsign with
  | minus => rfl
  | plus => rfl
  | none =>
    obtain ⟨hsome, hall⟩ := hdigits
    obtain ⟨d, digits, rfl⟩ := List.exists_cons_of_ne_nil hsome
    have hd := hall d List.mem_cons_self
    unfold sign
    split
    · rename_i hminus
      rw [(List.cons.inj hminus).1] at hd
      cases hd
    · rename_i hplus
      rw [(List.cons.inj hplus).1] at hd
      cases hd
    · rfl

/-- A fraction goes on as far as its digits do. -/
theorem length_le_fraction {places : List Char} (hplaces : IsFraction places) (rest : List Char) :
    places.length ≤ (fraction (places ++ rest)).length := by
  cases hplaces with
  | none => exact Nat.zero_le _
  | point hdigits =>
    rw [List.cons_append, fraction]
    split
    · rename_i hnone
      exact absurd hnone (takeWhile_ne_nil hdigits rest)
    · exact Nat.succ_le_succ (length_le_takeWhile hdigits.2 rest)

/-- An exponent goes on as far as its digits do. -/
theorem length_le_exponent {power : List Char} (hpower : IsExponent power) (rest : List Char) :
    power.length ≤ (exponent (power ++ rest)).length := by
  cases hpower with
  | none => exact Nat.zero_le _
  | letter hletter hsign hdigits =>
    have hrun := length_le_takeWhile hdigits.2 rest
    rw [List.cons_append, List.append_assoc, exponent, if_pos hletter,
      sign_append hsign hdigits, List.drop_left]
    split
    · rename_i hnone
      exact absurd hnone (takeWhile_ne_nil hdigits rest)
    · rw [List.length_cons, List.length_cons, List.length_append, List.length_append]
      omega

/-- A letter is neither a digit nor a point. -/
private theorem fraction_letter {c : Char} (hletter : c = 'e' ∨ c = 'E') {places : List Char}
    (hplaces : IsFraction places) (rest : List Char) :
    fraction (places ++ c :: rest) = places := by
  cases hplaces with
  | none => rcases hletter with rfl | rfl <;> rfl
  | point hdigits =>
    rename_i digits
    have hrun : (digits ++ c :: rest).takeWhile Numeral.isDigit = digits := by
      refine takeWhile_append_of_head hdigits.2 fun d hd => ?_
      obtain rfl := Option.some.inj hd
      rcases hletter with rfl | rfl <;> rfl
    rw [List.cons_append, fraction, hrun]
    split
    · exact absurd rfl hdigits.1
    · rfl

/-- Behind its whole digits a number goes on over a fraction and an exponent. -/
private theorem length_le_fraction_exponent {places power : List Char} (hplaces : IsFraction places)
    (hpower : IsExponent power) (rest : List Char) :
    let tail := places ++ (power ++ rest)
    places.length + power.length ≤
      (fraction tail).length + (exponent (tail.drop (fraction tail).length)).length := by
  intro tail
  cases hpower with
  | none =>
    have hlength := length_le_fraction hplaces rest
    change places.length + 0 ≤ (fraction (places ++ rest)).length + _
    omega
  | letter hletter hsign hdigits =>
    rename_i c sign' digits
    have hfraction : fraction tail = places := fraction_letter hletter hplaces _
    have hlength := length_le_exponent (.letter hletter hsign hdigits) rest
    rw [hfraction, List.drop_left]
    omega

/-- What a number takes. -/
private theorem taken_ofNumber_eq (negative : Bool) (whole rest : List Char) :
    (ofNumber negative whole rest).taken = (if negative then ['-'] else []) ++
      (whole ++ (fraction rest ++ exponent (rest.drop (fraction rest).length))) := by
  unfold ofNumber
  dsimp only
  split
  · rename_i hnone
    rw [Bool.and_eq_true, List.isEmpty_iff, List.isEmpty_iff] at hnone
    rw [hnone.2, hnone.1, List.append_nil, List.append_nil]
  · rfl

/-- No digit follows the whole digits of a number that goes on. -/
private theorem takeWhile_of_fraction_exponent {places power : List Char}
    (hplaces : IsFraction places) (hpower : IsExponent power) (rest : List Char) :
    (places ++ (power ++ rest)).takeWhile Numeral.isDigit = [] ∨ places = [] ∧ power = [] := by
  cases hplaces with
  | point => exact Or.inl (List.takeWhile_cons_of_neg (by decide))
  | none =>
    cases hpower with
    | none => exact Or.inr ⟨rfl, rfl⟩
    | letter hletter =>
      exact Or.inl (List.takeWhile_cons_of_neg (by rcases hletter with rfl | rfl <;> decide))

/-- A number at the start of a text is taken as a whole. -/
private theorem length_le_of_number (negative : Bool) {whole places power rest cs : List Char}
    {c : Char} (hwhole : IsDigits whole) (hplaces : IsFraction places) (hpower : IsExponent power)
    (hchars : (if negative then ['-'] else []) ++ (whole ++ (places ++ power)) ++ rest = c :: cs) :
    ((if negative then ['-'] else []) ++ (whole ++ (places ++ power))).length ≤
      (atStart c cs).taken.length := by
  -- The digits that are read are those of the number and any that follow them.
  let tail := places ++ (power ++ rest)
  let more := tail.takeWhile Numeral.isDigit
  let later := tail.dropWhile Numeral.isDigit
  have htail : more ++ later = tail := List.takeWhile_append_dropWhile
  have hrun : ∀ d ∈ whole ++ more, Numeral.isDigit d = true := by
    intro d hd
    rcases List.mem_append.mp hd with hd | hd
    · exact hwhole.2 d hd
    · exact List.mem_takeWhile_imp hd
  have hnext : ∀ d ∈ later.head?, Numeral.isDigit d = false := by
    intro d hd
    have hstop := List.head?_dropWhile_not Numeral.isDigit tail
    rwa [hd] at hstop
  obtain ⟨c', cs', hstart, -, hread⟩ := atStart_digits negative (by simp [hwhole.1]) hrun hnext
  have hsplit : c :: cs = c' :: (cs' ++ later) := by
    rw [← hchars, ← List.cons_append, ← hstart]
    simp only [List.append_assoc, htail, tail]
  obtain ⟨rfl, rfl⟩ := List.cons.inj hsplit
  rw [hread, taken_ofNumber_eq]
  simp only [List.length_append]
  rcases takeWhile_of_fraction_exponent hplaces hpower rest with hnone | ⟨rfl, rfl⟩
  · have hmore : more = [] := hnone
    have hlater : later = tail := by rw [← htail, hmore, List.nil_append]
    have hlength := length_le_fraction_exponent hplaces hpower rest
    dsimp only at hlength
    rw [hlater]
    simp only [tail]
    omega
  · simp only [List.length_nil]
    omega

/-! ## The longest match -/

/-- A quoted text is taken up to its closing quote. -/
private theorem taken_of_isBody {body : List Char} (hbody : Quoted.IsBody body)
    (opening rest : List Char) (scalar : String → Scalar) :
    (ofQuoted opening (body ++ ['"'] ++ rest) scalar).taken = opening ++ (body ++ ['"']) := by
  rw [ofQuoted, List.append_assoc, List.singleton_append, hbody.splitBody_quote]
  rfl

/-- A part of a text that matches a pattern is no longer than what is taken. -/
theorem length_le_of_pattern {c : Char} {cs part : List Char} (hpattern : Pattern part)
    (hpart : part <+: c :: cs) : part.length ≤ (atStart c cs).taken.length := by
  have hfirst : 1 ≤ (atStart c cs).taken.length := by
    obtain ⟨taken, htaken, -⟩ := taken_eq c cs
    rw [htaken]
    exact Nat.succ_le_succ (Nat.zero_le _)
  cases hpattern with
  | openParen => exact hfirst
  | closeParen => exact hfirst
  | quoted hbody =>
    obtain ⟨rfl, rest, rfl⟩ := List.cons_prefix_cons.mp hpart
    exact (congrArg List.length (taken_of_isBody hbody ['"'] rest .text)).ge
  | quotedSymbol hbody =>
    obtain ⟨rfl, rest, rfl⟩ := List.cons_prefix_cons.mp hpart
    exact (congrArg List.length (taken_of_isBody hbody [':', '"'] rest .symbol)).ge
  | bareSymbol hsome hname =>
    obtain ⟨rfl, rest, rfl⟩ := List.cons_prefix_cons.mp hpart
    obtain ⟨d, name, rfl⟩ := List.exists_cons_of_ne_nil hsome
    have hrun := @length_le_takeWhile (fun d => !isDelimiter d) name
      (fun e he => by simp [hname e (List.mem_cons_of_mem _ he)]) rest
    rw [List.cons_append, atStart_name (hname d List.mem_cons_self)]
    exact Nat.succ_le_succ (Nat.succ_le_succ hrun)
  | word hstart hword =>
    obtain ⟨rfl, rest, rfl⟩ := List.cons_prefix_cons.mp hpart
    rw [atStart_wordStart hstart]
    exact Nat.succ_le_succ (length_le_takeWhile hword rest)
  | number negative hwhole hplaces hpower =>
    obtain ⟨rest, hchars⟩ := hpart
    exact length_le_of_number negative hwhole hplaces hpower hchars
  | minusInfinity =>
    obtain ⟨rfl, rest, rfl⟩ := List.cons_prefix_cons.mp hpart
    exact Nat.le_refl 4

/-! ## What is taken -/

/-- What is taken for a number is a number. -/
private theorem pattern_of_ofNumber (negative : Bool) {whole : List Char} (hwhole : IsDigits whole)
    (rest : List Char) : Pattern (ofNumber negative whole rest).taken := by
  rw [taken_ofNumber_eq]
  exact .number negative hwhole (isFraction_fraction rest) (isExponent_exponent _)

/-- What is taken for a quoted token is closed. -/
private theorem exists_body_of_ofQuoted {opening rest : List Char} {scalar : String → Scalar}
    {token : Token} (htoken : (ofQuoted opening rest scalar).token = some token) :
    ∃ body, Quoted.IsBody body ∧
      (ofQuoted opening rest scalar).taken = opening ++ (body ++ ['"']) := by
  unfold ofQuoted at htoken ⊢
  dsimp only at htoken ⊢
  split at htoken
  · exact ⟨_, Quoted.isBody_splitBody rest, rfl⟩
  · cases htoken

/-- What is taken for a token matches a pattern. -/
theorem pattern_of_atStart {c : Char} {cs : List Char} {token : Token}
    (htoken : (atStart c cs).token = some token) : Pattern (atStart c cs).taken := by
  have hrun {p : Char → Bool} {chars : List Char} : ∀ d ∈ chars.takeWhile p, p d = true :=
    fun d hd => List.mem_takeWhile_imp hd
  generalize hfound : atStart c cs = found at htoken ⊢
  unfold atStart at hfound
  split at hfound
  · rename_i hopen
    subst hopen hfound
    exact .openParen
  · split at hfound
    · rename_i hclose
      subst hclose hfound
      exact .closeParen
    · split at hfound
      · rename_i hquote
        subst hquote hfound
        obtain ⟨body, hbody, htaken⟩ := exists_body_of_ofQuoted htoken
        rw [htaken]
        exact .quoted hbody
      · split at hfound
        · rename_i hcolon
          subst hcolon
          split at hfound
          · subst hfound
            obtain ⟨body, hbody, htaken⟩ := exists_body_of_ofQuoted htoken
            rw [htaken]
            exact .quotedSymbol hbody
          · split at hfound
            · subst hfound
              cases htoken
            · rename_i hsome
              subst hfound
              exact .bareSymbol hsome fun d hd => by simpa using hrun d hd
        · split at hfound
          · rename_i hstart
            subst hfound
            exact .word hstart hrun
          · split at hfound
            · split at hfound
              · subst hfound
                exact .minusInfinity
              · split at hfound
                · subst hfound
                  cases htoken
                · subst hfound
                  exact pattern_of_ofNumber true ⟨‹_›, hrun⟩ _
            · split at hfound
              · rename_i hdigit
                subst hfound
                exact pattern_of_ofNumber false
                  ⟨List.cons_ne_nil _ _, List.forall_mem_cons.mpr ⟨hdigit, hrun⟩⟩ _
              · subst hfound
                cases htoken

/-- The next token of a text takes the longest part from its start that matches a pattern. -/
theorem longestMatch_atStart {c : Char} {cs : List Char} {token : Token}
    (htoken : (atStart c cs).token = some token) :
    LongestMatch (c :: cs) (atStart c cs).taken where
  pattern := pattern_of_atStart htoken
  part := by
    obtain ⟨taken, htaken, hpart⟩ := taken_eq c cs
    rw [htaken]
    exact List.cons_prefix_cons.mpr ⟨rfl, hpart⟩
  longest _ hpattern hpart := length_le_of_pattern hpattern hpart

end Match

end PhasedTests
