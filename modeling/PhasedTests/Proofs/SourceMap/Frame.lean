import PhasedTests.Proofs.SourceMap.Backtrace

/-!
# Which frames are shown elsewhere

There is only one way to take a frame apart. The filter shows a frame elsewhere if its path is that
of a transformed file, its number fits into a word and its rest is a single line, and then it
exchanges the path and the number and nothing else. All other frames stay as they are. So a frame
that was shown at its source is left alone by the next filter, unless the source path, up to its
first colon, names a transformed file again.
-/

namespace PhasedTests

open Text

namespace Frame

/-- A frame consists of a path without blanks and colons, a colon, as many digits as there are, and
a rest on the same line. -/
structure Splits (chars : List Char) (parts : Frame) : Prop where
  text : chars = parts.path ++ ':' :: (parts.digits ++ parts.rest)
  nameable : Nameable parts.path
  digits : parts.digits ≠ []
  decimal : ∀ c ∈ parts.digits, isDecimalDigit c = true
  maximal : ∀ c ∈ parts.rest.head?, isDecimalDigit c = false
  rest : '\n' ∉ parts.rest

private theorem drop_takeWhile (p : Char → Bool) (chars : List Char) :
    chars.drop (chars.takeWhile p).length = chars.dropWhile p := by
  have hdrop := congrArg (List.drop (chars.takeWhile p).length)
    (@List.takeWhile_append_dropWhile _ p chars)
  rw [List.drop_left] at hdrop
  exact hdrop.symm

/-- A frame is taken apart in the only way in which it can be. -/
theorem parse?_eq_some_iff {chars : List Char} {parts : Frame} :
    parse? chars = some parts ↔ Splits chars parts := by
  constructor
  · intro hparts
    have hnameable := nameable_of_parse? hparts
    unfold parse? at hparts
    dsimp only at hparts
    rw [drop_takeWhile] at hparts
    split at hparts
    · rename_i after hbehind
      rw [drop_takeWhile] at hparts
      split at hparts
      · cases hparts
      · rename_i hsome
        simp only [Bool.or_eq_true, List.isEmpty_iff, List.contains_iff_mem, not_or] at hsome
        obtain rfl := Option.some.inj hparts
        refine ⟨?_, hnameable, hsome.1.2, fun c hc => ?_, fun c hc => ?_, hsome.2⟩
        · rw [List.takeWhile_append_dropWhile, ← hbehind, List.takeWhile_append_dropWhile]
        · exact List.all_eq_true.mp List.all_takeWhile c hc
        · have hhead := List.head?_dropWhile_not isDecimalDigit after
          rw [Option.mem_def.mp hc] at hhead
          simpa using hhead
    · cases hparts
  · rintro ⟨rfl, hnameable, hdigits, hdecimal, hmaximal, hrest⟩
    exact parse?_append hnameable hdigits hdecimal hmaximal hrest

end Frame

namespace Registry

variable {registry : Registry} {frame shown : String}

/-- The frame lies in a transformed file and is shown at its source: it starts with the path of the
file, a colon and a number, of which no digit is left over, and goes on on the same line. -/
inductive Moves (registry : Registry) : String → String → Prop where
  | mk {path digits rest : List Char} {map : SourceMap} (hpath : Frame.Nameable path)
      (hregistered : registry.find? (String.ofList path) = some map) (hdigits : digits ≠ [])
      (hdigit : ∀ c ∈ digits, Numeral.isDigit c = true)
      (hmaximal : ∀ c ∈ rest.head?, isDecimalDigit c = false)
      (hword : Numeral.ofDigits digits < UInt64.size) (hrest : '\n' ∉ rest) :
      Moves registry (String.ofList (path ++ ':' :: (digits ++ rest)))
        (map.source ++ ":" ++ shownLine (map.line? (Numeral.ofDigits digits)) ++
          String.ofList rest)

/-- A frame in a transformed file is shown at its source. -/
theorem Moves.filterFrame_eq (hmoves : registry.Moves frame shown) :
    registry.filterFrame frame = shown := by
  cases hmoves with
  | @mk path digits rest map hpath hregistered hdigits hdigit hmaximal hword hrest =>
    have hparts : Frame.parse? (String.ofList (path ++ ':' :: (digits ++ rest))).toList =
        some ⟨path, digits, rest⟩ := by
      rw [String.toList_ofList]
      exact Frame.parse?_append hpath hdigits
        (fun c hc => isDecimalDigit_of_isDigit (hdigit c hc)) hmaximal hrest
    have hline : Numeral.toWord? digits = some (Numeral.ofDigits digits) :=
      if_pos ⟨hdigits, List.all_eq_true.mpr hdigit, hword⟩
    exact filterFrame_of_parse? hparts hline hregistered

/-- A frame that is not shown as it is lies in a transformed file. -/
theorem moves_of_filterFrame (hother : registry.filterFrame frame ≠ frame) :
    registry.Moves frame (registry.filterFrame frame) := by
  have hsame : ∀ shown, registry.filterFrame frame = shown → shown ≠ frame :=
    fun shown hshown => hshown ▸ hother
  cases hparts : Frame.parse? frame.toList with
  | none =>
    refine absurd rfl (hsame frame ?_)
    simp only [filterFrame, hparts, Option.bind_eq_bind, Option.bind_none, Option.getD_none]
  | some parts =>
    obtain ⟨path, digits, rest⟩ := parts
    cases hline : Numeral.toWord? digits with
    | none =>
      refine absurd rfl (hsame frame ?_)
      simp only [filterFrame, hparts, hline, Option.bind_eq_bind, Option.bind_some,
        Option.bind_none, Option.getD_none]
    | some line =>
      cases hfind : registry.find? (String.ofList path) with
      | none =>
        refine absurd rfl (hsame frame ?_)
        simp only [filterFrame, sourceOf?, hparts, hline, hfind, Option.bind_eq_bind,
          Option.bind_some, Option.map_none, Option.bind_none, Option.getD_none]
      | some map =>
        rw [filterFrame_of_parse? hparts hline hfind]
        obtain ⟨htext, hpath, -, -, hmaximal, hrest⟩ := Frame.parse?_eq_some_iff.mp hparts
        obtain ⟨hdigits, hvalue⟩ := Option.ite_none_right_eq_some.mp hline
        obtain rfl := Option.some.inj hvalue
        have hframe : frame = String.ofList (path ++ ':' :: (digits ++ rest)) := by
          rw [← htext, String.ofList_toList]
        rw [hframe]
        exact .mk hpath hfind hdigits.1 (List.all_eq_true.mp hdigits.2.1) hmaximal hdigits.2.2 hrest

/-- The part of a path before its first colon, or all of it. -/
def beforeColon (path : String) : String :=
  String.ofList (path.toList.takeWhile (· != ':'))

private theorem takeWhile_append_colon (before after : List Char) :
    (before ++ ':' :: after).takeWhile (· != ':') = before.takeWhile (· != ':') := by
  induction before with
  | nil => rfl
  | cons c before ih =>
    rw [List.cons_append, List.takeWhile_cons, List.takeWhile_cons, ih]

/-- What names a transformed file in a frame stands before the first colon of the frame. -/
theorem Moves.isSome_beforeColon (hmoves : registry.Moves frame shown) :
    (registry.find? (beforeColon frame)).isSome = true := by
  cases hmoves with
  | @mk path digits rest map hpath hregistered =>
    have hname : (path ++ ':' :: (digits ++ rest)).takeWhile (· != ':') = path := by
      refine takeWhile_append_of_head (fun c hc => bne_iff_ne.mpr (hpath.2 c hc).2) fun c hc => ?_
      obtain rfl := Option.some.inj hc
      rfl
    rw [beforeColon, String.toList_ofList, hname, hregistered]
    rfl

/-- Before the first colon of a frame that is shown at its source stands the path of the source, up
to its own first colon. -/
theorem Moves.exists_beforeColon (hmoves : registry.Moves frame shown) :
    ∃ path map, registry.find? path = some map ∧ beforeColon shown = beforeColon map.source := by
  cases hmoves with
  | @mk path digits rest map hpath hregistered =>
    refine ⟨_, map, hregistered, ?_⟩
    simp only [beforeColon, String.toList_append, List.append_assoc]
    exact congrArg String.ofList (takeWhile_append_colon _ _)

/-- If no source is named like a transformed file, a filtered frame stays as it is. -/
theorem filterFrame_filterFrame
    (hsources : ∀ path map, registry.find? path = some map →
      registry.find? (beforeColon map.source) = none) (frame : String) :
    registry.filterFrame (registry.filterFrame frame) = registry.filterFrame frame := by
  by_cases hfirst : registry.filterFrame frame = frame
  · rw [hfirst, hfirst]
  · obtain ⟨path, map, hfind, hcolon⟩ := (moves_of_filterFrame hfirst).exists_beforeColon
    by_contra hsecond
    have hnamed := (moves_of_filterFrame hsecond).isSome_beforeColon
    rw [hcolon, hsources path map hfind] at hnamed
    cases hnamed

end Registry

end PhasedTests
