import PhasedTests.Text.Quoted

/-!
# Quoted text read back

A body of quoted text ends at the first quote that no backslash escapes. Escaped text is such a body
and holds neither a bare quote nor a line feed, so the closing quote is found where it was written,
and unescaping gives the text again.
-/

namespace PhasedTests.Text.Quoted

/-- A character is written as itself unless it is one of the five that are escaped. -/
private theorem escapeChar_cases (c : Char) :
    (∃ d, escapeChar c = ['\\', d] ∧ unescapeChar d = c ∧ d ≠ '\n') ∨
      (escapeChar c = [c] ∧ c ≠ '"' ∧ c ≠ '\\' ∧ c ≠ '\n') := by
  unfold escapeChar
  split
  · exact Or.inl ⟨'"', rfl, rfl, by decide⟩
  · exact Or.inl ⟨'\\', rfl, rfl, by decide⟩
  · exact Or.inl ⟨'n', rfl, rfl, by decide⟩
  · exact Or.inl ⟨'t', rfl, rfl, by decide⟩
  · exact Or.inl ⟨'r', rfl, rfl, by decide⟩
  · rename_i hquote hslash hfeed _ _
    exact Or.inr ⟨rfl, hquote, hslash, hfeed⟩

private theorem unescape_cons {c : Char} (hslash : c ≠ '\\') (rest : List Char) :
    unescape (c :: rest) = c :: unescape rest := by
  rw [unescape]
  · intro hc
    exact absurd hc hslash
  · intro _ _ hc
    exact absurd hc hslash

private theorem splitBody_cons {c : Char} (hslash : c ≠ '\\') (rest : List Char) :
    splitBody (c :: rest) = if c = '"' then ([], c :: rest)
      else (c :: (splitBody rest).1, (splitBody rest).2) := by
  rw [splitBody]
  · intro hc
    exact absurd hc hslash
  · intro _ _ hc
    exact absurd hc hslash

private theorem splitBody_backslash (c : Char) (rest : List Char) :
    splitBody ('\\' :: c :: rest) = if c = '\n' then ([], '\\' :: c :: rest)
      else ('\\' :: c :: (splitBody rest).1, (splitBody rest).2) := by
  rw [splitBody]

/-- Unescaping undoes escaping. -/
theorem unescape_escape (chars : List Char) : unescape (escape chars) = chars := by
  unfold escape
  induction chars with
  | nil => rfl
  | cons c chars ih =>
    rw [List.flatMap_cons]
    rcases escapeChar_cases c with ⟨d, hwritten, hread, -⟩ | ⟨hwritten, -, hslash, -⟩
    · rw [hwritten]
      change unescapeChar d :: unescape (chars.flatMap escapeChar) = c :: chars
      rw [hread, ih]
    · rw [hwritten, List.singleton_append, unescape_cons hslash, ih]

/-- The bodies of quoted text: characters other than the quote and the backslash, and backslashes
each followed by a character that is no line feed. -/
inductive IsBody : List Char → Prop
  | nil : IsBody []
  | plain {c : Char} {body : List Char} :
      c ≠ '"' → c ≠ '\\' → IsBody body → IsBody (c :: body)
  | escaped {c : Char} {body : List Char} : c ≠ '\n' → IsBody body → IsBody ('\\' :: c :: body)

/-- A body ends at the quote behind it. -/
theorem IsBody.splitBody_quote {body : List Char} (hbody : IsBody body) (rest : List Char) :
    splitBody (body ++ '"' :: rest) = (body, '"' :: rest) := by
  induction hbody with
  | nil => rw [List.nil_append, splitBody_cons (by decide), if_pos rfl]
  | plain hquote hslash _ ih => rw [List.cons_append, splitBody_cons hslash, if_neg hquote, ih]
  | escaped hfeed _ ih =>
    rw [List.cons_append, List.cons_append, splitBody_backslash, if_neg hfeed, ih]

/-- What is split off is a body. -/
theorem isBody_splitBody (chars : List Char) : IsBody (splitBody chars).1 := by
  fun_induction splitBody chars with
  | case1 => exact .nil
  | case2 => exact .nil
  | case3 => exact .nil
  | case4 c rest hfeed body after hsplit ih =>
    rw [hsplit] at ih
    exact .escaped hfeed ih
  | case5 => exact .nil
  | case6 c rest hlast hmore hquote body after hsplit ih =>
    rw [hsplit] at ih
    refine .plain hquote ?_ ih
    rintro rfl
    cases rest with
    | nil => exact hlast rfl rfl
    | cons d rest => exact hmore d rest rfl rfl

/-- An escaped text is a body. -/
theorem isBody_escape (chars : List Char) : IsBody (escape chars) := by
  unfold escape
  induction chars with
  | nil => exact .nil
  | cons c chars ih =>
    rw [List.flatMap_cons]
    rcases escapeChar_cases c with ⟨d, hwritten, -, hfeed⟩ | ⟨hwritten, hquote, hslash, -⟩
    · rw [hwritten]
      exact .escaped hfeed ih
    · rw [hwritten]
      exact .plain hquote hslash ih

/-- The body of an escaped text ends at the quote behind it. -/
theorem splitBody_escape (chars rest : List Char) :
    splitBody (escape chars ++ '"' :: rest) = (escape chars, '"' :: rest) :=
  (isBody_escape chars).splitBody_quote rest

/-- Where a quoted body is closed does not depend on what follows the quote. -/
theorem splitBody_append {before behind body after : List Char}
    (hsplit : splitBody (before ++ behind) = (body, '"' :: after))
    (hlength : body.length < before.length) (other : List Char) :
    ∃ later, splitBody (before ++ other) = (body, '"' :: later) := by
  fun_induction splitBody before generalizing body with
  | case1 => cases hlength
  | case2 =>
    -- The backslash and the character that it escapes would be longer than what stands before.
    cases behind with
    | nil => cases hsplit
    | cons d behind =>
      rw [List.cons_append, List.nil_append, splitBody_backslash] at hsplit
      split at hsplit
      · cases hsplit
      · obtain ⟨rfl, -⟩ := Prod.mk.inj hsplit
        simp at hlength
  | case3 rest =>
    rw [List.cons_append, List.cons_append, splitBody_backslash, if_pos rfl] at hsplit
    cases hsplit
  | case4 c rest hfeed _ _ _ ih =>
    rw [List.cons_append, List.cons_append, splitBody_backslash, if_neg hfeed] at hsplit
    obtain ⟨rfl, hafter⟩ := Prod.mk.inj hsplit
    obtain ⟨later, hlater⟩ := ih (Prod.ext rfl hafter) (by simpa using hlength)
    rw [List.cons_append, List.cons_append, splitBody_backslash, if_neg hfeed, hlater]
    exact ⟨later, rfl⟩
  | case5 rest =>
    rw [List.cons_append, splitBody_cons (by decide), if_pos rfl] at hsplit ⊢
    obtain ⟨rfl, -⟩ := Prod.mk.inj hsplit
    exact ⟨_, rfl⟩
  | case6 c rest hlast hmore hquote _ _ _ ih =>
    have hslash : c ≠ '\\' := by
      intro hslash
      cases rest with
      | nil => exact hlast hslash rfl
      | cons d rest => exact hmore d rest hslash rfl
    rw [List.cons_append, splitBody_cons hslash, if_neg hquote] at hsplit
    obtain ⟨rfl, hafter⟩ := Prod.mk.inj hsplit
    obtain ⟨later, hlater⟩ := ih (Prod.ext rfl hafter) (by simpa using hlength)
    rw [List.cons_append, splitBody_cons hslash, if_neg hquote, hlater]
    exact ⟨later, rfl⟩

/-- Quoted text never breaks a line. -/
theorem newline_not_mem_encode (chars : List Char) : '\n' ∉ encode chars := by
  intro hmem
  rcases List.mem_append.mp hmem with hmem | hmem
  · rcases List.mem_cons.mp hmem with hmem | hmem
    · exact absurd hmem (by decide)
    · obtain ⟨c, -, hc⟩ := List.mem_flatMap.mp hmem
      rcases escapeChar_cases c with ⟨d, hwritten, -, hfeed⟩ | ⟨hwritten, -, -, hfeed⟩
      · rw [hwritten] at hc
        rcases List.mem_cons.mp hc with hc | hc
        · exact absurd hc (by decide)
        · exact hfeed (List.mem_singleton.mp hc).symm
      · rw [hwritten] at hc
        exact hfeed (List.mem_singleton.mp hc).symm
  · exact absurd (List.mem_singleton.mp hmem) (by decide)

end PhasedTests.Text.Quoted
