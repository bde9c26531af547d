import PhasedTests.Source.LineIndex

/-!
# Offsets and positions of characters

The bytes between two offsets are the characters between them. The offset behind some characters
of a text lies at the position that is reached by going over them: a line feed leads to the start of
the next line, every other character as many columns further as it has bytes. So the line is one
more than the number of line feeds, and later offsets come later in reading order.
-/

namespace PhasedTests

/-- The bytes of two texts add up. -/
theorem byteLength_append (a b : List Char) :
    byteLength (a ++ b) = byteLength a + byteLength b := by
  induction a with
  | nil => rw [List.nil_append, byteLength, Nat.zero_add]
  | cons c a ih => rw [List.cons_append, byteLength, byteLength, ih, Nat.add_assoc]

/-! ## Slices -/

private theorem dropBytes?_append (before rest : List Char) :
    dropBytes? (before ++ rest) (byteLength before) = some rest := by
  induction before with
  | nil => cases rest <;> rfl
  | cons c before ih =>
    obtain ⟨count, hcount⟩ : ∃ count, c.utf8Size + byteLength before = count + 1 :=
      ⟨c.utf8Size + byteLength before - 1, by have := Char.utf8Size_pos c; omega⟩
    have hrest : count + 1 - c.utf8Size = byteLength before := by omega
    rw [byteLength, hcount, List.cons_append, dropBytes?, if_pos (by omega), hrest, ih]

private theorem takeBytes?_append (own after : List Char) :
    takeBytes? (own ++ after) (byteLength own) = some own := by
  induction own with
  | nil => cases after <;> rfl
  | cons c own ih =>
    obtain ⟨count, hcount⟩ : ∃ count, c.utf8Size + byteLength own = count + 1 :=
      ⟨c.utf8Size + byteLength own - 1, by have := Char.utf8Size_pos c; omega⟩
    have hrest : count + 1 - c.utf8Size = byteLength own := by omega
    rw [byteLength, hcount, List.cons_append, takeBytes?, if_pos (by omega), hrest, ih]
    rfl

/-- The slice between the offsets before and behind some characters. -/
theorem sliceBytes?_append (before own after : List Char) :
    sliceBytes? (before ++ own ++ after) (byteLength before) (byteLength (before ++ own)) =
      some own := by
  have hstop : byteLength (before ++ own) - byteLength before = byteLength own := by
    rw [byteLength_append, Nat.add_sub_cancel_left]
  rw [sliceBytes?, if_pos (by rw [byteLength_append]; omega), List.append_assoc,
    dropBytes?_append, Option.bind_some, hstop, takeBytes?_append]

private theorem exists_of_dropBytes? {chars rest : List Char} {count : Nat}
    (hdrop : dropBytes? chars count = some rest) :
    ∃ before, chars = before ++ rest ∧ byteLength before = count := by
  fun_induction dropBytes? chars count with
  | case1 chars => exact ⟨[], Option.some.inj hdrop, rfl⟩
  | case2 count => cases hdrop
  | case3 c tail count hfits ih =>
    obtain ⟨before, rfl, hlength⟩ := ih hdrop
    exact ⟨c :: before, rfl, by rw [byteLength]; omega⟩
  | case4 c tail count hfits => cases hdrop

private theorem exists_of_takeBytes? {chars own : List Char} {count : Nat}
    (htake : takeBytes? chars count = some own) :
    ∃ after, chars = own ++ after ∧ byteLength own = count := by
  fun_induction takeBytes? chars count generalizing own with
  | case1 chars =>
    obtain rfl := Option.some.inj htake
    exact ⟨chars, rfl, rfl⟩
  | case2 count => cases htake
  | case3 c tail count hfits ih =>
    obtain ⟨taken, htaken, rfl⟩ := Option.map_eq_some_iff.mp htake
    obtain ⟨after, rfl, hlength⟩ := ih htaken
    exact ⟨after, rfl, by rw [byteLength]; omega⟩
  | case4 c tail count hfits => cases htake

/-- A slice is what stands between its two offsets. -/
theorem sliceBytes?_eq_some_iff {chars own : List Char} {first stop : Nat} :
    sliceBytes? chars first stop = some own ↔ ∃ before after, chars = before ++ own ++ after ∧
      first = byteLength before ∧ stop = byteLength (before ++ own) := by
  constructor
  · intro hslice
    unfold sliceBytes? at hslice
    split at hslice
    · rename_i hle
      obtain ⟨rest, hdrop, htake⟩ := Option.bind_eq_some_iff.mp hslice
      obtain ⟨before, rfl, hfirst⟩ := exists_of_dropBytes? hdrop
      obtain ⟨after, rfl, hstop⟩ := exists_of_takeBytes? htake
      refine ⟨before, after, (List.append_assoc _ _ _).symm, hfirst.symm, ?_⟩
      rw [byteLength_append]
      omega
    · cases hslice
  · rintro ⟨before, after, rfl, rfl, rfl⟩
    exact sliceBytes?_append before own after

/-! ## Positions -/

namespace Position

/-- The position behind a character at a position. -/
def advance (p : Position) (c : Char) : Position :=
  if c = '\n' then ⟨p.line + 1, 1⟩ else ⟨p.line, p.column + c.utf8Size⟩

/-- The position behind the first characters of a text. -/
def behind (before : List Char) : Position :=
  before.foldl advance ⟨1, 1⟩

private theorem line_foldl_advance (p : Position) (before : List Char) :
    (before.foldl advance p).line = p.line + before.count '\n' := by
  induction before generalizing p with
  | nil => rfl
  | cons c before ih =>
    rw [List.foldl_cons, ih, advance]
    by_cases hfeed : c = '\n'
    · rw [if_pos hfeed, hfeed, List.count_cons_self]
      dsimp only
      omega
    · rw [if_neg hfeed, List.count_cons_of_ne hfeed]

/-- Each line feed starts a line. -/
theorem line_behind (before : List Char) : (behind before).line = 1 + before.count '\n' :=
  line_foldl_advance ⟨1, 1⟩ before

private theorem before_iff {a b : Position} :
    a.before b = true ↔ a.line < b.line ∨ a.line = b.line ∧ a.column < b.column := by
  simp [before]

private theorem not_before_of_before {a b : Position} (hbefore : a.before b = true) :
    b.before a = false := by
  rw [Bool.eq_false_iff]
  intro hafter
  rw [before_iff] at hbefore hafter
  omega

end Position

namespace LineIndex

/-- Lines start behind the offset that their text begins at. -/
private theorem lt_of_mem_startsFrom {offset start : Nat} {chars : List Char}
    (hmem : start ∈ startsFrom offset chars) : offset < start := by
  induction chars generalizing offset with
  | nil => cases hmem
  | cons c chars ih =>
    have hsize : 0 < c.utf8Size := Char.utf8Size_pos c
    have hlater : start ∈ startsFrom (offset + c.utf8Size) chars → offset < start := by
      intro hmem
      have := ih hmem
      omega
    rw [startsFrom] at hmem
    split at hmem
    · rcases List.mem_cons.mp hmem with rfl | hmem
      · omega
      · exact hlater hmem
    · exact hlater hmem

/-- Going over the characters behind an offset of a line leads to the position behind them. -/
private theorem locate_startsFrom (before rest : List Char) (line start offset : Nat)
    (hstart : start ≤ offset) :
    locate line start (startsFrom offset (before ++ rest)) (offset + byteLength before) =
      before.foldl Position.advance ⟨line, offset - start + 1⟩ := by
  induction before generalizing line start offset with
  | nil =>
    rw [List.nil_append, byteLength, Nat.add_zero, List.foldl_nil]
    cases hstarts : startsFrom offset rest with
    | nil => rfl
    | cons next later =>
      have hnext : offset < next := lt_of_mem_startsFrom (hstarts ▸ List.mem_cons_self)
      rw [locate, if_neg (by omega)]
  | cons c before ih =>
    rw [List.cons_append, startsFrom, byteLength, ← Nat.add_assoc, List.foldl_cons]
    by_cases hfeed : c = '\n'
    · rw [if_pos hfeed, locate, if_pos (by omega), ih _ _ _ (Nat.le_refl _), Nat.sub_self,
        Position.advance, if_pos hfeed]
    · have hcolumn : offset + c.utf8Size - start + 1 = offset - start + 1 + c.utf8Size := by omega
      rw [if_neg hfeed, ih _ _ _ (by omega), hcolumn, Position.advance, if_neg hfeed]

/-- The offset behind `before` lies at the position behind `before`. -/
theorem position_eq_behind (before rest : List Char) :
    (ofChars (before ++ rest)).position (byteLength before) = .behind before := by
  have hposition := locate_startsFrom before rest 1 0 0 (Nat.le_refl 0)
  rw [Nat.zero_add] at hposition
  exact hposition

/-- The span of a stretch up to a closing parenthesis starts and ends at the positions of its first
character and of the parenthesis. -/
theorem span_closeParen (before body after : List Char) :
    (ofChars (before ++ (body ++ [')']) ++ after)).span (byteLength before)
        (byteLength (before ++ (body ++ [')']))) =
      ⟨byteLength before, byteLength (before ++ (body ++ [')'])), .behind before,
        .behind (before ++ body)⟩ := by
  have hlast : max (byteLength (before ++ (body ++ [')'])) - 1) (byteLength before) =
      byteLength (before ++ body) := by
    have hparen : byteLength [')'] = 1 := rfl
    rw [byteLength_append, byteLength_append, byteLength_append, hparen]
    omega
  have hstart := position_eq_behind before (body ++ [')'] ++ after)
  have hfinish := position_eq_behind (before ++ body) (')' :: after)
  have htext : before ++ body ++ ')' :: after = before ++ (body ++ [')']) ++ after := by simp
  rw [← List.append_assoc] at hstart
  rw [htext] at hfinish
  rw [span, hlast, hstart, hfinish]

/-- The line of the offset behind `before`. -/
theorem line_position (before rest : List Char) :
    ((ofChars (before ++ rest)).position (byteLength before)).line = 1 + before.count '\n' := by
  rw [position_eq_behind, Position.line_behind]

/-! ## Reading order -/

private theorem le_line_locate (line start : Nat) (later : List Nat) (offset : Nat) :
    line ≤ (locate line start later offset).line := by
  induction later generalizing line start with
  | nil => exact Nat.le_refl line
  | cons next later ih =>
    rw [locate]
    split
    · exact Nat.le_of_succ_le (ih (line + 1) next)
    · exact Nat.le_refl line

private theorem before_locate {a b : Nat} (hlt : a < b) (line start : Nat) (later : List Nat)
    (hstart : start ≤ a) :
    (locate line start later a).before (locate line start later b) = true := by
  rw [Position.before_iff]
  induction later generalizing line start with
  | nil =>
    dsimp only [locate]
    omega
  | cons next later ih =>
    rw [locate, locate]
    by_cases hnext : next ≤ a
    · rw [if_pos hnext, if_pos (by omega)]
      exact ih (line + 1) next hnext
    · rw [if_neg hnext]
      split
      · exact Or.inl (le_line_locate (line + 1) next later b)
      · dsimp only
        omega

/-- Later offsets come later in reading order. -/
theorem before_position {a b : Nat} (hlt : a < b) (index : LineIndex) :
    (index.position a).before (index.position b) = true :=
  before_locate hlt 1 0 index.laterStarts (Nat.zero_le a)

/-- Positions are ordered like their offsets. -/
theorem before_position_eq (index : LineIndex) (a b : Nat) :
    (index.position a).before (index.position b) = decide (a < b) := by
  rcases Nat.lt_trichotomy a b with hlt | rfl | hlt
  · rw [before_position hlt, decide_eq_true hlt]
  · rw [decide_eq_false (Nat.lt_irrefl a), Bool.eq_false_iff, Ne, Position.before_iff]
    omega
  · rw [Position.not_before_of_before (before_position hlt index),
      decide_eq_false (Nat.not_lt_of_gt hlt)]

/-- A span of at least one byte ends at its last byte. -/
theorem span_of_lt (index : LineIndex) {a b : Nat} (hlt : a < b) :
    index.span a b = ⟨a, b, index.position a, index.position (b - 1)⟩ := by
  rw [span, Nat.max_eq_left (by omega)]

/-- Two spans of a text are covered by the span from the earlier start to the later end. -/
theorem cover_span (index : LineIndex) {a b c d : Nat} (hab : a < b) (hcd : c < d) :
    (index.span a b).cover (index.span c d) = index.span (min a c) (max b d) := by
  have hstart : min a c = if c < a then c else a := by split <;> omega
  have hstop : max b d = if b - 1 < d - 1 then d else b := by split <;> omega
  rw [index.span_of_lt hab, index.span_of_lt hcd, index.span_of_lt (by omega), Span.cover]
  simp only [before_position_eq, decide_eq_true_eq]
  rw [hstart, hstop]
  split <;> split <;> rfl

end LineIndex

end PhasedTests
