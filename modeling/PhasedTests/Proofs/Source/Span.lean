import Mathlib.Data.List.Basic
import Mathlib.Order.Bounds.Basic
import PhasedTests.Proofs.Source.LineIndex

/-!
# Spans of one text

A line of a text starts at its first byte and behind every line feed, and an offset lies on the line
that starts last before it. Only a line feed is encoded with the byte of a line feed, so this can be
told from the bytes alone, wherever the offset lies: between two characters, within one, or past the
end. Positions are ordered like the offsets they belong to. So the spans of a text are ordered like
their stretches of bytes, and the span that covers two of them is the smallest one that contains
both.
-/

namespace PhasedTests

/-! ## Bytes -/

/-- The bytes of a text in UTF-8. -/
def bytes (chars : List Char) : List UInt8 :=
  chars.flatMap String.utf8EncodeChar

/-- The byte of a line feed. -/
def lineFeed : UInt8 := 10

/-- The length of a text is the number of its bytes. -/
theorem length_bytes (chars : List Char) : (bytes chars).length = byteLength chars := by
  unfold bytes
  induction chars with
  | nil => rfl
  | cons c chars ih =>
    rw [List.flatMap_cons, List.length_append, String.length_utf8EncodeChar, ih, byteLength]

/-- The bytes of a character other than the line feed are other bytes. -/
theorem lineFeed_not_mem_utf8EncodeChar {c : Char} (hfeed : c ≠ '\n') :
    lineFeed ∉ String.utf8EncodeChar c := by
  have hvalue : c.val.toNat ≠ 10 := fun hsame => hfeed (Char.ext (UInt32.toNat_inj.mp hsame))
  have hother (n : Nat) (hbyte : n < 256) (hne : n ≠ 10) : lineFeed ≠ UInt8.ofNat n := by
    intro hsame
    have hvalues := congrArg UInt8.toNat hsame
    rw [UInt8.toNat_ofNat_of_lt' hbyte] at hvalues
    exact hne hvalues.symm
  unfold String.utf8EncodeChar
  -- The first byte of several is at least 192, and the others are at least 128.
  dsimp only
  split_ifs <;> simp only [List.mem_cons, List.not_mem_nil, or_false, not_or]
  · exact hother _ (by omega) hvalue
  · exact ⟨hother _ (by omega) (by omega), hother _ (by omega) (by omega)⟩
  · exact ⟨hother _ (by omega) (by omega), hother _ (by omega) (by omega),
      hother _ (by omega) (by omega)⟩
  · exact ⟨hother _ (by omega) (by omega), hother _ (by omega) (by omega),
      hother _ (by omega) (by omega), hother _ (by omega) (by omega)⟩

/-- The offsets at which lines start: the first one, and those behind a line feed. -/
def StartsLine (chars : List Char) (offset : Nat) : Prop :=
  offset = 0 ∨ ∃ last, offset = last + 1 ∧ (bytes chars)[last]? = some lineFeed

namespace LineIndex

/-! ## Positions of offsets -/

/-- The later lines start behind the line feeds among the bytes. -/
theorem startsFrom_eq_findIdxs (offset : Nat) (chars : List Char) :
    startsFrom offset chars = (bytes chars).findIdxs (· == lineFeed) (offset + 1) := by
  induction chars generalizing offset with
  | nil => rfl
  | cons c chars ih =>
    have hbytes : bytes (c :: chars) = String.utf8EncodeChar c ++ bytes chars := rfl
    rw [hbytes, List.findIdxs_append, String.length_utf8EncodeChar, Nat.add_right_comm, ← ih,
      startsFrom]
    by_cases hfeed : c = '\n'
    · subst hfeed
      rfl
    · have hnone : (String.utf8EncodeChar c).findIdxs (· == lineFeed) (offset + 1) = [] := by
        refine List.findIdxs_eq_nil_iff.mpr fun byte hbyte => beq_false_of_ne ?_
        rintro rfl
        exact lineFeed_not_mem_utf8EncodeChar hfeed hbyte
      rw [hnone]
      exact if_neg hfeed

/-- The line starts of a text ascend. -/
theorem pairwise_starts (chars : List Char) :
    (0 :: (ofChars chars).laterStarts).Pairwise (· < ·) := by
  rw [ofChars, startsFrom_eq_findIdxs]
  exact List.pairwise_cons.mpr
    ⟨fun start hstart => List.ge_of_mem_findIdxs start hstart, List.pairwise_findIdxs⟩

/-- They are the offsets at which lines start. -/
theorem mem_starts_iff {chars : List Char} {start : Nat} :
    start ∈ 0 :: (ofChars chars).laterStarts ↔ StartsLine chars start := by
  rw [List.mem_cons, ofChars, startsFrom_eq_findIdxs, List.mem_findIdxs_iff_getElem_sub_pos]
  refine or_congr_right ⟨?_, ?_⟩
  · rintro ⟨hle, hbound, hfeed⟩
    exact ⟨start - 1, by omega, List.getElem?_eq_some_iff.mpr ⟨hbound, beq_iff_eq.mp hfeed⟩⟩
  · rintro ⟨last, rfl, hfeed⟩
    obtain ⟨hbound, hbyte⟩ := List.getElem?_eq_some_iff.mp hfeed
    exact ⟨by omega, by simpa using hbound, by simpa using hbyte⟩

/-- The search for the line of an offset stops at the last of the ascending starts up to it. -/
theorem exists_isGreatest_locate {later : List Nat} {line start offset : Nat}
    (hascending : (start :: later).Pairwise (· < ·)) (hstart : start ≤ offset) :
    ∃ last, IsGreatest {s | s ∈ start :: later ∧ s ≤ offset} last ∧
      locate line start later offset =
        ⟨line + later.countP (· ≤ offset), offset - last + 1⟩ := by
  induction later generalizing line start with
  | nil =>
    refine ⟨start, ⟨⟨List.mem_cons_self, hstart⟩, ?_⟩, rfl⟩
    rintro s ⟨hs, -⟩
    rw [List.mem_singleton.mp hs]
  | cons next later ih =>
    obtain ⟨hfirst, hothers⟩ := List.pairwise_cons.mp hascending
    by_cases hnext : next ≤ offset
    · obtain ⟨last, ⟨⟨hmem, hle⟩, hgreatest⟩, hlocate⟩ := @ih (line + 1) next hothers hnext
      refine ⟨last, ⟨⟨List.mem_cons_of_mem _ hmem, hle⟩, ?_⟩, ?_⟩
      · rintro s ⟨hs, hbefore⟩
        rcases List.mem_cons.mp hs with rfl | hs
        · exact (Nat.le_of_lt (hfirst next List.mem_cons_self)).trans
            (hgreatest ⟨List.mem_cons_self, hnext⟩)
        · exact hgreatest ⟨hs, hbefore⟩
      · rw [locate, if_pos hnext, hlocate, List.countP_cons_of_pos (by simpa using hnext),
          Nat.add_assoc, Nat.add_comm 1]
    · have hbehind : ∀ s ∈ next :: later, ¬s ≤ offset := by
        intro s hs
        rcases List.mem_cons.mp hs with rfl | hs
        · exact hnext
        · have hlater := (List.pairwise_cons.mp hothers).1 s hs
          omega
      refine ⟨start, ⟨⟨List.mem_cons_self, hstart⟩, ?_⟩, ?_⟩
      · rintro s ⟨hs, hbefore⟩
        rcases List.mem_cons.mp hs with rfl | hs
        · exact Nat.le_refl s
        · exact absurd hbefore (hbehind s hs)
      · rw [locate, if_neg hnext, List.countP_eq_zero.mpr (by simpa using hbehind)]
        rfl

/-- Of the offsets behind a byte with a property, as many are at most `start + count` as there are
such bytes among the first `count`. -/
private theorem countP_findIdxs (p : UInt8 → Bool) (text : List UInt8) (start count : Nat) :
    (text.findIdxs p (start + 1)).countP (· ≤ start + count) = (text.take count).countP p := by
  induction text generalizing start count with
  | nil => rw [List.take_nil]; rfl
  | cons byte text ih =>
    cases count with
    | zero =>
      rw [List.take_zero, List.countP_nil, List.countP_eq_zero]
      intro offset hoffset
      have hbehind := List.ge_of_mem_findIdxs offset hoffset
      simp only [decide_eq_true_eq]
      omega
    | succ count =>
      have hlater := ih (start + 1) count
      rw [Nat.add_assoc, Nat.add_comm 1] at hlater
      rw [List.findIdxs_cons, List.take_succ_cons, List.countP_cons]
      split
      · rw [List.countP_cons_of_pos (by simp), hlater]
      · rw [hlater, Nat.add_zero]

/-- The line of an offset is one more than the number of line feeds before it, and the column one
more than the distance from the last line start up to it. -/
theorem exists_isGreatest_position (chars : List Char) (offset : Nat) :
    ∃ start, IsGreatest {s | StartsLine chars s ∧ s ≤ offset} start ∧
      (ofChars chars).position offset =
        ⟨1 + ((bytes chars).take offset).count lineFeed, 1 + (offset - start)⟩ := by
  obtain ⟨start, hgreatest, hposition⟩ :=
    @exists_isGreatest_locate _ 1 0 offset (pairwise_starts chars) (Nat.zero_le offset)
  have hcount := countP_findIdxs (· == lineFeed) (bytes chars) 0 offset
  rw [Nat.zero_add, ← startsFrom_eq_findIdxs] at hcount
  simp only [mem_starts_iff] at hgreatest
  refine ⟨start, hgreatest, ?_⟩
  rw [position, hposition, ofChars, hcount, Nat.add_comm 1 (offset - start)]
  rfl

end LineIndex

/-! ## Covering spans -/

namespace Span

/-- One span contains another: it begins no later and ends no earlier, in bytes and in positions. -/
structure Contains (outer inner : Span) : Prop where
  first : outer.first ≤ inner.first
  stop : inner.stop ≤ outer.stop
  start : inner.start.before outer.start = false
  finish : outer.finish.before inner.finish = false

/-- What contains two spans contains the span that covers them. -/
theorem Contains.cover {s t u : Span} (hs : u.Contains s) (ht : u.Contains t) :
    u.Contains (s.cover t) := by
  unfold Span.cover
  dsimp only
  split <;> split
  · exact ht
  · exact ⟨ht.first, hs.stop, ht.start, hs.finish⟩
  · exact ⟨hs.first, ht.stop, hs.start, ht.finish⟩
  · exact hs

end Span

namespace LineIndex

variable {index : LineIndex}

/-- The spans of a text: each of some bytes, at least one. They may lie past its end. -/
def IsSpan (index : LineIndex) (s : Span) : Prop :=
  ∃ first stop, first < stop ∧ s = index.span first stop

/-- Spans of a text contain one another as their stretches of bytes do. -/
theorem contains_span {a b c d : Nat} (hab : a ≤ c) (hcd : c < d) (hdb : d ≤ b) :
    (index.span a b).Contains (index.span c d) := by
  rw [index.span_of_lt (by omega : a < b), index.span_of_lt hcd]
  refine ⟨hab, hdb, ?_, ?_⟩
  · rw [before_position_eq]
    exact decide_eq_false (by omega)
  · rw [before_position_eq]
    exact decide_eq_false (by omega)

namespace IsSpan

variable {s t u : Span}

/-- The cover of two spans of a text is one. -/
theorem cover (hs : index.IsSpan s) (ht : index.IsSpan t) : index.IsSpan (s.cover t) := by
  obtain ⟨a, b, hab, rfl⟩ := hs
  obtain ⟨c, d, hcd, rfl⟩ := ht
  exact ⟨min a c, max b d, by omega, index.cover_span hab hcd⟩

private theorem cover_comm (hs : index.IsSpan s) (ht : index.IsSpan t) : s.cover t = t.cover s := by
  obtain ⟨a, b, hab, rfl⟩ := hs
  obtain ⟨c, d, hcd, rfl⟩ := ht
  rw [index.cover_span hab hcd, index.cover_span hcd hab, Nat.min_comm, Nat.max_comm]

private theorem cover_assoc (hs : index.IsSpan s) (ht : index.IsSpan t) (hu : index.IsSpan u) :
    (s.cover t).cover u = s.cover (t.cover u) := by
  obtain ⟨a, b, hab, rfl⟩ := hs
  obtain ⟨c, d, hcd, rfl⟩ := ht
  obtain ⟨e, f, hef, rfl⟩ := hu
  rw [index.cover_span hab hcd, index.cover_span hcd hef, index.cover_span (by omega) hef,
    index.cover_span hab (by omega), Nat.min_assoc, Nat.max_assoc]

private theorem cover_self (hs : index.IsSpan s) : s.cover s = s := by
  obtain ⟨a, b, hab, rfl⟩ := hs
  rw [index.cover_span hab hab, Nat.min_self, Nat.max_self]

private theorem contains_cover_left (hs : index.IsSpan s) (ht : index.IsSpan t) :
    (s.cover t).Contains s := by
  obtain ⟨a, b, hab, rfl⟩ := hs
  obtain ⟨c, d, hcd, rfl⟩ := ht
  rw [index.cover_span hab hcd]
  exact contains_span (Nat.min_le_left a c) hab (Nat.le_max_left b d)

private theorem contains_cover_right (hs : index.IsSpan s) (ht : index.IsSpan t) :
    (s.cover t).Contains t := by
  rw [hs.cover_comm ht]
  exact ht.contains_cover_left hs

end IsSpan

/-- Offsets, positions and covering spans of a text. Wherever an offset lies, past the end too, its
line is one more than the number of line feeds among the bytes before it, and its column one more
than the distance from the last line start at or before it. Later offsets come later in reading
order. So the span that covers the spans of two stretches of bytes is that of the stretch from the
earlier start to the later end: covering is commutative, associative and idempotent, and what covers
two spans is the smallest span that contains both. Numbers are not bounded here; with those of a
machine word this is said of all offsets below the largest one. -/
theorem cover_of_ofChars (chars : List Char) :
    let index := ofChars chars
    (∀ offset, ∃ start, IsGreatest {s | StartsLine chars s ∧ s ≤ offset} start ∧
      index.position offset =
        ⟨1 + ((bytes chars).take offset).count lineFeed, 1 + (offset - start)⟩) ∧
    (∀ a b, a < b → (index.position a).before (index.position b) = true) ∧
    (∀ a b c d, a < b → c < d →
      (index.span a b).cover (index.span c d) = index.span (min a c) (max b d)) ∧
    ∀ s t u, index.IsSpan s → index.IsSpan t → index.IsSpan u →
      s.cover t = t.cover s ∧ (s.cover t).cover u = s.cover (t.cover u) ∧ s.cover s = s ∧
      index.IsSpan (s.cover t) ∧ (s.cover t).Contains s ∧ (s.cover t).Contains t ∧
      ∀ outer : Span, outer.Contains s → outer.Contains t → outer.Contains (s.cover t) := by
  intro index
  refine ⟨exists_isGreatest_position chars, fun a b hlt => before_position hlt index,
    fun a b c d hab hcd => index.cover_span hab hcd, fun s t u hs ht hu => ?_⟩
  exact ⟨hs.cover_comm ht, hs.cover_assoc ht hu, hs.cover_self, hs.cover ht,
    hs.contains_cover_left ht, hs.contains_cover_right ht, fun outer hs ht => hs.cover ht⟩

/-- Two spans that overlap behind a line feed: the first one ends inside a character of two bytes,
and the second one past the end of the text. -/
theorem cover_of_ofChars_pastEnd :
    let index := ofChars ['a', 'b', '\n', 'é']
    let s := index.span 1 4
    let t := index.span 3 9
    s = ⟨1, 4, ⟨1, 2⟩, ⟨2, 1⟩⟩ ∧ t = ⟨3, 9, ⟨2, 1⟩, ⟨2, 6⟩⟩ ∧ index.IsSpan s ∧ index.IsSpan t ∧
      (index.position 4).before (index.position 8) = true ∧ s.cover t = index.span 1 9 ∧
      s.cover t = t.cover s ∧ (s.cover t).cover s = s.cover (t.cover s) ∧ s.cover s = s ∧
      (s.cover t).Contains s ∧ (s.cover t).Contains t ∧ (index.span 1 9).Contains (s.cover t) := by
  intro index s t
  have hs : index.IsSpan s := ⟨1, 4, by decide, rfl⟩
  have ht : index.IsSpan t := ⟨3, 9, by decide, rfl⟩
  obtain ⟨-, hbefore, hcover, hspans⟩ := cover_of_ofChars ['a', 'b', '\n', 'é']
  obtain ⟨hcomm, hassoc, hself, -, hleft, hright, hleast⟩ := hspans s t s hs ht hs
  have hwhole : s.cover t = index.span 1 9 := hcover 1 4 3 9 (by decide) (by decide)
  exact ⟨by decide, by decide, hs, ht, hbefore 4 8 (by decide), hwhole, hcomm, hassoc, hself,
    hleft, hright, hleast _ (hwhole ▸ hleft) (hwhole ▸ hright)⟩

end LineIndex

end PhasedTests
