import PhasedTests.Proofs.Hook.Outcome
import PhasedTests.Proofs.Sexp.Token
import PhasedTests.Proofs.Text.Numeral
import PhasedTests.SourceMap.Backtrace

/-!
# Frames of backtraces

A frame names a path and a line. It is taken apart into just these exactly if the path has
characters, and no blank or colon among them; then the frame of a transformed file is shown at its
source. A file whose path has a blank or a colon is known by that path, but no frame leads to it.
-/

namespace PhasedTests

open Text

namespace Text

/-- The digits of numerals are decimal digits. -/
theorem isDecimalDigit_of_isDigit {c : Char} (hdigit : Numeral.isDigit c = true) :
    isDecimalDigit c = true := by
  have hfirst : 0x30 ∈ digitZeros := List.mem_cons_self
  have hrange : 0x30 ≤ c.toNat ∧ c.toNat < 0x30 + 10 := by
    simp only [Numeral.isDigit, Char.le_def, UInt32.le_iff_toNat_le, Bool.and_eq_true,
      decide_eq_true_eq] at hdigit
    exact ⟨hdigit.1, Nat.lt_succ_of_le hdigit.2⟩
  unfold isDecimalDigit
  exact List.any_eq_true.mpr ⟨0x30, hfirst, by simpa using hrange⟩

private theorem Numeral.toWord?_toDigits {n : Nat} (hword : n < UInt64.size) :
    toWord? (toDigits n) = some n := by
  have hdigits : (toDigits n).all isDigit = true :=
    List.all_eq_true.mpr fun c hmem => isDigit_of_mem_toDigits hmem
  unfold toWord?
  rw [ofDigits_toDigits, if_pos ⟨toDigits_ne_nil n, hdigits, hword⟩]

end Text

namespace Frame

/-- Whether a frame can name a path: it has characters, and no blank or colon among them. -/
def Nameable (path : List Char) : Prop :=
  path ≠ [] ∧ ∀ c ∈ path, isBlank c = false ∧ c ≠ ':'

instance (path : List Char) : Decidable (Nameable path) :=
  decidable_of_iff (path ≠ [] ∧ (path.all fun c => !isBlank c && c != ':') = true) (by
    simp [Nameable])

/-- A frame is taken apart into what it is made of. -/
theorem parse?_append {path digits rest : List Char} (hpath : Nameable path) (hdigits : digits ≠ [])
    (hdigit : ∀ c ∈ digits, isDecimalDigit c = true)
    (hhead : ∀ c ∈ rest.head?, isDecimalDigit c = false) (hrest : '\n' ∉ rest) :
    parse? (path ++ ':' :: (digits ++ rest)) = some ⟨path, digits, rest⟩ := by
  have hname : (path ++ ':' :: (digits ++ rest)).takeWhile (fun c => !(isBlank c || c == ':')) =
      path := by
    refine takeWhile_append_of_head (fun c hc => ?_) fun c hc => ?_
    · simp [hpath.2 c hc]
    · obtain rfl := Option.some.inj hc
      rfl
  unfold parse?
  simp only [hname, List.drop_left, takeWhile_append_of_head hdigit hhead]
  simp [hpath.1, hdigits, hrest]

/-- Every path that a frame is taken apart into can be named. -/
theorem nameable_of_parse? {chars : List Char} {parts : Frame}
    (hparts : parse? chars = some parts) :
    Nameable parts.path := by
  unfold parse? at hparts
  dsimp only at hparts
  split at hparts
  · split at hparts
    · cases hparts
    · rename_i hsome
      obtain rfl := Option.some.inj hparts
      refine ⟨by simp_all, fun c hc => ?_⟩
      simpa using List.all_eq_true.mp List.all_takeWhile c hc
  · cases hparts

end Frame

namespace Registry

/-- How the line of a source is shown. -/
def shownLine : Option Nat → String
  | some line => toString line
  | none => "?"

/-- A frame in a registered file is shown at the line of its source. -/
theorem filterFrame_of_parse? {registry : Registry} {map : SourceMap} {frame : String}
    {parts : Frame} {line : Nat} (hparts : Frame.parse? frame.toList = some parts)
    (hline : Numeral.toWord? parts.digits = some line)
    (hfind : registry.find? (String.ofList parts.path) = some map) :
    registry.filterFrame frame =
      map.source ++ ":" ++ shownLine (map.line? line) ++ String.ofList parts.rest := by
  unfold filterFrame sourceOf?
  simp only [hparts, Option.bind_eq_bind, Option.bind_some, hline, hfind, Option.map_some]
  cases map.line? line <;> rfl

/-- A map under a path that no frame can name shows no frame. -/
theorem filterFrame_register {map : SourceMap} (hpath : ¬ Frame.Nameable map.transformed.toList)
    (registry : Registry) (frame : String) :
    (registry.register map).filterFrame frame = registry.filterFrame frame := by
  have hfind {parts : Frame} (hparts : Frame.parse? frame.toList = some parts) :
      (registry.register map).find? (String.ofList parts.path) =
        registry.find? (String.ofList parts.path) := by
    rw [find?_register, if_neg]
    intro hsame
    rw [hsame, String.toList_ofList] at hpath
    exact hpath (Frame.nameable_of_parse? hparts)
  unfold filterFrame sourceOf?
  cases hparts : Frame.parse? frame.toList with
  | none => rfl
  | some parts => simp only [Option.bind_eq_bind, Option.bind_some, hfind hparts]

variable {registry : Registry} {path : String} {map : SourceMap} {line : Nat} {rest : String}

end Registry

end PhasedTests
