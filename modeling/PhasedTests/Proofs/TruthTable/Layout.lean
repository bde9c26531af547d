import Mathlib.Data.List.DropRight
import PhasedTests.Proofs.TruthTable.Combinations

/-!
# The written truth table

The widths of the columns say where the separators stand, which is the same place in every line.
Cutting a line there gives its cells back, behind which only blanks can have been added.
-/

namespace PhasedTests.TruthTable

/-! ## Cutting a line -/

/-- Where the separators behind columns of these widths start, in a line whose first column starts
at the given place. The last column has no separator behind it. -/
def separators : Nat → List Nat → List Nat
  | _, [] | _, [_] => []
  | start, width :: next :: rest =>
    (start + width) :: separators (start + width + 3) (next :: rest)

/-- What a line has, from its start on, between the separators at some columns. -/
def cut : Nat → List Nat → List Char → List (List Char)
  | start, [], line => [line.drop start]
  | start, column :: columns, line =>
    (line.take column).drop start :: cut (column + 3) columns line

/-- The piece without the blanks at its end. -/
def dropPadding (piece : List Char) : List Char :=
  piece.rdropWhile (· == ' ')

/-- `Shows cell piece` says that the piece without its padding is the cell, when the cell itself has
no blank at its end. -/
def Shows (cell : String) (piece : List Char) : Prop :=
  cell.toList.getLast? ≠ some ' ' → dropPadding piece = cell.toList

/-- `Aligned columns cells line` says that the line has a separator at each of the columns, and the
pieces between them show the cells. -/
structure Aligned (columns : List Nat) (cells : List String) (line : List Char) : Prop where
  separated : ∀ column ∈ columns, (line.drop column).take 3 = " | ".toList
  shown : List.Forall₂ Shows cells (cut 0 columns line)

private theorem separators_cons {widths : List Nat} (hwidths : widths ≠ []) (start width : Nat) :
    separators start (width :: widths) =
      (start + width) :: separators (start + width + 3) widths := by
  obtain ⟨next, rest, rfl⟩ := List.exists_cons_of_ne_nil hwidths
  rfl

section Joined

variable {piece next : List Char} {rest : List (List Char)}

/-- The first piece and the separator behind it belong to what stands before the other pieces. -/
theorem separators_append (before : List Char) :
    separators before.length ((piece :: next :: rest).map List.length) =
      (before ++ piece).length ::
        separators (before ++ piece ++ " | ".toList).length ((next :: rest).map List.length) := by
  simp [separators, Nat.add_assoc]

private theorem append_intercalate (before : List Char) :
    before ++ " | ".toList.intercalate (piece :: next :: rest) =
      before ++ piece ++ " | ".toList ++ " | ".toList.intercalate (next :: rest) := by
  simp [List.intercalate_cons_cons]

end Joined

/-- Joined pieces are found again by cutting where their lengths say. -/
theorem cut_intercalate {pieces : List (List Char)} (hpieces : pieces ≠ []) (before : List Char) :
    cut before.length (separators before.length (pieces.map List.length))
      (before ++ " | ".toList.intercalate pieces) = pieces := by
  induction pieces generalizing before with
  | nil => exact absurd rfl hpieces
  | cons piece rest ih =>
    cases rest with
    | nil => simp [cut, separators]
    | cons next rest =>
      have hrest := ih (List.cons_ne_nil _ _) (before ++ piece ++ " | ".toList)
      have hnext : (before ++ piece ++ " | ".toList).length = (before ++ piece).length + 3 :=
        List.length_append
      rw [separators_append, append_intercalate, cut, ← hnext, hrest,
        List.append_assoc _ " | ".toList,
        List.take_left, List.drop_left]

private theorem separated_intercalate (pieces : List (List Char)) (before : List Char) :
    ∀ column ∈ separators before.length (pieces.map List.length),
      ((before ++ " | ".toList.intercalate pieces).drop column).take 3 = " | ".toList := by
  induction pieces generalizing before with
  | nil => simp [separators]
  | cons piece rest ih =>
    cases rest with
    | nil => simp [separators]
    | cons next rest =>
      rw [separators_append, append_intercalate]
      refine List.forall_mem_cons.mpr ⟨?_, ih _⟩
      rw [List.append_assoc _ " | ".toList, List.drop_left]
      rfl

private theorem not_mem_intercalate {c : Char} {separator : List Char} (hseparator : c ∉ separator)
    {pieces : List (List Char)} (hpieces : ∀ piece ∈ pieces, c ∉ piece) :
    c ∉ separator.intercalate pieces := by
  induction pieces with
  | nil => simp
  | cons piece rest ih =>
    obtain ⟨hpiece, hrest⟩ := List.forall_mem_cons.mp hpieces
    cases rest with
    | nil => simpa using hpiece
    | cons next rest =>
      rw [List.intercalate_cons_cons]
      simp only [List.mem_append, not_or]
      exact ⟨⟨hpiece, hseparator⟩, ih hrest⟩

/-! ## Padding -/

/-- What a line has between its separators. -/
def pieces (widths : List Nat) (cells : List String) : List (List Char) :=
  (padded widths cells).map String.toList

/-- `Fits cells widths` says that no cell is wider than its column. -/
abbrev Fits (cells : List String) (widths : List Nat) : Prop :=
  List.Forall₂ (fun cell width => cell.length ≤ width) cells widths

private theorem dropPadding_append_replicate {cell : List Char} (hcell : cell.getLast? ≠ some ' ')
    (count : Nat) : dropPadding (cell ++ List.replicate count ' ') = cell := by
  induction count with
  | zero =>
    rw [List.replicate_zero, List.append_nil]
    refine List.rdropWhile_eq_self_iff.mpr fun hne hblank => hcell ?_
    rw [List.getLast?_eq_some_getLast hne, beq_iff_eq.mp hblank]
  | succ count ih =>
    rw [List.replicate_succ', ← List.append_assoc]
    exact (List.rdropWhile_concat_pos _ _ _ (by simp)).trans ih

private theorem shows_toList (cell : String) : Shows cell cell.toList := fun hcell => by
  simpa using dropPadding_append_replicate hcell 0

private theorem shows_pieces (widths : List Nat) (cells : List String) :
    List.Forall₂ Shows cells (pieces widths cells) := by
  unfold pieces
  fun_induction padded widths cells with
  | case1 => exact .nil
  | case2 widths cell => exact .cons (shows_toList cell) .nil
  | case3 width widths cell rest _ ih =>
    exact .cons (fun hcell => by simpa using dropPadding_append_replicate hcell _) ih
  | case4 cell rest _ ih => exact .cons (shows_toList cell) ih

private theorem pieces_ne_nil {cells : List String} (hcells : cells ≠ []) (widths : List Nat) :
    pieces widths cells ≠ [] := by
  intro hempty
  have hlength := (shows_pieces widths cells).length_eq
  rw [hempty] at hlength
  exact hcells (List.eq_nil_of_length_eq_zero hlength)

/-- Padding makes every cell but the last as long as its column is wide. -/
theorem separators_pieces {cells : List String} {widths : List Nat} (hfits : Fits cells widths)
    (start : Nat) :
    separators start ((pieces widths cells).map List.length) = separators start widths := by
  induction hfits generalizing start with
  | nil => rfl
  | @cons cell width cells widths hcell hrest ih =>
    cases hrest with
    | nil => rfl
    | @cons next wide rest others =>
      have hpieces : (pieces (wide :: others) (next :: rest)).map List.length ≠ [] := by
        simpa using pieces_ne_nil (List.cons_ne_nil next rest) (wide :: others)
      have hlength :
          (cell ++ String.ofList (List.replicate (width - cell.length) ' ')).toList.length =
          width := by
        rw [String.length_toList, String.length_append, String.length_ofList, List.length_replicate]
        omega
      rw [pieces, padded.eq_3 _ _ _ _ (List.cons_ne_nil _ _), List.map_cons, List.map_cons,
        ← pieces, separators_cons hpieces, separators_cons (List.cons_ne_nil _ _), hlength, ih]

/-- Padding adds nothing but blanks. -/
theorem not_mem_pieces {c : Char} (hc : c ≠ ' ') {cells : List String}
    (hcells : ∀ cell ∈ cells, c ∉ cell.toList) (widths : List Nat) :
    ∀ piece ∈ pieces widths cells, c ∉ piece := by
  unfold pieces
  fun_induction padded widths cells <;> simp_all

/-! ## The text -/

/-- The characters of a line. -/
def printed (widths : List Nat) (cells : List String) : List Char :=
  " | ".toList.intercalate (pieces widths cells)

private theorem aligned_printed {cells : List String} {widths : List Nat}
    (hfits : Fits cells widths)
    (hcells : cells ≠ []) : Aligned (separators 0 widths) cells (printed widths cells) := by
  have hcut : cut 0 (separators 0 ((pieces widths cells).map List.length)) (printed widths cells) =
      pieces widths cells := cut_intercalate (pieces_ne_nil hcells widths) []
  rw [← separators_pieces hfits]
  refine ⟨separated_intercalate _ [], ?_⟩
  rw [hcut]
  exact shows_pieces widths cells

private theorem not_mem_printed {c : Char} (hc : c ∉ " | ".toList) {cells : List String}
    (hcells : ∀ cell ∈ cells, c ∉ cell.toList) (widths : List Nat) : c ∉ printed widths cells := by
  have hblank : c ≠ ' ' := by
    rintro rfl
    exact hc (by decide)
  exact not_mem_intercalate hc (not_mem_pieces hblank hcells widths)

/-- A column is as wide as its widest cell. -/
theorem fits_of_mem_lines {table : TruthTable}
    (hwide : ∀ cells ∈ table.lines, cells.length = table.header.length) {cells : List String}
    (hcells : cells ∈ table.lines) : Fits cells table.widths := by
  refine List.forall₂_iff_get.mpr ⟨by simp [widths, hwide cells hcells], ?_⟩
  intro column hcell hwidth
  have hmem : cells[column] ∈ table.lines.filterMap (·[column]?) :=
    List.mem_filterMap.mpr ⟨cells, hcells, List.getElem?_eq_getElem hcell⟩
  simp only [widths, List.get_eq_getElem, List.getElem_map, List.getElem_range]
  rw [← List.foldl_map, List.foldl_max]
  exact List.le_max?_getD_of_mem (List.mem_map_of_mem hmem)

/-- The lines of the text, where no cell has a newline, are those of the table. -/
theorem splitOn_text {table : TruthTable} (hlines : table.lines ≠ [])
    (hcells : ∀ cells ∈ table.lines, ∀ cell ∈ cells, '\n' ∉ cell.toList) :
    table.text.toList.splitOn '\n' = table.lines.map (printed table.widths) := by
  have htext : table.text.toList = ['\n'].intercalate (table.lines.map (printed table.widths)) := by
    rw [text, String.toList_intercalate, List.map_map]
    exact congrArg _ (List.map_congr_left fun _ _ => String.toList_intercalate)
  rw [htext]
  refine List.splitOn_intercalate _ ?_ (by simpa using hlines)
  exact List.forall_mem_map.mpr fun cells hmem => not_mem_printed (by decide) (hcells cells hmem) _

variable {header : List String} {values : String → List String}

private theorem aligned_text_ofValues (hheader : header ≠ [])
    (hcells : ∀ cells ∈ (ofValues header values).lines, ∀ cell ∈ cells, '\n' ∉ cell.toList) :
    List.Forall₂ (Aligned (separators 0 (ofValues header values).widths))
      (ofValues header values).lines ((ofValues header values).text.toList.splitOn '\n') := by
  have hlines : (ofValues header values).lines ≠ [] := by
    rw [lines_ofValues hheader]
    exact List.cons_ne_nil _ _
  rw [splitOn_text hlines hcells, List.forall₂_map_right_iff, List.forall₂_same]
  intro cells hmem
  have hwide := @length_of_mem_lines_ofValues header values hheader
  refine aligned_printed (fits_of_mem_lines hwide hmem) ?_
  rintro rfl
  exact hheader (List.eq_nil_of_length_eq_zero (hwide [] hmem).symm)

/-- A truth table lists every combination of its columns' values once, the first column varying
slowest, and its text has one line for each of its lines, with the separators in the same places and
the cells between them. -/
theorem listed_of_ofValues (hheader : header ≠ []) :
    (ofValues header values).rows.length = (valueCounts header values).prod ∧
      (∀ row < (valueCounts header values).prod, ∃ cells,
        (ofValues header values).rows[row]? = some cells ∧ cells.length = header.length ∧
          ∀ column name, header[column]? = some name → ∃ cell, cells[column]? = some cell ∧
            (values name)[position (valueCounts header values) row column]? = some cell) ∧
      (∀ row next, row < next → next < (valueCounts header values).prod →
        positions (valueCounts header values) row < positions (valueCounts header values) next) ∧
      (∀ chosen, List.Forall₂ (· < ·) chosen (valueCounts header values) →
        ∃! row, row < (valueCounts header values).prod ∧
          positions (valueCounts header values) row = chosen) ∧
      ((∀ cells ∈ (ofValues header values).lines, ∀ cell ∈ cells, '\n' ∉ cell.toList) →
        List.Forall₂ (Aligned (separators 0 (ofValues header values).widths))
          (ofValues header values).lines
          ((ofValues header values).text.toList.splitOn '\n')) :=
  ⟨length_rows_ofValues hheader, fun _ => getElem?_rows_ofValues hheader,
    fun _ _ => positions_lt, fun _ => existsUnique_positions, aligned_text_ofValues hheader⟩

/-- The values of three columns, where the first has two of different lengths. -/
def threeColumns (name : String) : List String :=
  if name = "left" then ["true", "false"] else if name = "b" then ["1"] else ["yes"]

/-- Two lines below the header, the second one the only row with the first column's other value. -/
theorem listed_of_ofValues_threeColumns :
    let table := ofValues ["left", "b", "result"] threeColumns
    table.text = "left  | b | result\ntrue  | 1 | yes\nfalse | 1 | yes" ∧
      table.rows.length = 2 ∧
      (∃ cells, table.rows[1]? = some cells ∧ cells[0]? = some "false") ∧
      (∃! row, row < 2 ∧ positions [2, 1, 1] row = [1, 0, 0]) ∧
      List.Forall₂ (Aligned [5, 9]) table.lines (table.text.toList.splitOn '\n') := by
  intro table
  have hcounts : valueCounts ["left", "b", "result"] threeColumns = [2, 1, 1] := by decide
  have hcolumns : separators 0 table.widths = [5, 9] := by decide
  obtain ⟨hlength, hrows, -, hunique, haligned⟩ :=
    @listed_of_ofValues ["left", "b", "result"] threeColumns (by decide)
  rw [hcounts] at hlength hrows hunique
  refine ⟨by decide, hlength, ?_, hunique [1, 0, 0] (by simp), ?_⟩
  · obtain ⟨cells, hcells, -, hcell⟩ := hrows 1 (by decide)
    obtain ⟨cell, hcell, hvalue⟩ := hcell 0 "left" rfl
    have hfalse : some "false" = some cell := hvalue
    exact ⟨cells, hcells, hcell.trans hfalse.symm⟩
  · exact hcolumns ▸ haligned (by decide)

end PhasedTests.TruthTable
