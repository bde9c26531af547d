import Mathlib.Algebra.BigOperators.Group.List.Basic
import Mathlib.Data.List.Forall2
import PhasedTests.TruthTable

/-!
# The rows of a truth table

The number of a row, written with the numbers of values as its radices, says which value the row
holds in every column. The first column is the most significant digit, so that it varies slowest,
and every choice of one value for each column is the number of exactly one row.
-/

namespace PhasedTests.TruthTable

/-! ## Digits of a row number -/

/-- The digit of a row's number in a column, where every column counts its values. -/
def position (counts : List Nat) (row column : Nat) : Nat :=
  row / (counts.drop (column + 1)).prod % counts.getD column 0

/-- All digits of a row's number. -/
def positions (counts : List Nat) (row : Nat) : List Nat :=
  (List.range counts.length).map (position counts row)

variable {counts : List Nat}

private theorem positions_cons (count row : Nat) :
    positions (count :: counts) row = row / counts.prod % count :: positions counts row := by
  simp only [positions, List.length_cons, List.range_succ_eq_map, List.map_cons, List.map_map]
  rfl

private theorem length_positions (row : Nat) : (positions counts row).length = counts.length := by
  simp [positions]

private theorem getElem?_positions {row column : Nat} (hcolumn : column < counts.length) :
    (positions counts row)[column]? = some (position counts row column) := by
  simp [positions, hcolumn]

/-- What a row's number has beyond the product of all counts does not show in its digits. -/
theorem positions_mod {bound : Nat} (hbound : counts.prod ∣ bound) (row : Nat) :
    positions counts (row % bound) = positions counts row := by
  induction counts generalizing bound with
  | nil => rfl
  | cons count counts ih =>
    obtain ⟨factor, rfl⟩ := hbound
    have hdigit : row % ((count :: counts).prod * factor) / counts.prod % count =
        row / counts.prod % count := by
      rw [List.prod_cons, Nat.mul_comm count, Nat.mul_assoc, Nat.mod_mul_right_div_self,
        Nat.mod_mul_right_mod]
    have hrest : counts.prod ∣ (count :: counts).prod * factor :=
      (Dvd.intro_left count List.prod_cons.symm).mul_right factor
    rw [positions_cons, positions_cons, hdigit, ih hrest]

/-- The first column varies slowest: a later row has the greater digits, the first difference
deciding. -/
theorem positions_lt {row next : Nat} (hlt : row < next) (hnext : next < counts.prod) :
    positions counts row < positions counts next := by
  induction counts generalizing row next with
  | nil => simp at hnext; omega
  | cons count counts ih =>
    rw [List.prod_cons] at hnext
    have hpositive : 0 < counts.prod := Nat.pos_of_ne_zero fun hzero => by simp [hzero] at hnext
    have hdigit {r : Nat} (hr : r < count * counts.prod) :
        r / counts.prod % count = r / counts.prod :=
      Nat.mod_eq_of_lt ((Nat.div_lt_iff_lt_mul hpositive).mpr hr)
    rw [positions_cons, positions_cons, hdigit (by omega), hdigit hnext]
    rcases Nat.lt_or_eq_of_le (Nat.div_le_div_right (Nat.le_of_lt hlt)) with hless | hequal
    · exact List.Lex.rel hless
    · -- equal first digits leave the difference to the remainders
      have hrowSplit := Nat.div_add_mod row counts.prod
      have hnextSplit := Nat.div_add_mod next counts.prod
      have hless : row % counts.prod < next % counts.prod := by
        rw [hequal] at hrowSplit
        omega
      have hrest := ih hless (Nat.mod_lt _ hpositive)
      rw [positions_mod dvd_rfl, positions_mod dvd_rfl] at hrest
      rw [hequal]
      exact List.Lex.cons hrest

/-- Every choice of one digit for each column is the choice of a row. -/
theorem exists_positions {chosen : List Nat} (hchosen : List.Forall₂ (· < ·) chosen counts) :
    ∃ row < counts.prod, positions counts row = chosen := by
  induction hchosen with
  | nil => exact ⟨0, by simp, rfl⟩
  | @cons digit count rest counts hdigit _ ih =>
    obtain ⟨row, hrow, hrest⟩ := ih
    refine ⟨counts.prod * digit + row, ?_, ?_⟩
    · calc counts.prod * digit + row < counts.prod * digit + counts.prod := by omega
        _ = counts.prod * (digit + 1) := (Nat.mul_succ _ _).symm
        _ ≤ counts.prod * count := Nat.mul_le_mul_left _ hdigit
        _ = (count :: counts).prod := by rw [List.prod_cons, Nat.mul_comm]
    · rw [positions_cons, Nat.mul_add_div (by omega), Nat.div_eq_of_lt hrow, Nat.add_zero,
        Nat.mod_eq_of_lt hdigit, ← positions_mod dvd_rfl, Nat.mul_add_mod, positions_mod dvd_rfl,
        hrest]

/-- Every choice of one position in each dimension is that of one row. -/
theorem existsUnique_positions {chosen : List Nat} (hchosen : List.Forall₂ (· < ·) chosen counts) :
    ∃! row, row < counts.prod ∧ positions counts row = chosen := by
  obtain ⟨row, hrow, heq⟩ := exists_positions hchosen
  refine ⟨row, ⟨hrow, heq⟩, ?_⟩
  rintro other ⟨hother, hsame⟩
  rcases Nat.lt_trichotomy other row with hlt | rfl | hlt
  · exact absurd (hsame.trans heq.symm ▸ positions_lt hlt hrow) (List.lt_irrefl _)
  · rfl
  · exact absurd (heq.trans hsame.symm ▸ positions_lt hlt hother) (List.lt_irrefl _)

/-! ## Rows -/

/-- Growing some rows column by column puts every combination of the columns behind each. -/
theorem foldl_extend (columns rows : List (List String)) :
    columns.foldl extend rows = rows.flatMap fun row => (combinations columns).map (row ++ ·) := by
  induction columns generalizing rows with
  | nil => simp [combinations]
  | cons values rest ih =>
    rw [combinations, List.foldl_cons, List.foldl_cons, ih, ih (extend [[]] values)]
    simp [extend, List.flatMap_assoc, List.map_flatMap, List.flatMap_map, Function.comp_def]

private theorem combinations_cons (values : List String) (rest : List (List String)) :
    combinations (values :: rest) =
      values.flatMap fun value => (combinations rest).map (value :: ·) := by
  rw [combinations, List.foldl_cons, foldl_extend]
  simp [extend, List.flatMap_map]

private theorem length_combinations (columns : List (List String)) :
    (combinations columns).length = (columns.map List.length).prod := by
  induction columns with
  | nil => rfl
  | cons values rest ih => simp [combinations_cons, List.length_flatMap, ih]

/-- Where all blocks of a list have one length, a place in the list is a block and a place in it. -/
theorem getElem?_flatMap_of_length {α β : Type} {f : α → List β} {size : Nat}
    (hsize : ∀ a, (f a).length = size) (hpositive : 0 < size) (l : List α) (place : Nat) :
    (l.flatMap f)[place]? = l[place / size]?.bind fun a => (f a)[place % size]? := by
  induction l generalizing place with
  | nil => simp
  | cons a l ih =>
    rw [List.flatMap_cons]
    rcases Nat.lt_or_ge place size with hfirst | hlater
    · rw [List.getElem?_append_left (by simpa [hsize] using hfirst), Nat.div_eq_of_lt hfirst,
        Nat.mod_eq_of_lt hfirst]
      rfl
    · rw [List.getElem?_append_right (by simpa [hsize] using hlater), hsize, ih,
        Nat.div_eq_sub_div hpositive hlater, Nat.mod_eq_sub_mod hlater]
      rfl

/-- A row holds in every column the value that the digit of its number names. -/
theorem getElem?_combinations {columns : List (List String)} {row : Nat}
    (hrow : row < (columns.map List.length).prod) :
    ∃ cells, (combinations columns)[row]? = some cells ∧
      cells.map some =
        List.zipWith (·[·]?) columns (positions (columns.map List.length) row) := by
  induction columns generalizing row with
  | nil =>
    obtain rfl : row = 0 := by simpa using hrow
    exact ⟨[], rfl, rfl⟩
  | cons values rest ih =>
    rw [List.map_cons, List.prod_cons] at hrow
    have hpositive : 0 < (rest.map List.length).prod :=
      Nat.pos_of_ne_zero fun hzero => by simp [hzero] at hrow
    have hdigit : row / (rest.map List.length).prod < values.length :=
      (Nat.div_lt_iff_lt_mul hpositive).mpr hrow
    obtain ⟨cells, hcells, hnamed⟩ := ih (Nat.mod_lt row hpositive)
    rw [positions_mod dvd_rfl] at hnamed
    refine ⟨values[row / (rest.map List.length).prod] :: cells, ?_, ?_⟩
    · rw [combinations_cons, getElem?_flatMap_of_length
        (fun value => (List.length_map _).trans (length_combinations rest)) hpositive]
      simp [hdigit, hcells]
    · rw [List.map_cons (f := List.length), positions_cons, Nat.mod_eq_of_lt hdigit,
        List.zipWith_cons_cons, ← hnamed, List.map_cons, List.getElem?_eq_getElem hdigit]

/-! ## Tables of values -/

/-- How many values every column has. -/
def valueCounts (header : List String) (values : String → List String) : List Nat :=
  header.map fun column => (values column).length

variable {header : List String} {values : String → List String}

private theorem rows_ofValues (hheader : header ≠ []) :
    (ofValues header values).rows = combinations (header.map values) := by
  simp [ofValues, hheader]

/-- A table has its header above its rows. -/
theorem lines_ofValues (hheader : header ≠ []) :
    (ofValues header values).lines = header :: (ofValues header values).rows := by
  simp [lines, ofValues, hheader]

/-- A table has a row for each combination. -/
theorem length_rows_ofValues (hheader : header ≠ []) :
    (ofValues header values).rows.length = (valueCounts header values).prod := by
  rw [rows_ofValues hheader, length_combinations, List.map_map]
  rfl

/-- A row has a cell for every column, the value that the row's number names. -/
theorem getElem?_rows_ofValues (hheader : header ≠ []) {row : Nat}
    (hrow : row < (valueCounts header values).prod) :
    ∃ cells, (ofValues header values).rows[row]? = some cells ∧ cells.length = header.length ∧
      ∀ column name, header[column]? = some name → ∃ cell, cells[column]? = some cell ∧
        (values name)[position (valueCounts header values) row column]? = some cell := by
  have hcounts : (header.map values).map List.length = valueCounts header values := List.map_map
  obtain ⟨cells, hcells, hnamed⟩ := getElem?_combinations (hcounts ▸ hrow)
  rw [hcounts] at hnamed
  have hlength : cells.length = header.length := by
    simpa [length_positions, valueCounts] using congrArg List.length hnamed
  refine ⟨cells, (rows_ofValues hheader).symm ▸ hcells, hlength, ?_⟩
  intro column name hname
  have hcolumn : column < header.length := (List.getElem?_eq_some_iff.mp hname).1
  refine ⟨cells[column], List.getElem?_eq_getElem _, ?_⟩
  have hcell := congrArg (·[column]?) hnamed
  simp only [List.getElem?_zipWith, List.getElem?_map, hname, Option.map_some,
    getElem?_positions (show column < (valueCounts header values).length by
      simpa [valueCounts] using hcolumn),
    List.getElem?_eq_getElem (hlength.symm ▸ hcolumn), Option.some.injEq] at hcell
  exact hcell.symm

/-- All lines of the table have a cell for every column. -/
theorem length_of_mem_lines_ofValues (hheader : header ≠ []) :
    ∀ cells ∈ (ofValues header values).lines, cells.length = header.length := by
  rw [lines_ofValues hheader]
  refine List.forall_mem_cons.mpr ⟨rfl, fun cells hcells => ?_⟩
  obtain ⟨row, hrow⟩ := List.mem_iff_getElem?.mp hcells
  obtain ⟨found, hfound, hlength, -⟩ := getElem?_rows_ofValues hheader
    (length_rows_ofValues hheader ▸ (List.getElem?_eq_some_iff.mp hrow).1)
  rwa [Option.some.inj (hrow.symm.trans hfound)]

end PhasedTests.TruthTable
