import PhasedTests.Expansion.Containment.Parse
import PhasedTests.Proofs.Ir.View
import PhasedTests.Proofs.Outcome
import PhasedTests.Proofs.Tree.Inside

/-!
# What a data table holds

A data table that was parsed has the column names of its header, and a row of cells for every other
statement, as many cells as there are columns.
-/

namespace PhasedTests.Table

open PhasedTests.Tree (AllNodes)

/-- The cells of a row are nodes. -/
theorem allNodes_cells (t : Tree) (hnode : t.isNode = true) : AllNodes (cells t) := by
  fun_induction cells t with
  | case1 tag left right location hjoined ihleft ihright =>
    simp only [Bool.and_eq_true] at hjoined
    intro cell hcell
    rcases List.mem_append.mp hcell with hcell | hcell
    · exact ihleft hjoined.1.2 cell hcell
    · exact ihright hjoined.2 cell hcell
  | case2 => exact List.forall_mem_singleton.mpr hnode
  | case3 => exact List.forall_mem_singleton.mpr hnode

/-- The cells of a row lie inside it. -/
theorem inside_of_mem_cells {t cell : Tree} (hcell : cell ∈ cells t) : Tree.Inside cell t := by
  fun_induction cells t with
  | case1 tag left right location _ ihleft ihright =>
    rcases List.mem_append.mp hcell with hcell | hcell
    · exact (ihleft hcell).of_child (by simp [Tree.children])
    · exact (ihright hcell).of_child (by simp [Tree.children])
  | case2 =>
    rw [List.mem_singleton.mp hcell]
    exact .self _
  | case3 =>
    rw [List.mem_singleton.mp hcell]
    exact .self _

/-- The row of a table that a statement is parsed into. -/
def rowOf (statement : Tree) : Tree :=
  (Tree.Build.array (cells statement)).located statement.location

/-- A row is read if it has a cell for each column, and it holds these cells. -/
theorem row_ok_iff {width : Nat} {t : Tree} {found : Tree} :
    row width t = .ok found ↔ (cells t).length = width ∧ found = rowOf t := by
  unfold row rowOf
  dsimp only
  split <;> simp_all [eq_comm]

/-- A row is refused exactly if it has more or fewer cells, at its place. -/
theorem row_error_iff {width : Nat} {t : Tree} {e : TransformError} :
    row width t = .error e ↔ (cells t).length ≠ width ∧
      e = .malformedTable (.wrongWidth (cells t).length width) t.location := by
  unfold row
  dsimp only
  split <;> simp_all [eq_comm]

private theorem rows_cases {width : Nat} {statements built : List Tree}
    (hdone : statements.mapM (row width) = .ok built) :
    (∀ statement ∈ statements, (cells statement).length = width) ∧
      built = statements.map rowOf := by
  induction statements generalizing built with
  | nil =>
    obtain rfl := Except.ok.inj hdone
    exact ⟨List.forall_mem_nil _, rfl⟩
  | cons statement rest ih =>
    obtain ⟨first, later, hfirst, hlater, rfl⟩ := ok_of_mapM_cons hdone
    obtain ⟨hlength, rfl⟩ := row_ok_iff.mp hfirst
    obtain ⟨hlengths, rfl⟩ := ih hlater
    exact ⟨List.forall_mem_cons.mpr ⟨hlength, hlengths⟩, rfl⟩

/-- What the statements of a Where phase are parsed into. -/
theorem parse_cases {block : Block} {table : Tree} (hparse : parse block = .ok table) :
    ∃ header rows names, block.statements = header :: rows ∧ columns header = .ok names ∧
      (∀ row ∈ rows, (cells row).length = names.length) ∧
      table = (Ir.TableView.build ⟨names, rows.map rowOf⟩).located block.location := by
  unfold parse at hparse
  split at hparse
  · cases hparse
  · rename_i header rows hstatements
    obtain ⟨names, hnames, hparse⟩ := ok_of_bind hparse
    obtain ⟨built, hbuilt, hparse⟩ := ok_of_bind hparse
    obtain ⟨hlengths, rfl⟩ := rows_cases hbuilt
    exact ⟨header, rows, names, hstatements, hnames, hlengths, (Except.ok.inj hparse).symm⟩

/-- The rows of a table are read back from its node. -/
theorem view_of_parse {names : List String} {rows : List Tree} {place : Option Span} :
    Ir.TableView.of? ((Ir.TableView.build ⟨names, rows.map rowOf⟩).located place) =
      some ⟨names, rows.map rowOf⟩ := by
  apply Ir.TableView.of?_build
  intro row hrow
  obtain ⟨statement, -, rfl⟩ := List.mem_map.mp hrow
  rfl

end PhasedTests.Table
