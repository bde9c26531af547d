import PhasedTests.Proofs.Interaction.Chain
import PhasedTests.Proofs.Test.Table

/-!
# Cells and the tables they make

Cells that are joined by `|` are found again in their order, however the pipes are nested. A table
is refused for its first mistake, where its header is looked at before its rows, and any other table
holds the cells of all its rows.
-/

namespace PhasedTests

namespace Table

/-! ## Joined cells -/

/-- Whether the tree joins two nodes by `|`. -/
def isPipe (t : Tree) : Bool :=
  match t.binaryCall? with
  | some (_, "|", _) => true
  | _ => false

/-- `Joined list t` says that `t` joins the cells of the list by `|`, in this order and nested in
any way. -/
inductive Joined : List Tree → Tree → Prop where
  | cell (t : Tree) : Joined [t] t
  | pipe {left right : List Tree} {t a b : Tree} (hpipe : t.binaryCall? = some (a, "|", b))
      (hleft : Joined left a) (hright : Joined right b) : Joined (left ++ right) t

private theorem isPipe_iff {t : Tree} :
    isPipe t = true ↔ ∃ a b, t.binaryCall? = some (a, "|", b) := by
  unfold isPipe
  split
  · rename_i a b hcall
    exact iff_of_true rfl ⟨a, b, hcall⟩
  · rename_i hother
    exact iff_of_false Bool.false_ne_true fun ⟨a, b, hcall⟩ => hother a b hcall

private theorem cells_of_pipe {t a b : Tree} (hpipe : t.binaryCall? = some (a, "|", b)) :
    cells t = cells a ++ cells b := by
  obtain ⟨ha, hb⟩ := Tree.isNode_of_binaryCall? hpipe
  obtain ⟨tag, location, htag, rfl⟩ := Tree.eq_of_binaryCall? hpipe
  have hsends : (tag == "send" || tag == "csend") = true := by simpa using htag
  rw [cells, hsends, ha, hb]
  rfl

/-- Any other tree is a cell. -/
theorem cells_of_isPipe_eq_false {t : Tree} (hother : isPipe t = false) : cells t = [t] := by
  unfold cells
  split
  · rename_i tag left right location
    split
    · rename_i hjoined
      simp only [Bool.and_eq_true, Bool.or_eq_true, beq_iff_eq] at hjoined
      obtain ⟨⟨htag, hleft⟩, hright⟩ := hjoined
      have hpipe := @Interaction.binaryCall?_on tag "|" left right location (by simpa using htag)
        hleft hright
      rw [isPipe_iff.mpr ⟨left, right, hpipe⟩] at hother
      cases hother
    · rfl
  · rfl

/-- A tree joins its cells, and none of them is joined of others. -/
theorem joined_cells (t : Tree) : Joined (cells t) t ∧ ∀ c ∈ cells t, isPipe c = false := by
  cases hpipe : isPipe t with
  | false =>
    rw [cells_of_isPipe_eq_false hpipe]
    exact ⟨.cell t, List.forall_mem_singleton.mpr hpipe⟩
  | true =>
    obtain ⟨a, b, hcall⟩ := isPipe_iff.mp hpipe
    have hsmaller : sizeOf a < sizeOf t ∧ sizeOf b < sizeOf t := by
      obtain ⟨tag, location, -, rfl⟩ := Tree.eq_of_binaryCall? hcall
      simp
      omega
    obtain ⟨hleft, hplainLeft⟩ := joined_cells a
    obtain ⟨hright, hplainRight⟩ := joined_cells b
    rw [cells_of_pipe hcall]
    exact ⟨.pipe hcall hleft hright, List.forall_mem_append.mpr ⟨hplainLeft, hplainRight⟩⟩
termination_by sizeOf t
decreasing_by
  · exact hsmaller.1
  · exact hsmaller.2

/-- The cells of a tree are the list of plain cells that it joins. -/
theorem cells_eq_iff {list : List Tree} {t : Tree} :
    cells t = list ↔ Joined list t ∧ ∀ c ∈ list, isPipe c = false := by
  constructor
  · rintro rfl
    exact joined_cells t
  · rintro ⟨hjoined, hplain⟩
    induction hjoined with
    | cell t => exact cells_of_isPipe_eq_false (hplain t List.mem_cons_self)
    | pipe hpipe _ _ ihleft ihright =>
      obtain ⟨hleft, hright⟩ := List.forall_mem_append.mp hplain
      rw [cells_of_pipe hpipe, ihleft hleft, ihright hright]

/-! ## Tables -/

/-- Why a Where block is refused: it has no header, the first header cell that is no bare name, or
the first row with another number of cells than the header. -/
inductive Refused (block : Block) : TransformError → Prop where
  | noHeader (hempty : block.statements = []) :
      Refused block (.malformedTable .noHeader block.location)
  | badHeaderCell {header cell : Tree} {rows before after : List Tree}
      (hstatements : block.statements = header :: rows)
      (hcells : cells header = before ++ cell :: after)
      (hnamed : ∀ c ∈ before, c.bareCall?.isSome = true) (hbad : cell.bareCall? = none) :
      Refused block
        (.malformedTable (.badHeaderCell cell) (cell.location.or header.location))
  | wrongWidth {header row : Tree} {before after : List Tree}
      (hstatements : block.statements = header :: (before ++ row :: after))
      (hnamed : ∀ c ∈ cells header, c.bareCall?.isSome = true)
      (hfits : ∀ r ∈ before, (cells r).length = (cells header).length)
      (hbad : (cells row).length ≠ (cells header).length) :
      Refused block
        (.malformedTable (.wrongWidth (cells row).length (cells header).length) row.location)

private theorem columnName_ok_iff {header cell : Tree} {name : String} :
    columnName header cell = .ok name ↔ cell.bareCall? = some name := by
  unfold columnName
  cases cell.bareCall? <;> simp

private theorem columnName_error_iff {header cell : Tree} {e : TransformError} :
    columnName header cell = .error e ↔ cell.bareCall? = none ∧
      e = .malformedTable (.badHeaderCell cell) (cell.location.or header.location) := by
  unfold columnName
  cases cell.bareCall? <;> simp [eq_comm]

/-- The names of a header are those of its cells. -/
theorem columns_ok_iff {header : Tree} {names : List String} :
    columns header = .ok names ↔ (cells header).map Tree.bareCall? = names.map some := by
  unfold columns
  rw [mapM_ok_iff]
  simp only [columnName_ok_iff]
  rw [← List.forall₂_eq_eq_eq, List.forall₂_map_left_iff, List.forall₂_map_right_iff]

/-- All cells of a header with names are named, and there are as many names as cells. -/
theorem named_of_columns {header : Tree} {names : List String}
    (hnames : columns header = .ok names) :
    (∀ c ∈ cells header, c.bareCall?.isSome = true) ∧ names.length = (cells header).length := by
  have hcells := columns_ok_iff.mp hnames
  refine ⟨fun c hc => ?_, by simpa using (congrArg List.length hcells).symm⟩
  have hmem : c.bareCall? ∈ names.map some := hcells ▸ List.mem_map_of_mem hc
  obtain ⟨name, -, hname⟩ := List.mem_map.mp hmem
  rw [← hname]
  rfl

private theorem exists_columns {header : Tree}
    (hnamed : ∀ c ∈ cells header, c.bareCall?.isSome = true) :
    ∃ names, columns header = .ok names := by
  cases hheader : columns header with
  | ok names => exact ⟨names, rfl⟩
  | error e =>
    obtain ⟨before, cell, after, hcells, -, hcell⟩ := mapM_error_iff.mp hheader
    have hsome := hnamed cell (hcells ▸ List.mem_append_right before List.mem_cons_self)
    rw [(columnName_error_iff.mp hcell).1] at hsome
    cases hsome

/-- A table is refused for the first mistake in it, if it has one. -/
theorem parse_error_iff {block : Block} {e : TransformError} :
    parse block = .error e ↔ Refused block e := by
  constructor
  · intro hfailed
    unfold parse at hfailed
    split at hfailed
    · rename_i hempty
      rw [← Except.error.inj hfailed]
      exact .noHeader hempty
    · rename_i header rows hstatements
      rcases error_of_bind hfailed with hheader | ⟨names, hnames, hfailed⟩
      · obtain ⟨before, cell, after, hcells, hbefore, hcell⟩ := mapM_error_iff.mp hheader
        obtain ⟨hbad, rfl⟩ := columnName_error_iff.mp hcell
        refine .badHeaderCell hstatements hcells (fun c hc => ?_) hbad
        obtain ⟨name, hname⟩ := hbefore c hc
        rw [columnName_ok_iff.mp hname]
        rfl
      · obtain ⟨hnamed, hwidth⟩ := named_of_columns hnames
        rw [hwidth] at hfailed
        rcases error_of_bind hfailed with hrows | ⟨built, -, hdone⟩
        · obtain ⟨before, row, after, rfl, hbefore, hrow⟩ := mapM_error_iff.mp hrows
          obtain ⟨hbad, rfl⟩ := row_error_iff.mp hrow
          refine .wrongWidth hstatements hnamed (fun r hr => ?_) hbad
          obtain ⟨found, hfound⟩ := hbefore r hr
          exact (row_ok_iff.mp hfound).1
        · cases hdone
  · intro hrefused
    cases hrefused with
    | noHeader hempty =>
      unfold parse
      rw [hempty]
    | @badHeaderCell header cell rows before after hstatements hcells hnamed hbad =>
      have hheader : columns header =
          .error (.malformedTable (.badHeaderCell cell) (cell.location.or header.location)) := by
        refine mapM_error_iff.mpr ⟨before, cell, after, hcells, fun c hc => ?_,
          columnName_error_iff.mpr ⟨hbad, rfl⟩⟩
        obtain ⟨name, hname⟩ := Option.isSome_iff_exists.mp (hnamed c hc)
        exact ⟨name, columnName_ok_iff.mpr hname⟩
      unfold parse
      rw [hstatements]
      change (columns header >>= _) = _
      rw [hheader]
      rfl
    | @wrongWidth header row before after hstatements hnamed hfits hbad =>
      obtain ⟨names, hnames⟩ := exists_columns hnamed
      have hrows : (before ++ row :: after).mapM (Table.row (cells header).length) =
          .error (.malformedTable (.wrongWidth (cells row).length (cells header).length)
            row.location) :=
        mapM_error_iff.mpr ⟨before, row, after, rfl,
          fun r hr => ⟨_, row_ok_iff.mpr ⟨hfits r hr, rfl⟩⟩, row_error_iff.mpr ⟨hbad, rfl⟩⟩
      unfold parse
      rw [hstatements]
      change (columns header >>= _) = _
      rw [hnames]
      change ((before ++ row :: after).mapM (Table.row names.length) >>= _) = _
      rw [(named_of_columns hnames).2, hrows]
      rfl

/-- What is wrong with the statements of a Where block that is refused. -/
theorem parse_fails_iff {block : Block} :
    (∃ e, parse block = .error e) ↔ block.statements = [] ∨
      ∃ header rows, block.statements = header :: rows ∧
        ((∃ c ∈ cells header, c.bareCall? = none) ∨
          ∃ row ∈ rows, (cells row).length ≠ (cells header).length) := by
  constructor
  · rintro ⟨e, hfailed⟩
    cases parse_error_iff.mp hfailed with
    | noHeader hempty => exact .inl hempty
    | badHeaderCell hstatements hcells _ hbad =>
      exact .inr ⟨_, _, hstatements, .inl ⟨_, hcells ▸ by simp, hbad⟩⟩
    | wrongWidth hstatements _ _ hbad =>
      exact .inr ⟨_, _, hstatements, .inr ⟨_, by simp, hbad⟩⟩
  · intro hwrong
    cases hparse : parse block with
    | error e => exact ⟨e, rfl⟩
    | ok node =>
      obtain ⟨header, rows, names, hstatements, hnames, hwidth, -⟩ := parse_cases hparse
      obtain ⟨hnamed, hlength⟩ := named_of_columns hnames
      rw [hstatements] at hwrong
      rcases hwrong with hempty | ⟨_, _, hsame, ⟨c, hc, hbad⟩ | ⟨row, hrow, hbad⟩⟩
      · cases hempty
      · obtain ⟨rfl, rfl⟩ := List.cons.inj hsame
        have hsome := hnamed c hc
        rw [hbad] at hsome
        cases hsome
      · obtain ⟨rfl, rfl⟩ := List.cons.inj hsame
        exact absurd ((hwidth row hrow).trans hlength) hbad

/-- Flattening finds the cells that a tree joins by `|`, whatever the nesting, and only these. A
Where block is refused if it has no header, if a header cell is no bare name, or if a row has
another number of cells than the header, and then for the first of these, where the header comes
before the rows. Otherwise its table has the names of the header cells, and one row of cells for
every statement behind the header, at the place of the statement. -/
theorem cells_of_parse :
    (∀ (list : List Tree) (t : Tree),
      cells t = list ↔ Joined list t ∧ ∀ c ∈ list, isPipe c = false) ∧
    ∀ block : Block,
      ((∃ e, parse block = .error e) ↔ block.statements = [] ∨
        ∃ header rows, block.statements = header :: rows ∧
          ((∃ c ∈ cells header, c.bareCall? = none) ∨
            ∃ row ∈ rows, (cells row).length ≠ (cells header).length)) ∧
      (∀ e, parse block = .error e ↔ Refused block e) ∧
      ∀ node, parse block = .ok node → ∃ header rows names,
        block.statements = header :: rows ∧
        (cells header).map Tree.bareCall? = names.map some ∧
        (∀ row ∈ rows, (cells row).length = (cells header).length) ∧
        Ir.TableView.of? node = some ⟨names, rows.map fun row =>
          (Tree.Build.array (cells row)).located row.location⟩ ∧
        node.location = block.location := by
  refine ⟨fun list t => cells_eq_iff, fun block => ⟨parse_fails_iff, fun e => parse_error_iff, ?_⟩⟩
  intro node hparse
  obtain ⟨header, rows, names, hstatements, hnames, hwidth, rfl⟩ := parse_cases hparse
  rw [(named_of_columns hnames).2] at hwidth
  exact ⟨header, rows, names, hstatements, columns_ok_iff.mp hnames, hwidth, view_of_parse, rfl⟩

/-- Three cells that are joined by two pipes, to the left or to the right. -/
def threeCells (toTheLeft : Bool) (first second third : Tree) : Tree :=
  let join (left right : Tree) := Tree.Build.call (some left) "|" [right]
  if toTheLeft then join (join first second) third else join first (join second third)

/-- A row that is nested in another way than its header holds the same cells, and with them makes a
table. A row behind it with one cell is refused. -/
theorem cells_of_parse_threeCells :
    let word (name : String) := Tree.Build.call none name []
    let header := threeCells true (word "a") (word "b") (word "c")
    let values := [Tree.Build.int 1, Tree.Build.int 2, Tree.Build.int 3]
    let row := threeCells false (Tree.Build.int 1) (Tree.Build.int 2) (Tree.Build.int 3)
    let place : Span := ⟨7, 9, ⟨2, 1⟩, ⟨2, 2⟩⟩
    let short := (Tree.Build.int 4).located (some place)
    (Joined values row ∧ ∀ c ∈ values, isPipe c = false) ∧
    parse ⟨.where, none, [header, row, short]⟩ =
      .error (.malformedTable (.wrongWidth 1 3) (some place)) ∧
    ∃ node, parse ⟨.where, none, [header, row]⟩ = .ok node ∧
      Ir.TableView.of? node = some ⟨["a", "b", "c"], [Tree.Build.array values]⟩ := by
  intro word header values row place short
  obtain ⟨hcells, htables⟩ := cells_of_parse
  have hnamed : ∀ c ∈ cells header, c.bareCall?.isSome = true := by decide
  have hfits : ∀ r ∈ [row], (cells r).length = (cells header).length := by decide
  have hbad : (cells short).length ≠ (cells header).length := by decide
  refine ⟨(hcells values row).mp rfl, ?_, ?_⟩
  · exact ((htables ⟨.where, none, [header, row, short]⟩).2.1 _).mpr
      (@Refused.wrongWidth _ header short [row] [] rfl hnamed hfits hbad)
  · have hparse : ∃ node, parse ⟨.where, none, [header, row]⟩ = .ok node := ⟨_, rfl⟩
    obtain ⟨node, hparse⟩ := hparse
    obtain ⟨header', rows, names, hstatements, hnames, -, hview, -⟩ :=
      (htables ⟨.where, none, [header, row]⟩).2.2 node hparse
    obtain ⟨rfl, rfl⟩ := List.cons.inj hstatements
    have hnames : (["a", "b", "c"] : List String).map some = names.map some := hnames
    obtain rfl := List.map_injective_iff.mpr (fun _ _ => Option.some.inj) hnames
    exact ⟨node, hparse, hview⟩

end Table

end PhasedTests
