import PhasedTests.Proofs.Generate.Unroll

/-!
# The parameters of a loop

A generated loop has one parameter for each column of its table, one for the line of the row and one
for its index. Nothing keeps the names of the columns apart from each other or from the two reserved
names. Where they are apart, every column can be read under its own name.
-/

namespace PhasedTests.Generate

open Tree.Build

/-- The names of the parameters of a block, those in a group among them. -/
def parameters (t : Tree) : List String :=
  match t.nodeAt? 1 with
  | some params => params.childNodes.flatMap fun param =>
    if param.hasTag "mlhs" then param.childNodes.filterMap fun part => part.symbolAt? 0
    else (param.symbolAt? 0).toList
  | none => []

/-- The parameters of a loop: its columns, the line and the index. -/
theorem parameters_loop (definition : Ir.DefView) (body : Tree) (table : Ir.TableView) :
    parameters (loop definition body table) = table.header ++ [lineNumber, testIndex] := by
  have hparts : (table.header.map arg ++ [arg lineNumber]).filter Tree.isNode =
      table.header.map arg ++ [arg lineNumber] := by
    refine List.filter_eq_self.mpr fun part hpart => ?_
    rcases List.mem_append.mp hpart with hpart | hpart
    · obtain ⟨name, -, rfl⟩ := List.mem_map.mp hpart
      rfl
    · rw [List.mem_singleton.mp hpart]
      rfl
  have hcolumns : (table.header.map arg).filterMap (fun part => part.symbolAt? 0) =
      table.header := by
    rw [List.filterMap_map]
    exact List.filterMap_some
  change (((table.header.map arg ++ [arg lineNumber]).filter Tree.isNode).filterMap
    fun part => part.symbolAt? 0) ++ [testIndex] = _
  rw [hparts, List.filterMap_append, hcolumns, List.append_assoc]
  rfl

/-- They are distinct exactly if the columns are, and none of them has a reserved name. -/
theorem nodup_parameters_iff {columns : List String} :
    (columns ++ [lineNumber, testIndex]).Nodup ↔
      columns.Nodup ∧ lineNumber ∉ columns ∧ testIndex ∉ columns := by
  have hreserved : [lineNumber, testIndex].Nodup := by decide
  rw [List.nodup_append, and_iff_right hreserved]
  refine and_congr_right fun _ => ?_
  constructor
  · intro hapart
    exact ⟨fun hline => hapart _ hline _ (by simp) rfl,
      fun hindex => hapart _ hindex _ (by simp) rfl⟩
  · rintro ⟨hline, hindex⟩ name hname other hother rfl
    rcases List.mem_pair.mp hother with rfl | rfl
    · exact hline hname
    · exact hindex hname

/-- Among distinct columns each stands for the cell at its place. -/
theorem cellOf_of_nodup {columns : List String} {row cell : Tree} {place : Nat} {name : String}
    (hdistinct : columns.Nodup) (hname : columns[place]? = some name)
    (hcell : (Table.cells row)[place]? = some cell) : cellOf columns row name = some cell := by
  unfold cellOf
  generalize Table.cells row = values at hcell ⊢
  induction columns generalizing values place with
  | nil => cases hname
  | cons column columns ih =>
    cases values with
    | nil => cases hcell
    | cons value values =>
      obtain ⟨hother, hdistinct⟩ := List.nodup_cons.mp hdistinct
      cases place with
      | zero =>
        obtain rfl := Option.some.inj hname
        rw [List.zip_cons_cons, List.lookup_cons_self, ← hcell]
        rfl
      | succ place =>
        have hne : (name == column) = false := by
          refine beq_false_of_ne fun hsame => hother ?_
          rw [← hsame]
          exact List.mem_of_getElem? hname
        rw [List.zip_cons_cons, List.lookup_cons, hne]
        exact ih hdistinct hname values hcell

/-- The loop of a table has the columns of its header, the line and the index as parameters. They
are distinct exactly if the names in the header are, and none of them is reserved, which is not
looked at when the table is parsed. If they are distinct, the loop is unrolled into one test for
each row, in which calls to a column and reads of it become the cell of the row in that column. -/
theorem parameters_of_parse {block : Block} {node : Tree}
    (hnodes : Tree.AllNodes block.statements) (hparse : Table.parse block = .ok node) :
    ∃ header rows columns table, block.statements = header :: rows ∧
      Table.columns header = .ok columns ∧ Ir.TableView.of? node = some table ∧
      ∀ (definition : Ir.DefView) (body : Tree),
        let generated := loop definition body table
        parameters generated = columns ++ [lineNumber, testIndex] ∧
        ((parameters generated).Nodup ↔
          columns.Nodup ∧ lineNumber ∉ columns ∧ testIndex ∉ columns) ∧
        ((parameters generated).Nodup →
          unroll? generated = some (rows.mapIdx fun index row =>
            ⟨index, row.line?.map Int64.ofNat,
              fill (cellOf columns row) (localOf columns index row)
                (fresh "block"
                  [indexedTestName definition.methodCall, definition.args, body])⟩) ∧
          ∀ (index : Nat), ∀ row ∈ rows, ∀ (place : Nat) (name : String),
            columns[place]? = some name → ∃ cell, (Table.cells row)[place]? = some cell ∧
              cellOf columns row name = some cell ∧
              localOf columns index row name = some cell) := by
  obtain ⟨header, rows, columns, hstatements, hcolumns, hwidth, rfl⟩ := Table.parse_cases hparse
  refine ⟨header, rows, columns, _, hstatements, hcolumns, Table.view_of_parse,
    fun definition body => ?_⟩
  dsimp only
  rw [parameters_loop]
  refine ⟨rfl, nodup_parameters_iff, fun hparameters => ?_⟩
  obtain ⟨hdistinct, hline, hindex⟩ := nodup_parameters_iff.mp hparameters
  refine ⟨?_, fun index row hrow place name hname => ?_⟩
  · refine unroll?_loop (fun row hrow => ?_) hdistinct hindex hline hwidth definition body
    exact hnodes row (hstatements ▸ List.mem_cons_of_mem header hrow)
  · have hless : place < (Table.cells row).length := by
      rw [hwidth row hrow]
      exact (List.getElem?_eq_some_iff.mp hname).1
    have hcell := cellOf_of_nodup hdistinct hname (List.getElem?_eq_getElem hless)
    have hmem := List.mem_of_getElem? hname
    refine ⟨_, List.getElem?_eq_getElem hless, hcell, ?_⟩
    have hplain : name ≠ testIndex ∧ name ≠ lineNumber := by
      constructor
      · rintro rfl
        exact hindex hmem
      · rintro rfl
        exact hline hmem
    unfold localOf
    rw [if_neg hplain.1, if_neg hplain.2]
    exact hcell

/-- A Where block of two columns with these names and one row. -/
def pairTable (first second : String) : Block :=
  let join (left right : Tree) := call (some left) "|" [right]
  ⟨.where, none, [join (call none first []) (call none second []), join (int 1) (int 2)]⟩

/-- With two names the row is read under both of them. -/
theorem parameters_of_parse_pairTable :
    ∃ header row table node, Table.parse (pairTable "a" "b") = .ok node ∧
      Tree.AllNodes (pairTable "a" "b").statements ∧
      (pairTable "a" "b").statements = [header, row] ∧ Ir.TableView.of? node = some table ∧
      let generated := loop ⟨call none "test" [], fresh "args" []⟩ (call none "b" []) table
      parameters generated = ["a", "b", lineNumber, testIndex] ∧ (parameters generated).Nodup ∧
      cellOf ["a", "b"] row "a" = some (int 1) ∧ cellOf ["a", "b"] row "b" = some (int 2) := by
  have hnodes : Tree.AllNodes (pairTable "a" "b").statements := by
    unfold Tree.AllNodes
    decide
  have hparse : ∃ node, Table.parse (pairTable "a" "b") = .ok node := ⟨_, rfl⟩
  obtain ⟨node, hparse⟩ := hparse
  obtain ⟨header, rows, columns, table, hstatements, hcolumns, hview, hloop⟩ :=
    parameters_of_parse hnodes hparse
  obtain ⟨rfl, rfl⟩ := List.cons.inj hstatements
  obtain rfl : ["a", "b"] = columns := Except.ok.inj hcolumns
  obtain ⟨hparameters, hdistinct, hreads⟩ :=
    hloop ⟨call none "test" [], fresh "args" []⟩ (call none "b" [])
  have hnodup := hdistinct.mpr (by decide)
  obtain ⟨-, hcells⟩ := hreads hnodup
  obtain ⟨first, hfirst, ha, -⟩ := hcells 0 _ List.mem_cons_self 0 "a" rfl
  obtain ⟨second, hsecond, hb, -⟩ := hcells 0 _ List.mem_cons_self 1 "b" rfl
  rw [← Option.some.inj hfirst] at ha
  rw [← Option.some.inj hsecond] at hb
  exact ⟨_, _, table, node, hparse, hnodes, rfl, hview, hparameters, hnodup, ha, hb⟩

/-- A header may name two columns alike. The loop then has two parameters of one name, under which
the second cell of the row is read and the first one is not. -/
theorem parameters_pairTable_twins :
    ∃ node table test, Table.parse (pairTable "a" "a") = .ok node ∧
      Ir.TableView.of? node = some table ∧
      let generated := loop ⟨call none "test" [], fresh "args" []⟩ (call none "a" []) table
      parameters generated = ["a", "a", lineNumber, testIndex] ∧ ¬ (parameters generated).Nodup ∧
      unroll? generated = some [test] ∧ test.test.nodeAt? 2 = some (int 2) :=
  ⟨_, _, _, rfl, rfl, rfl, by decide, rfl, rfl⟩

end PhasedTests.Generate
