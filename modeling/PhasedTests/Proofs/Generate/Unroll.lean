import PhasedTests.Generate.Unroll
import PhasedTests.Proofs.Generate.Method
import PhasedTests.Proofs.Test.Table

/-!
# One test per data row

A test with a data table is generated once, with its columns as locals, and unrolled into one test
for each row. Reading calls as locals and then putting values in the place of locals is one
substitution, which leaves the values alone that it puts in.
-/

namespace PhasedTests.Generate

open Tree.Build

mutual

/-- A tree in which bare calls and reads of locals are exchanged, all at once, for what they stand
for. -/
def fill (calls reads : String → Option Tree) : Tree → Tree
  | .leaf value => .leaf value
  | .node tag children location =>
    let t := Tree.node tag children location
    let called := t.bareCall?.bind calls
    let read := if tag == "lvar" then (t.symbolAt? 0).bind reads else none
    match called.or read with
    | some value => value
    | none => .node tag (fillAll calls reads children) location

/-- The trees of a list, filled in. -/
def fillAll (calls reads : String → Option Tree) : List Tree → List Tree
  | [] => []
  | t :: rest => fill calls reads t :: fillAll calls reads rest

end

/-- What a column stands for in a row: the cell at its place. -/
def cellOf (columns : List String) (row : Tree) (name : String) : Option Tree :=
  (columns.zip (Table.cells row)).lookup name

/-- The line of a row, as the generated test shows it. -/
def lineNode (row : Tree) : Tree :=
  match row.line? with
  | some line => int (Int64.ofNat line)
  | none => fresh "nil" []

/-- What a local stands for in the row with this index: its index, its line, or the cell of a
column. -/
def localOf (columns : List String) (index : Nat) (row : Tree) (name : String) : Option Tree :=
  if name = testIndex then some (int (Int64.ofNat index))
  else if name = lineNumber then some (lineNode row)
  else cellOf columns row name

/-- The test of one row, from the test without a table. -/
def rowTest (columns : List String) (test : Tree) (index : Nat) (row : Tree) : Unrolled :=
  ⟨index, row.line?.map Int64.ofNat,
    fill (cellOf columns row) (localOf columns index row) test⟩

/-! ## Two substitutions as one -/

variable {names : List String} {bindings : List (String × Tree)}

private theorem symbol?_callsToLocals (t : Tree) : (callsToLocals names t).symbol? = t.symbol? := by
  cases t with
  | leaf value => rw [callsToLocals]
  | node tag children location =>
    rcases callsToLocals_cases names tag children location with ⟨name, hlocal⟩ | hkept
    · rw [hlocal]
      rfl
    · rw [hkept]
      rfl

/-- Calls in its children do not change which local a node reads. -/
private theorem symbolAt?_callsToLocalsAll (tag : String) (children : List Tree)
    (location : Option Span) :
    (Tree.node tag (callsToLocalsAll names children) location).symbolAt? 0 =
      (Tree.node tag children location).symbolAt? 0 := by
  cases children with
  | nil => rfl
  | cons first rest => exact symbol?_callsToLocals first

/-- A bare call to one of the names, or no such call. -/
private theorem bareCall?_cases (t : Tree) :
    (∃ name ∈ names, t.bareCall? = some name ∧ t.bareCall?.filter names.contains = some name) ∨
      (t.bareCall?.filter names.contains = none ∧
        ∀ value : String → Option Tree,
          t.bareCall?.bind (fun name => if names.contains name then value name else none) =
            none) := by
  cases t.bareCall? with
  | none => exact Or.inr ⟨rfl, fun _ => rfl⟩
  | some name =>
    by_cases hname : name ∈ names
    · exact Or.inl ⟨name, hname, rfl, by simp [Option.filter, hname]⟩
    · exact Or.inr ⟨by simp [Option.filter, hname], fun value => by simp [hname]⟩

mutual

/-- Values for all of the names are put in at once, in the place of calls to the names and of reads
of any bound local. -/
theorem substitute_callsToLocals (hbound : ∀ name ∈ names, (bindings.lookup name).isSome = true) :
    (t : Tree) → substitute bindings (callsToLocals names t) =
      fill (fun name => if names.contains name then bindings.lookup name else none)
        (fun name => bindings.lookup name) t
  | .leaf value => by rw [callsToLocals, substitute, fill]
  | .node tag children location => by
    have hchildren := substituteAll_callsToLocals hbound children
    rw [callsToLocals, fill]
    rcases @bareCall?_cases names (.node tag children location) with
      ⟨name, hname, hcall, hfilter⟩ | ⟨hfilter, hcall⟩
    · obtain ⟨value, hvalue⟩ := Option.isSome_iff_exists.mp (hbound name hname)
      have hread : (Tree.node "lvar" [.symbol name] location).symbolAt? 0 = some name := rfl
      rw [hfilter, hcall]
      change substitute bindings (.node "lvar" [.symbol name] location) = _
      rw [substitute, hread]
      simp [hname, hvalue]
    · rw [hfilter]
      cases hread : (if tag == "lvar" then
          ((Tree.node tag children location).symbolAt? 0).bind fun name => bindings.lookup name
        else none) <;>
        simp only [hcall, Option.none_or, substitute, symbolAt?_callsToLocalsAll, hchildren, hread]

private theorem substituteAll_callsToLocals
    (hbound : ∀ name ∈ names, (bindings.lookup name).isSome = true) :
    (trees : List Tree) → substituteAll bindings (callsToLocalsAll names trees) =
      fillAll (fun name => if names.contains name then bindings.lookup name else none)
        (fun name => bindings.lookup name) trees
  | [] => by rw [callsToLocalsAll, substituteAll, fillAll]
  | t :: rest => by
    rw [callsToLocalsAll, substituteAll, fillAll, substitute_callsToLocals hbound t,
      substituteAll_callsToLocals hbound rest]

end

/-! ## The values of a row -/

/-- With distinct keys the order of a list of values does not matter. -/
private theorem lookup_reverse {entries : List (String × Tree)}
    (hdistinct : (entries.map Prod.fst).Nodup) (name : String) :
    entries.reverse.lookup name = entries.lookup name := by
  induction entries with
  | nil => rfl
  | cons entry rest ih =>
    obtain ⟨key, value⟩ := entry
    rw [List.map_cons, List.nodup_cons] at hdistinct
    rw [List.reverse_cons, List.lookup_append, ih hdistinct.2]
    by_cases hkey : name = key
    · subst hkey
      have hother : rest.lookup name = none := by
        rw [List.lookup_eq_none_iff]
        intro other hmem
        have hne : name ≠ other.1 := fun hsame =>
          hdistinct.1 (List.mem_map.mpr ⟨other, hmem, hsame.symm⟩)
        simpa using hne
      rw [hother, List.lookup_cons_self, List.lookup_cons_self, Option.none_or]
    · have hfirst : (name == key) = false := beq_false_of_ne hkey
      have hnone : List.lookup name [(key, value)] = none := by
        rw [List.lookup_cons, hfirst]
        rfl
      rw [hnone, List.lookup_cons, hfirst, Option.or_none]

variable {columns : List String} {row : Tree}

/-- The values that unrolling binds in a row with as many cells as there are columns. -/
private theorem lookup_bindings (hdistinct : columns.Nodup)
    (hwidth : (Table.cells row).length = columns.length) (index : Nat) (name : String) :
    List.lookup name ((testIndex, int (Int64.ofNat index)) ::
        ((columns ++ [lineNumber]).zip (Table.cells row ++ [lineNode row])).reverse) =
      localOf columns index row name := by
  have hkeys : (columns.zip (Table.cells row)).map Prod.fst = columns :=
    List.map_fst_zip (Nat.le_of_eq hwidth.symm)
  have hreverse := @lookup_reverse (columns.zip (Table.cells row)) (by rwa [hkeys]) name
  rw [List.zip_append hwidth.symm, List.reverse_append, List.zip_cons_cons, List.zip_nil_left,
    List.reverse_singleton, List.singleton_append]
  unfold localOf cellOf
  by_cases hindex : name = testIndex
  · rw [if_pos hindex, hindex, List.lookup_cons_self]
  · have hfirst : (name == testIndex) = false := beq_false_of_ne hindex
    rw [if_neg hindex, List.lookup_cons, hfirst]
    by_cases hline : name = lineNumber
    · rw [if_pos hline, hline]
      exact List.lookup_cons_self
    · have hsecond : (name == lineNumber) = false := beq_false_of_ne hline
      rw [if_neg hline, ← hreverse]
      dsimp only
      rw [List.lookup_cons, hsecond]

/-- A column that is none of the two reserved names stands for its cell. -/
private theorem isSome_cellOf {name : String} (hname : name ∈ columns)
    (hwidth : (Table.cells row).length = columns.length) :
    (cellOf columns row name).isSome = true := by
  have hkeys : (columns.zip (Table.cells row)).map Prod.fst = columns :=
    List.map_fst_zip (Nat.le_of_eq hwidth.symm)
  rw [← hkeys] at hname
  obtain ⟨entry, hentry, rfl⟩ := List.mem_map.mp hname
  exact List.lookup_isSome_iff.mpr ⟨entry, hentry, by simp⟩

private theorem cellOf_eq_none {name : String} (hname : name ∉ columns) :
    cellOf columns row name = none := by
  unfold cellOf
  rw [List.lookup_eq_none_iff]
  intro entry hentry
  have hkey : entry.1 ∈ columns := (List.of_mem_zip hentry).1
  have hne : name ≠ entry.1 := fun hsame => hname (hsame ▸ hkey)
  simpa using hne

/-! ## Unrolling a loop -/

/-- The generated row of a statement: its cells and its line. -/
private theorem rowValues_rowOf (row : Tree) :
    rowValues (Table.rowOf row) = fresh "array" (Table.cells row ++ [lineNode row]) := by
  have hline : (Table.rowOf row).line? = row.line? := rfl
  unfold rowValues lineNode
  rw [hline]
  cases row.line? <;> rfl

/-- The test of a row of a loop. -/
theorem unrollRow_rowOf (hnode : row.isNode = true) (hdistinct : columns.Nodup)
    (hindex : testIndex ∉ columns) (hline : lineNumber ∉ columns)
    (hwidth : (Table.cells row).length = columns.length) (test : Tree) (index : Nat) :
    unrollRow (columns ++ [lineNumber]) (callsToLocals columns test) index
        (rowValues (Table.rowOf row)) =
      some (rowTest columns test index row) := by
  have hnodes : Tree.AllNodes (Table.cells row ++ [lineNode row]) := by
    intro value hvalue
    rcases List.mem_append.mp hvalue with hvalue | hvalue
    · exact Table.allNodes_cells row hnode value hvalue
    · rw [List.mem_singleton.mp hvalue]
      unfold lineNode
      cases row.line? <;> rfl
  have hvalues : (rowValues (Table.rowOf row)).childNodes = Table.cells row ++ [lineNode row] := by
    rw [rowValues_rowOf]
    exact Tree.childNodes_of_allNodes hnodes
  have hreads := @lookup_bindings columns row hdistinct hwidth index
  have hplain : ∀ name ∈ columns, localOf columns index row name = cellOf columns row name := by
    intro name hname
    have hfirst : name ≠ testIndex := fun hsame => hindex (hsame ▸ hname)
    have hsecond : name ≠ lineNumber := fun hsame => hline (hsame ▸ hname)
    unfold localOf
    rw [if_neg hfirst, if_neg hsecond]
  have hcalls : (fun name => if columns.contains name then localOf columns index row name
      else none) = cellOf columns row := by
    funext name
    by_cases hname : name ∈ columns
    · simp [hname, hplain name hname]
    · simp [hname, cellOf_eq_none hname]
  have hbound : ∀ name ∈ columns, (List.lookup name ((testIndex, int (Int64.ofNat index)) ::
      ((columns ++ [lineNumber]).zip (Table.cells row ++ [lineNode row])).reverse)).isSome =
        true := by
    intro name hname
    rw [hreads, hplain name hname]
    exact isSome_cellOf hname hwidth
  have hlast : ((Table.cells row ++ [lineNode row]).getLast?.bind fun value =>
      value.children[0]?) = row.line?.map fun line => Tree.leaf (.int (Int64.ofNat line)) := by
    rw [List.getLast?_concat]
    unfold lineNode
    cases row.line? <;> rfl
  unfold unrollRow
  rw [hvalues, if_pos (by simp [hwidth]), hlast]
  dsimp only
  rw [substitute_callsToLocals hbound]
  simp only [hreads, hcalls]
  unfold rowTest
  cases row.line? <;> rfl

/-- The tests of consecutive rows. -/
theorem unrollRows_rowOf {rows : List Tree} (hnodes : Tree.AllNodes rows)
    (hdistinct : columns.Nodup) (hindex : testIndex ∉ columns) (hline : lineNumber ∉ columns)
    (hwidth : ∀ row ∈ rows, (Table.cells row).length = columns.length) (test : Tree)
    (index : Nat) :
    unrollRows (columns ++ [lineNumber]) (callsToLocals columns test) index
        (rows.map fun row => rowValues (Table.rowOf row)) =
      some (rows.mapIdx fun n row => rowTest columns test (index + n) row) := by
  induction rows generalizing index with
  | nil => rfl
  | cons row rest ih =>
    have hfirst := unrollRow_rowOf (hnodes row List.mem_cons_self) hdistinct hindex hline
      (hwidth row List.mem_cons_self) test index
    have hrest := ih (fun t ht => hnodes t (List.mem_cons_of_mem row ht))
      (fun t ht => hwidth t (List.mem_cons_of_mem row ht)) (index + 1)
    rw [List.map_cons, unrollRows, hfirst, hrest, List.mapIdx_cons]
    simp [Nat.add_comm, Nat.add_left_comm]

private theorem mapM_symbolAt?_arg (names : List String) :
    (names.map arg).mapM (fun column => column.symbolAt? 0) = some names := by
  induction names with
  | nil => rfl
  | cons name rest ih =>
    rw [List.map_cons, List.mapM_cons, ih]
    rfl

/-- Parameters whose names are known and end in the line are the columns of a loop. -/
private theorem loopColumns?_eq {params parts : Tree} {names : List String}
    (hparts : params.nodeAt? 0 = some parts) (htag : parts.hasTag "mlhs" = true)
    (hnames : (parts.childNodes.mapM fun column => column.symbolAt? 0) = some names)
    (hlast : (names.getLast? == some lineNumber) = true) : loopColumns? params = some names := by
  unfold loopColumns?
  rw [hparts]
  change ((guard (parts.hasTag "mlhs" = true) : Option Unit) >>= fun _ =>
    parts.childNodes.mapM _ >>= _) = _
  rw [htag, hnames]
  change ((guard ((names.getLast? == some lineNumber) = true) : Option Unit) >>= _) = _
  rw [hlast]
  rfl

/-- The parameters of a loop name its columns and the line. -/
private theorem loopColumns?_loop (columns : List String) (others : List Tree) :
    loopColumns? (fresh "args" (fresh "mlhs" (columns.map arg ++ [arg lineNumber]) :: others)) =
      some (columns ++ [lineNumber]) := by
  have hargs : columns.map arg ++ [arg lineNumber] = (columns ++ [lineNumber]).map arg := by
    rw [List.map_append]
    rfl
  have hnodes : Tree.AllNodes ((columns ++ [lineNumber]).map arg) := by
    intro t ht
    obtain ⟨name, -, rfl⟩ := List.mem_map.mp ht
    rfl
  have hchildren : (fresh "mlhs" ((columns ++ [lineNumber]).map arg)).childNodes =
      (columns ++ [lineNumber]).map arg := Tree.childNodes_of_allNodes hnodes
  rw [hargs]
  refine loopColumns?_eq (Tree.nodeAt?_zero rfl) (Tree.hasTag_self _ _ _) ?_ ?_
  · rw [hchildren]
    exact mapM_symbolAt?_arg _
  · rw [List.getLast?_concat]
    exact beq_self_eq_true _

/-- A block over known rows and columns is unrolled row by row. -/
private theorem unroll?_block {iteration params test rows : Tree} {names : List String}
    (hrows : loopRows? iteration = some rows) (hnames : loopColumns? params = some names)
    (hiteration : iteration.isNode = true) (hparams : params.isNode = true)
    (htest : test.isNode = true) :
    unroll? (fresh "block" [iteration, params, test]) =
      unrollRows names test 0 rows.childNodes := by
  have htag : (fresh "block" [iteration, params, test]).hasTag "block" = true :=
    Tree.hasTag_self _ _ _
  have hfirst : (fresh "block" [iteration, params, test]).nodeAt? 0 = some iteration :=
    Tree.nodeAt?_zero hiteration
  have hsecond : (fresh "block" [iteration, params, test]).nodeAt? 1 = some params := by
    rw [fresh, Tree.nodeAt?_succ, Tree.nodeAt?_zero hparams]
  have hthird : (fresh "block" [iteration, params, test]).nodeAt? 2 = some test := by
    rw [fresh, Tree.nodeAt?_succ, Tree.nodeAt?_succ, Tree.nodeAt?_zero htest]
  unfold unroll?
  rw [htag, hfirst, hsecond, hthird]
  change (loopRows? iteration >>= fun rows => loopColumns? params >>= fun names =>
    unrollRows names test 0 rows.childNodes) = _
  rw [hrows, hnames]
  rfl

/-- A loop is unrolled into one test for each row of its table. -/
theorem unroll?_loop {rows : List Tree} (hnodes : Tree.AllNodes rows)
    (hdistinct : columns.Nodup) (hindex : testIndex ∉ columns) (hline : lineNumber ∉ columns)
    (hwidth : ∀ row ∈ rows, (Table.cells row).length = columns.length)
    (definition : Ir.DefView) (body : Tree) :
    unroll? (loop definition body ⟨columns, rows.map Table.rowOf⟩) =
      some (rows.mapIdx fun index row => rowTest columns
        (fresh "block" [indexedTestName definition.methodCall, definition.args, body]) index
        row) := by
  let test := fresh "block" [indexedTestName definition.methodCall, definition.args, body]
  let values := rows.map fun row => rowValues (Table.rowOf row)
  have hvalues : (array values).childNodes = values := by
    apply Tree.childNodes_of_allNodes
    intro t ht
    obtain ⟨row, -, rfl⟩ := List.mem_map.mp ht
    rfl
  have htest : (callsToLocals columns test).isNode = true := by
    change (callsToLocals columns (.node "block" _ none)).isNode = true
    rw [callsToLocals_node _ (by decide)]
    rfl
  have hrows := unrollRows_rowOf hnodes hdistinct hindex hline hwidth test 0
  simp only [Nat.zero_add] at hrows
  have hiteration : loopRows? (call (some (call (some (array values)) "each" [])) "with_index" []) =
      some (array values) := rfl
  have htable : (rows.map Table.rowOf).map rowValues = values := by
    rw [List.map_map]
    rfl
  unfold loop
  rw [← hrows, unroll?_block (htable ▸ hiteration) (loopColumns?_loop _ _) rfl rfl htest]
  dsimp only
  rw [htable, hvalues]

/-- A test with a Where phase is generated into a loop, which is unrolled into one test for each of
its rows, in their order. The test of a row has the row's index and line. It is the method that is
generated without the table, under its indexed name, in which calls to and reads of columns became
the row's cells, and reads of the index and of the line these two, all at once. -/
theorem unroll_of_parse {context : Context} {t test generated : Tree}
    (hparse : TestMethod.parse context t = .ok test)
    (hwhere : ∃ s ∈ t.testStatements, s.introduces? = some .where)
    (hmethod : method test = .ok generated) :
    ∃ methodCall args phases table header rows columns body,
      t.nodeAt? 0 = some methodCall ∧ t.nodeAt? 1 = some args ∧
      statementsIn .where t.testStatements = header :: rows ∧
      Table.columns header = .ok columns ∧
      test = (Ir.TestView.build (Ir.DefView.build ⟨methodCall, args⟩) (Ir.BodyView.build phases)
        (some table)).located t.location ∧
      method ((Ir.TestView.build (Ir.DefView.build ⟨methodCall, args⟩) (Ir.BodyView.build phases)
        none).located t.location) = .ok (fresh "block" [methodCall, args, body]) ∧
      (columns.Nodup → testIndex ∉ columns → lineNumber ∉ columns →
        unroll? generated = some (rows.mapIdx fun index row =>
          ⟨index, row.line?.map Int64.ofNat,
            fill (cellOf columns row) (localOf columns index row)
              (fresh "block" [indexedTestName methodCall, args, body])⟩)) := by
  obtain ⟨methodCall, args, blocks, phases, table, found, hcall, hargs, hsplit, rfl, hphases, hcase,
    -, hview⟩ := TestMethod.view_of_parse hparse
  cases hcase with
  | none hnone =>
    obtain ⟨s, hs, hphase⟩ := hwhere
    exact absurd hphase (hnone s hs)
  | rows header rows columns node _ hstatements hcolumns hwidth =>
    have hplain := @TestMethod.testView_build methodCall args phases t.location
      (Tree.isNode_of_nodeAt? hcall) (Tree.isNode_of_nodeAt? hargs) hphases
    unfold method at hmethod
    rw [hview] at hmethod
    obtain ⟨body, hbody, hloop⟩ := ok_of_bind hmethod
    obtain rfl := Except.ok.inj hloop
    refine ⟨methodCall, args, phases, node, header, rows, columns, body, hcall, hargs, hstatements,
      hcolumns, rfl, ?_, ?_⟩
    · unfold method
      rw [hplain]
      change (methodBody _ >>= _) = _
      rw [hbody]
      rfl
    · intro hdistinct hindex hline
      have hnodes : Tree.AllNodes rows := by
        intro row hrow
        have hmem : row ∈ statementsIn .where t.testStatements :=
          hstatements ▸ List.mem_cons_of_mem header hrow
        exact t.allNodes_testStatements row (mem_of_mem_statementsIn hmem).1
      exact unroll?_loop hnodes hdistinct hindex hline hwidth ⟨methodCall, args⟩ body

/-- A test with a data table of two columns and two rows. -/
def sumTest : Tree :=
  let word (name : String) := call none name []
  let pair (method : String) (left right : Tree) := call (some left) method [right]
  fresh "block"
    [call none "test" [str "adds"], fresh "args" [],
     begin
       [word "Expect", pair "==" (word "sum") (word "total"), word "Where",
        pair "|" (word "sum") (word "total"), pair "|" (int 1) (int 1),
        pair "|" (word "total") (int 2)]]

/-- The tests of its rows. In the second one a cell calls the other column, and stays a call. -/
theorem unroll_of_parse_sumTest :
    ∃ test generated methodCall args header rows body,
      TestMethod.parse .detached sumTest = .ok test ∧
      (∃ s ∈ sumTest.testStatements, s.introduces? = some .where) ∧
      method test = .ok generated ∧
      sumTest.nodeAt? 0 = some methodCall ∧ sumTest.nodeAt? 1 = some args ∧
      statementsIn .where sumTest.testStatements = header :: rows ∧ rows.length = 2 ∧
      Table.columns header = .ok ["sum", "total"] ∧ ["sum", "total"].Nodup ∧
      testIndex ∉ ["sum", "total"] ∧ lineNumber ∉ ["sum", "total"] ∧
      unroll? generated = some (rows.mapIdx fun index row =>
        ⟨index, row.line?.map Int64.ofNat,
          fill (cellOf ["sum", "total"] row) (localOf ["sum", "total"] index row)
            (fresh "block" [indexedTestName methodCall, args, body])⟩) := by
  have hdone : ∃ test generated, TestMethod.parse .detached sumTest = .ok test ∧
      method test = .ok generated := ⟨_, _, rfl, rfl⟩
  have hwhere : ∃ s ∈ sumTest.testStatements, s.introduces? = some .where :=
    ⟨call none "Where" [], List.mem_of_getElem? (i := 2) rfl, rfl⟩
  obtain ⟨test, generated, hparse, hmethod⟩ := hdone
  obtain ⟨methodCall, args, phases, table, header, rows, columns, body, hcall, hargs, hstatements,
    hcolumns, -, -, hunroll⟩ := unroll_of_parse hparse hwhere hmethod
  have hlength : (header :: rows).length = 3 := by
    rw [← hstatements]
    rfl
  have hnames : columns = ["sum", "total"] := by
    have hheader : (statementsIn .where sumTest.testStatements).head?.map Table.columns =
        some (.ok ["sum", "total"]) := rfl
    rw [hstatements, List.head?_cons, Option.map_some, hcolumns] at hheader
    exact Except.ok.inj (Option.some.inj hheader)
  subst hnames
  exact ⟨test, generated, methodCall, args, header, rows, body, hparse, hwhere, hmethod, hcall,
    hargs, hstatements, Nat.succ.inj hlength, hcolumns, by decide, by decide, by decide,
    hunroll (by decide) (by decide) (by decide)⟩

end PhasedTests.Generate
