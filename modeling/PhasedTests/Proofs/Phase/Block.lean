import PhasedTests.Phase.Block
import PhasedTests.Proofs.Outcome

/-!
# The statements of a phase

A test body in phases gives every phase the statements behind its introducer, up to the next one.
No phase opens twice, so the block of a phase holds all of its statements.
-/

namespace PhasedTests

namespace Phase

/-- The place of a phase in the order that phases come in. -/
def rank : Phase → Nat
  | start => 0
  | given => 1
  | .when => 2
  | .then | expect => 3
  | cleanup => 4
  | .where => 5
  | finish => 6

/-- The phases that hold statements that run. -/
def plain : List Phase :=
  [given, .when, .then, expect, cleanup]

/-- A phase that may follow comes later. -/
theorem rank_lt_of_allows {phase next : Phase} (hallows : phase.allows next = true) :
    phase.rank < next.rank := by
  revert hallows
  cases phase <;> cases next <;> decide

end Phase

/-- None of the statements introduces a phase. -/
def Quiet (statements : List Tree) : Prop :=
  ∀ s ∈ statements, s.introduces? = none

/-- A body without statements is quiet. -/
theorem quiet_nil : Quiet [] :=
  fun _ hs => nomatch hs

/-- A body of one statement is quiet if the statement introduces no phase. -/
theorem quiet_singleton {s : Tree} (hquiet : s.introduces? = none) : Quiet [s] := by
  intro other hother
  rw [List.mem_singleton.mp hother]
  exact hquiet

/-- Quiet statements behind quiet ones are quiet. -/
theorem quiet_append {first second : List Tree} (hfirst : Quiet first) (hsecond : Quiet second) :
    Quiet (first ++ second) := fun s hs =>
  (List.mem_append.mp hs).elim (hfirst s) (hsecond s)

/-- A function that introduces no phase keeps statements quiet. -/
theorem quiet_map {f : Tree → Tree}
    (hf : ∀ s : Tree, s.introduces? = none → (f s).introduces? = none) {statements : List Tree}
    (hquiet : Quiet statements) : Quiet (statements.map f) := by
  intro s hs
  obtain ⟨t, ht, rfl⟩ := List.mem_map.mp hs
  exact hf t (hquiet t ht)

/-- Quiet statements are not in phases. -/
theorem hasPhases_of_quiet {statements : List Tree} (hquiet : Quiet statements) :
    hasPhases statements = false := by
  unfold hasPhases
  rw [List.any_eq_false]
  intro s hs
  rw [hquiet s hs]
  decide

/-- The statements of a test body, each with the phase that is open at it. Introducers are left
out. -/
def phased (current : Phase) : List Tree → List (Phase × Tree)
  | [] => []
  | statement :: rest =>
    match statement.introduces? with
    | some phase => phased phase rest
    | none => (current, statement) :: phased current rest

/-- Those of the statements that belong to a phase. -/
def belonging (phase : Phase) (entries : List (Phase × Tree)) : List Tree :=
  (entries.filter fun entry => entry.1 = phase).map Prod.snd

/-- The statements of a phase of a test body, in source order. -/
def statementsIn (phase : Phase) (statements : List Tree) : List Tree :=
  belonging phase (phased .start statements)

private theorem mem_of_mem_phased {current : Phase} {statements : List Tree}
    {entry : Phase × Tree} (hmem : entry ∈ phased current statements) :
    entry.2 ∈ statements ∧ entry.2.introduces? = none := by
  induction statements generalizing current with
  | nil => cases hmem
  | cons statement rest ih =>
    rw [phased] at hmem
    split at hmem
    · exact ⟨List.mem_cons_of_mem _ (ih hmem).1, (ih hmem).2⟩
    · rename_i hquiet
      rcases List.mem_cons.mp hmem with rfl | hmem
      · exact ⟨List.mem_cons_self, hquiet⟩
      · exact ⟨List.mem_cons_of_mem _ (ih hmem).1, (ih hmem).2⟩

/-- The statements of a phase are statements of the test that introduce no phase. -/
theorem mem_of_mem_statementsIn {phase : Phase} {statements : List Tree} {statement : Tree}
    (hmem : statement ∈ statementsIn phase statements) :
    statement ∈ statements ∧ statement.introduces? = none := by
  obtain ⟨entry, hentry, rfl⟩ := List.mem_map.mp hmem
  exact mem_of_mem_phased (List.mem_filter.mp hentry).1

private theorem belonging_nil (phase : Phase) : belonging phase [] = [] := rfl

private theorem belonging_cons (phase current : Phase) (statement : Tree)
    (entries : List (Phase × Tree)) :
    belonging phase ((current, statement) :: entries) =
      (if current = phase then [statement] else []) ++ belonging phase entries := by
  unfold belonging
  by_cases hsame : current = phase
  · rw [List.filter_cons_of_pos (by simpa using hsame), if_pos hsame]
    rfl
  · rw [List.filter_cons_of_neg (by simpa using hsame), if_neg hsame]
    rfl

namespace Block

/-- The statements of the blocks of a phase. -/
def gathered (phase : Phase) (blocks : List Block) : List Tree :=
  (blocks.filter fun block => block.phase = phase).flatMap statements

/-- The statements that blocks hold for a phase, from the first block on. -/
theorem gathered_cons (phase : Phase) (block : Block) (blocks : List Block) :
    gathered phase (block :: blocks) =
      (if block.phase = phase then block.statements else []) ++ gathered phase blocks := by
  unfold gathered
  by_cases hsame : block.phase = phase
  · rw [List.filter_cons_of_pos (by simpa using hsame), if_pos hsame, List.flatMap_cons]
  · rw [List.filter_cons_of_neg (by simpa using hsame), if_neg hsame, List.nil_append]

/-- Splitting gives every phase its statements. -/
private theorem gathered_of_splitAfter {test : Option Span} {current : Block}
    {statements : List Tree} {blocks : List Block} {phase : Phase} (hphase : phase ≠ .start)
    (hsplit : splitAfter test current statements = .ok blocks) :
    gathered phase blocks = (if current.phase = phase then current.statements else []) ++
      belonging phase (phased current.phase statements) := by
  fun_induction splitAfter test current statements generalizing blocks with
  | case1 current _ =>
    obtain rfl := Except.ok.inj hsplit
    rw [gathered_cons, phased, belonging_nil]
    rfl
  | case2 => cases hsplit
  | case3 current statement rest next hintroduces _ ih =>
    obtain ⟨later, hlater, hblocks⟩ := ok_of_bind hsplit
    have hrest : gathered phase later = belonging phase (phased next rest) := by
      rw [ih hlater]
      split <;> rfl
    have hphased : phased current.phase (statement :: rest) = phased next rest := by
      rw [phased, hintroduces]
    rw [hphased, ← hrest, ← Except.ok.inj hblocks]
    split
    · rename_i hstart
      rw [if_neg (by rw [hstart]; exact hphase.symm), List.nil_append]
    · rw [gathered_cons]
  | case4 => cases hsplit
  | case5 => cases hsplit
  | case6 current statement rest hintroduces _ ih =>
    have hphased : phased current.phase (statement :: rest) =
        (current.phase, statement) :: phased current.phase rest := by
      rw [phased, hintroduces]
    rw [ih hsplit, hphased, belonging_cons]
    change (if current.phase = phase then current.statements ++ [statement] else []) ++ _ = _
    split
    · rw [List.append_assoc]
      rfl
    · rfl

/-- The blocks after an open block come later than it, each later than the one before. -/
private theorem pairwise_of_splitAfter {test : Option Span} {current : Block}
    {statements : List Tree} {blocks : List Block}
    (hsplit : splitAfter test current statements = .ok blocks) :
    blocks.Pairwise (fun a b => a.phase.rank < b.phase.rank) ∧
      ∀ block ∈ blocks, current.phase.rank ≤ block.phase.rank := by
  fun_induction splitAfter test current statements generalizing blocks with
  | case1 current _ =>
    obtain rfl := Except.ok.inj hsplit
    refine ⟨List.pairwise_singleton _ _, fun block hmem => ?_⟩
    exact List.mem_singleton.mp hmem ▸ Nat.le_refl _
  | case2 => cases hsplit
  | case3 current statement rest next _ hallows ih =>
    obtain ⟨later, hlater, hblocks⟩ := ok_of_bind hsplit
    obtain ⟨hpairwise, hleast⟩ := ih hlater
    have hlater : ∀ block ∈ later, current.phase.rank < block.phase.rank := fun block hmem =>
      Nat.lt_of_lt_of_le (Phase.rank_lt_of_allows hallows) (hleast block hmem)
    rw [← Except.ok.inj hblocks]
    split
    · exact ⟨hpairwise, fun block hmem => Nat.le_of_lt (hlater block hmem)⟩
    · refine ⟨List.pairwise_cons.mpr ⟨hlater, hpairwise⟩, fun block hmem => ?_⟩
      rcases List.mem_cons.mp hmem with rfl | hmem
      · exact Nat.le_refl _
      · exact Nat.le_of_lt (hlater block hmem)
  | case4 => cases hsplit
  | case5 => cases hsplit
  | case6 current statement rest _ _ ih => exact ih hsplit

/-- The blocks of a test hold the statements of every phase. -/
theorem gathered_of_split {test : Option Span} {statements : List Tree} {blocks : List Block}
    {phase : Phase} (hphase : phase ≠ .start) (hsplit : split test statements = .ok blocks) :
    gathered phase blocks = statementsIn phase statements := by
  rw [gathered_of_splitAfter hphase hsplit, if_neg hphase.symm]
  rfl

/-- Leaving out the table takes nothing from the phases that run. -/
theorem gathered_filter_where {phase : Phase} (hphase : phase ∈ Phase.plain)
    (blocks : List Block) :
    gathered phase (blocks.filter fun block => block.phase ≠ .where) = gathered phase blocks := by
  have hother : phase ≠ .where := by
    rintro rfl
    exact absurd hphase (by decide)
  unfold gathered
  rw [List.filter_filter]
  refine congrArg (List.flatMap Block.statements) (List.filter_congr fun block _ => ?_)
  by_cases hsame : block.phase = phase
  · simp [hsame, hother]
  · simp [hsame]

/-- The statements of a block belong to its phase. -/
theorem mem_gathered {blocks : List Block} {block : Block} {statement : Tree}
    (hblock : block ∈ blocks) (hmem : statement ∈ block.statements) :
    statement ∈ gathered block.phase blocks :=
  List.mem_flatMap.mpr ⟨block, List.mem_filter.mpr ⟨hblock, by simp⟩, hmem⟩

/-- The blocks of a test come in the order of their phases, so no two of them share a phase. -/
theorem pairwise_of_split {test : Option Span} {statements : List Tree} {blocks : List Block}
    (hsplit : split test statements = .ok blocks) :
    blocks.Pairwise fun a b => a.phase.rank < b.phase.rank :=
  (pairwise_of_splitAfter hsplit).1

/-- The blocks of a test hold all of its statements but the introducers. -/
private theorem flatMap_statements_of_splitAfter {test : Option Span} {current : Block}
    {statements : List Tree} {blocks : List Block}
    (hsplit : splitAfter test current statements = .ok blocks) :
    blocks.flatMap Block.statements =
      (if current.phase = .start then [] else current.statements) ++
        statements.filter fun s => s.introduces?.isNone := by
  fun_induction splitAfter test current statements generalizing blocks with
  | case1 current hfinish =>
    have hstarted : current.phase ≠ .start := by
      intro hstart
      rw [hstart] at hfinish
      exact absurd hfinish (by decide)
    obtain rfl := Except.ok.inj hsplit
    rw [if_neg hstarted]
    rfl
  | case2 => cases hsplit
  | case3 current statement rest next hintroduces _ ih =>
    obtain ⟨later, hlater, hblocks⟩ := ok_of_bind hsplit
    have hrest : later.flatMap Block.statements =
        rest.filter fun s => s.introduces?.isNone := by
      rw [ih hlater]
      split <;> rfl
    rw [List.filter_cons_of_neg (by simp [hintroduces]), ← hrest, ← Except.ok.inj hblocks]
    split
    · rfl
    · rw [List.flatMap_cons]
  | case4 => cases hsplit
  | case5 => cases hsplit
  | case6 current statement rest hintroduces hstarted ih =>
    have hpushed : (current.push statement).phase ≠ .start := hstarted
    rw [ih hsplit, List.filter_cons_of_pos (by rw [hintroduces]; rfl), if_neg hstarted,
      if_neg hpushed]
    exact List.append_assoc _ [statement] _

/-- The blocks of a body hold all its statements but the introducers, in order. -/
theorem flatMap_statements_of_split {test : Option Span} {statements : List Tree}
    {blocks : List Block} (hsplit : split test statements = .ok blocks) :
    blocks.flatMap Block.statements = statements.filter fun s => s.introduces?.isNone :=
  flatMap_statements_of_splitAfter hsplit

/-- A phase has no block among later ones. -/
private theorem filter_eq_nil {phase : Phase} {blocks : List Block}
    (hlater : ∀ block ∈ blocks, phase.rank < block.phase.rank) :
    blocks.filter (fun block => block.phase = phase) = [] := by
  rw [List.filter_eq_nil_iff]
  intro block hmem hsame
  have hlt := hlater block hmem
  rw [of_decide_eq_true hsame] at hlt
  exact Nat.lt_irrefl _ hlt

private theorem gathered_eq_nil {phase : Phase} {blocks : List Block}
    (hlater : ∀ block ∈ blocks, phase.rank < block.phase.rank) : gathered phase blocks = [] := by
  unfold gathered
  rw [filter_eq_nil hlater, List.flatMap_nil]

/-- A block holds all statements of its phase. -/
theorem gathered_of_mem {blocks : List Block} {block : Block}
    (hpairwise : blocks.Pairwise fun a b => a.phase.rank < b.phase.rank) (hmem : block ∈ blocks) :
    gathered block.phase blocks = block.statements := by
  induction blocks with
  | nil => cases hmem
  | cons first rest ih =>
    obtain ⟨hlater, hrest⟩ := List.pairwise_cons.mp hpairwise
    rw [gathered_cons]
    rcases List.mem_cons.mp hmem with rfl | hmem
    · rw [if_pos rfl, gathered_eq_nil hlater, List.append_nil]
    · have hother : first.phase ≠ block.phase := by
        intro hsame
        have hlt := hlater block hmem
        rw [hsame] at hlt
        exact Nat.lt_irrefl _ hlt
      rw [if_neg hother, List.nil_append, ih hrest hmem]

/-- Blocks of plain phases hold the statements of these phases, phase by phase. -/
theorem flatMap_gathered_phases {blocks : List Block}
    (hpairwise : blocks.Pairwise fun a b => a.phase.rank < b.phase.rank)
    (hplain : ∀ block ∈ blocks, block.phase ∈ Phase.plain) :
    Phase.plain.flatMap (gathered · blocks) = blocks.flatMap Block.statements := by
  induction blocks with
  | nil => rfl
  | cons block rest ih =>
    obtain ⟨hlater, hrest⟩ := List.pairwise_cons.mp hpairwise
    have hothers := ih hrest fun other hmem => hplain other (List.mem_cons_of_mem _ hmem)
    obtain ⟨phase, introducer, statements⟩ := block
    have hphase : phase ∈ Phase.plain := hplain _ List.mem_cons_self
    have hnil (other : Phase) (hrank : other.rank ≤ phase.rank) : gathered other rest = [] :=
      gathered_eq_nil fun block hmem => Nat.lt_of_le_of_lt hrank (hlater block hmem)
    rw [List.flatMap_cons, ← hothers]
    unfold Phase.plain at hphase ⊢
    simp only [List.flatMap_cons, List.flatMap_nil, gathered_cons, List.append_nil]
    cases phase with
    | given => simp [hnil .given (by decide)]
    | «when» => simp [hnil .given (by decide), hnil .when (by decide)]
    | «then» =>
      simp [hnil .given (by decide), hnil .when (by decide), hnil .then (by decide)]
    | expect =>
      simp [hnil .given (by decide), hnil .when (by decide), hnil .then (by decide),
        hnil .expect (by decide)]
    | cleanup =>
      simp [hnil .given (by decide), hnil .when (by decide), hnil .then (by decide),
        hnil .expect (by decide), hnil .cleanup (by decide)]
    | start | «where» | finish => exact absurd hphase (by decide)

/-- What is made from the block of a phase is made from all of its statements. -/
theorem flatMap_gathered {α : Type} {blocks : List Block} {phase : Phase}
    (hpairwise : blocks.Pairwise fun a b => a.phase.rank < b.phase.rank)
    (f : List Tree → List α) (hnil : f [] = []) :
    ((blocks.filter fun block => block.phase = phase).flatMap fun block => f block.statements) =
      f (gathered phase blocks) := by
  induction blocks with
  | nil => exact hnil.symm
  | cons block rest ih =>
    obtain ⟨hlater, hrest⟩ := List.pairwise_cons.mp hpairwise
    by_cases hsame : block.phase = phase
    · have hnone : rest.filter (fun block => block.phase = phase) = [] :=
        filter_eq_nil fun other hmem => hsame ▸ hlater other hmem
      rw [List.filter_cons_of_pos (by simpa using hsame), hnone, gathered_cons, if_pos hsame]
      unfold gathered
      rw [hnone, List.flatMap_cons, List.flatMap_nil, List.flatMap_nil, List.append_nil,
        List.append_nil]
    · rw [List.filter_cons_of_neg (by simpa using hsame), ih hrest, gathered_cons, if_neg hsame,
        List.nil_append]

end Block

end PhasedTests
