import Mathlib.Computability.RegularExpressions
import PhasedTests.Proofs.Test.Parse

/-!
# The grammar of phases

The table of phases describes the regular language `Given? (When Then | Expect) Cleanup? Where?`.
What may follow a phase is what is left of the words of this language once they are read up to that
phase. A test body is therefore split into blocks exactly when its introducers spell a word;
otherwise splitting stops at the first statement with which they cannot be the start of one.
-/

namespace PhasedTests

namespace Phase

open RegularExpression (char)

/-- A part of a word that may be left out. -/
def optional (part : RegularExpression Phase) : RegularExpression Phase :=
  1 + part

/-- The phases that verify something, with the action before them if there is one. -/
def verification : RegularExpression Phase :=
  char .when * char .then + char expect

/-- The phases that may follow the verification. -/
def ending : RegularExpression Phase :=
  optional (char cleanup) * optional (char .where)

/-- The phases of a test, in order. -/
def grammar : RegularExpression Phase :=
  optional (char given) * (verification * ending)

/-- The words of the grammar. -/
def words : Language Phase :=
  grammar.matches'

instance : DecidablePred (· ∈ words) := fun word =>
  inferInstanceAs (Decidable (word ∈ grammar.matches'))

/-- What may stand behind a phase in a word of the grammar, up to the end of the word. -/
def remaining : Phase → RegularExpression Phase
  | start => grammar
  | given => verification * ending
  | .when => char .then * ending
  | .then | expect => ending
  | cleanup => optional (char .where)
  | .where => 1
  | finish => 0

/-- A word goes on with one of the phases that may follow, and then with what may stand behind
it. -/
theorem cons_mem_remaining (phase next : Phase) (word : List Phase) :
    next :: word ∈ (remaining phase).matches' ↔
      next ∈ phase.successors ∧ word ∈ (remaining next).matches' := by
  rw [← RegularExpression.rmatch_iff_matches', RegularExpression.rmatch,
    RegularExpression.rmatch_iff_matches']
  cases phase <;> cases next <;>
    simp [remaining, grammar, verification, ending, optional, successors, introduced, canStart,
      RegularExpression.deriv, RegularExpression.matchEpsilon]

/-- A word ends with one of the phases that may end a test. -/
theorem nil_mem_remaining (phase : Phase) :
    [] ∈ (remaining phase).matches' ↔ phase.canEnd = true := by
  cases phase <;> decide

example : [given, .when, .then, cleanup] ∈ words ∧ [given, .then, cleanup] ∉ words := by decide

/-- A phase that is introduced may follow if it is one of the successors. -/
theorem allows_iff {phase next : Phase} (hintroduced : next ∈ introduced) :
    phase.allows next = true ↔ next ∈ phase.successors := by
  have hother : next ≠ .finish := by
    rintro rfl
    exact absurd hintroduced (by decide)
  rw [allows, if_neg hother, List.contains_iff_mem]

/-- Every phase but the end of a test stands in a word. -/
theorem exists_mem_remaining {phase : Phase} (hphase : phase ≠ .finish) :
    ∃ word, word ∈ (remaining phase).matches' := by
  cases phase with
  | start => exact ⟨[expect], by decide⟩
  | given => exact ⟨[expect], by decide⟩
  | «when» => exact ⟨[.then], by decide⟩
  | «then» => exact ⟨[], by decide⟩
  | expect => exact ⟨[], by decide⟩
  | cleanup => exact ⟨[], by decide⟩
  | «where» => exact ⟨[], by decide⟩
  | finish => exact absurd rfl hphase

end Phase

/-- The phases that statements introduce, in order. -/
def phasesOf (statements : List Tree) : List Phase :=
  statements.filterMap Tree.introduces?

/-- The last of the statements that introduces a phase. -/
def lastIntroducer? (statements : List Tree) : Option Tree :=
  (statements.filter fun s => s.introduces?.isSome).getLast?

/-- The first of the statements introduces a phase, if there is one. -/
def OpensPhase (statements : List Tree) : Prop :=
  ∀ s ∈ statements.head?, s.introduces?.isSome = true

namespace Block

/-- The statements of a test body that a block stands for. -/
def source (block : Block) : List Tree :=
  block.introducer.toList ++ block.statements

/-- A block opens with the introducer of its phase, and no other statement in it introduces one. -/
structure Proper (block : Block) : Prop where
  introducer : ∃ s, block.introducer = some s ∧ s.introduces? = some block.phase
  quiet : Quiet block.statements

/-- Why a test body cannot be split any further behind these phases. -/
inductive Stuck (opened : List Phase) : List Tree → Prop where
  /-- No word goes on with the phase that the next statement introduces. -/
  | misplaced {statement : Tree} {rest : List Tree} {phase : Phase}
      (hphase : statement.introduces? = some phase)
      (hnone : ∀ word ∈ Phase.words, ¬ opened ++ [phase] <+: word) :
      Stuck opened (statement :: rest)
  /-- The next statement introduces no phase, and none is open. -/
  | unopened {statement : Tree} {rest : List Tree} (hquiet : statement.introduces? = none)
      (hopened : opened = []) : Stuck opened (statement :: rest)
  /-- The body ends where no word does. -/
  | unfinished (hword : opened ∉ Phase.words) : Stuck opened []

/-- The body `before ++ after` is rejected with `e` because splitting it is stuck behind `before`.
The phases that `before` opens begin a word, and the error is about the last one. -/
structure Rejected (test : Option Span) (before after : List Tree) (e : PhaseOrderError) :
    Prop where
  opens : OpensPhase before
  reached : ∃ word ∈ Phase.words, phasesOf before <+: word
  stuck : Stuck (phasesOf before) after
  phase : e.phase = (phasesOf before).getLast?.getD .start
  expected : e.expected = e.phase.successors
  location : e.location = ((lastIntroducer? before).bind Tree.location).or test

/-- The open block as it follows from the statements read so far. The words that begin with their
phases are those that go on with what may stand behind the phase of the block. -/
structure Open (seen : List Tree) (current : Block) : Prop where
  opens : OpensPhase seen
  phase : current.phase = (phasesOf seen).getLast?.getD .start
  introducer : current.introducer = lastIntroducer? seen
  words : ∀ word, phasesOf seen ++ word ∈ Phase.words ↔
    word ∈ (Phase.remaining current.phase).matches'

namespace Open

variable {seen : List Tree} {current : Block} {statement : Tree}

/-- Before any statement the body is open and no block has been introduced. -/
theorem start : Open [] ⟨.start, none, []⟩ where
  opens := fun _ hs => nomatch hs
  phase := rfl
  introducer := rfl
  words := fun _ => Iff.rfl

/-- The open phase is the last one introduced. -/
theorem phase_cases (hopen : Open seen current) :
    (phasesOf seen = [] ∧ current.phase = .start) ∨ current.phase ∈ Phase.introduced := by
  rw [hopen.phase]
  cases hlast : (phasesOf seen).getLast? with
  | none => exact Or.inl ⟨List.getLast?_eq_none_iff.mp hlast, rfl⟩
  | some phase =>
    obtain ⟨s, -, hs⟩ := List.mem_filterMap.mp (List.mem_of_getLast? hlast)
    exact Or.inr (Tree.mem_introduced hs)

/-- Before the first introducer nothing has been read. -/
theorem eq_nil (hopen : Open seen current) (hstart : current.phase = .start) : seen = [] := by
  rcases hopen.phase_cases with ⟨hphases, -⟩ | hintroduced
  · cases seen with
    | nil => rfl
    | cons s rest =>
      obtain ⟨phase, hs⟩ := Option.isSome_iff_exists.mp (hopen.opens s rfl)
      rw [phasesOf, List.filterMap_cons_some hs] at hphases
      cases hphases
  · rw [hstart] at hintroduced
    exact absurd hintroduced (by decide)

/-- The end of a test is no open phase. -/
theorem phase_ne_finish (hopen : Open seen current) : current.phase ≠ .finish := by
  rcases hopen.phase_cases with ⟨-, hphase⟩ | hintroduced
  · rw [hphase]
    decide
  · rintro hfinish
    rw [hfinish] at hintroduced
    exact absurd hintroduced (by decide)

/-- The phases read so far begin a word. -/
theorem exists_word (hopen : Open seen current) :
    ∃ word ∈ Phase.words, phasesOf seen <+: word := by
  obtain ⟨word, hword⟩ := Phase.exists_mem_remaining hopen.phase_ne_finish
  exact ⟨_, (hopen.words word).mpr hword, List.prefix_append _ _⟩

/-- They are a word where the open phase may end the test. -/
theorem mem_words (hopen : Open seen current) :
    phasesOf seen ∈ Phase.words ↔ current.phase.canEnd = true := by
  rw [← Phase.nil_mem_remaining, ← hopen.words, List.append_nil]

/-- An introducer that may follow opens the block of its phase. -/
theorem introduce (hopen : Open seen current) {next : Phase}
    (hnext : statement.introduces? = some next) (hallows : current.phase.allows next = true) :
    Open (seen ++ [statement]) ⟨next, some statement, []⟩ := by
  have hphases : phasesOf (seen ++ [statement]) = phasesOf seen ++ [next] := by
    rw [phasesOf, List.filterMap_append, List.filterMap_cons_some hnext]
    rfl
  have hfollows := (Phase.allows_iff (Tree.mem_introduced hnext)).mp hallows
  constructor
  · intro s hs
    cases seen with
    | nil =>
      obtain rfl := Option.some.inj hs
      rw [hnext]
      rfl
    | cons first rest => exact hopen.opens s hs
  · rw [hphases, List.getLast?_concat]
    rfl
  · rw [lastIntroducer?, List.filter_append,
      List.filter_cons_of_pos (by rw [hnext]; rfl), List.filter_nil, List.getLast?_concat]
  · intro word
    rw [hphases, List.append_assoc, List.singleton_append, hopen.words, Phase.cons_mem_remaining]
    exact and_iff_right hfollows

/-- Any other statement joins the open block. -/
theorem push (hopen : Open seen current) (hquiet : statement.introduces? = none)
    (hstarted : current.phase ≠ .start) : Open (seen ++ [statement]) (current.push statement) := by
  have hphases : phasesOf (seen ++ [statement]) = phasesOf seen := by
    rw [phasesOf, List.filterMap_append, List.filterMap_cons_none hquiet]
    exact List.append_nil _
  constructor
  · intro s hs
    cases seen with
    | nil => exact absurd hopen.phase hstarted
    | cons first rest => exact hopen.opens s hs
  · rw [hphases]
    exact hopen.phase
  · rw [lastIntroducer?, List.filter_append, List.filter_cons_of_neg (by simp [hquiet]),
      List.filter_nil, List.append_nil]
    exact hopen.introducer
  · intro word
    rw [hphases]
    exact hopen.words word

/-- Where splitting is stuck, the body is rejected with an error about the open block. -/
theorem rejected (hopen : Open seen current) {test : Option Span} {after : List Tree}
    (hstuck : Stuck (phasesOf seen) after) :
    Rejected test seen after (current.orderError test) where
  opens := hopen.opens
  reached := hopen.exists_word
  stuck := hstuck
  phase := hopen.phase
  expected := rfl
  location := by
    rw [← hopen.introducer]
    rfl

end Open

/-- A body that is split opens with a phase, and its phases are a word. -/
private theorem mem_words_of_splitAfter {test : Option Span} {seen rest : List Tree}
    {current : Block} {blocks : List Block} (hopen : Open seen current)
    (hsplit : splitAfter test current rest = .ok blocks) :
    OpensPhase (seen ++ rest) ∧ phasesOf (seen ++ rest) ∈ Phase.words := by
  fun_induction splitAfter test current rest generalizing seen blocks with
  | case1 current hfinish =>
    rw [List.append_nil]
    exact ⟨hopen.opens, hopen.mem_words.mpr hfinish⟩
  | case2 => cases hsplit
  | case3 current statement rest next hintroduces hallows ih =>
    obtain ⟨later, hlater, -⟩ := ok_of_bind hsplit
    rw [List.append_cons]
    exact ih (hopen.introduce hintroduces hallows) hlater
  | case4 => cases hsplit
  | case5 => cases hsplit
  | case6 current statement rest hquiet hstarted ih =>
    rw [List.append_cons]
    exact ih (hopen.push hquiet hstarted) hsplit

/-- A body that is not split is rejected. -/
private theorem rejected_of_splitAfter {test : Option Span} {seen rest : List Tree}
    {current : Block} {e : PhaseOrderError} (hopen : Open seen current)
    (hsplit : splitAfter test current rest = .error e) :
    ∃ before after, seen ++ rest = before ++ after ∧ Rejected test before after e := by
  -- At every step `Open` tells which words can still be reached behind what was read.
  fun_induction splitAfter test current rest generalizing seen with
  | case1 => cases hsplit
  | case2 current hfinish =>
    rw [← Except.error.inj hsplit]
    refine ⟨seen, [], rfl, hopen.rejected (.unfinished fun hword => hfinish ?_)⟩
    exact hopen.mem_words.mp hword
  | case3 current statement rest next hintroduces hallows ih =>
    rw [List.append_cons]
    rcases error_of_bind hsplit with hlater | ⟨later, -, hdone⟩
    · exact ih (hopen.introduce hintroduces hallows) hlater
    · cases hdone
  | case4 current statement rest next hintroduces hallows =>
    rw [← Except.error.inj hsplit]
    refine ⟨seen, statement :: rest, rfl, hopen.rejected (.misplaced hintroduces ?_)⟩
    rintro word hword ⟨others, rfl⟩
    rw [List.append_assoc, List.singleton_append, hopen.words, Phase.cons_mem_remaining] at hword
    exact hallows ((Phase.allows_iff (Tree.mem_introduced hintroduces)).mpr hword.1)
  | case5 current statement rest hquiet hstart =>
    rw [← Except.error.inj hsplit]
    refine ⟨seen, statement :: rest, rfl, hopen.rejected (.unopened hquiet ?_)⟩
    rw [hopen.eq_nil hstart]
    rfl
  | case6 current statement rest hquiet hstarted ih =>
    rw [List.append_cons]
    exact ih (hopen.push hquiet hstarted) hsplit

/-- What is rejected does not open with a phase, or its phases are no word. -/
theorem Rejected.not_mem_words {test : Option Span} {before after : List Tree}
    {e : PhaseOrderError} (hrejected : Rejected test before after e)
    (hopens : OpensPhase (before ++ after)) : phasesOf (before ++ after) ∉ Phase.words := by
  intro hword
  rw [phasesOf, List.filterMap_append] at hword
  cases hrejected.stuck with
  | misplaced hphase hnone =>
    rw [List.filterMap_cons_some hphase, List.append_cons] at hword
    exact hnone _ hword (List.prefix_append _ _)
  | unopened hquiet hopened =>
    rename_i statement rest
    cases before with
    | nil =>
      have hfirst := hopens statement rfl
      rw [hquiet] at hfirst
      cases hfirst
    | cons first others =>
      obtain ⟨phase, hfirst⟩ := Option.isSome_iff_exists.mp (hrejected.opens first rfl)
      rw [phasesOf, List.filterMap_cons_some hfirst] at hopened
      cases hopened
  | unfinished hother => exact hother (by simpa [phasesOf] using hword)

/-- The blocks of a body hold its statements, each in one block and in their order. -/
private theorem source_of_splitAfter {test : Option Span} {current : Block}
    {statements : List Tree} {blocks : List Block}
    (hcurrent : current.phase ≠ .start → current.Proper)
    (hsplit : splitAfter test current statements = .ok blocks) :
    blocks.flatMap source = (if current.phase = .start then [] else current.source) ++ statements ∧
      ∀ block ∈ blocks, block.Proper := by
  fun_induction splitAfter test current statements generalizing blocks with
  | case1 current hfinish =>
    have hstarted : current.phase ≠ .start := by
      intro hstart
      rw [hstart] at hfinish
      exact absurd hfinish (by decide)
    obtain rfl := Except.ok.inj hsplit
    rw [if_neg hstarted]
    exact ⟨rfl, List.forall_mem_singleton.mpr (hcurrent hstarted)⟩
  | case2 => cases hsplit
  | case3 current statement rest next hintroduces _ ih =>
    obtain ⟨later, hlater, hblocks⟩ := ok_of_bind hsplit
    have hnext : next ≠ .start := by
      intro hstart
      have hintroduced := Tree.mem_introduced hintroduces
      rw [hstart] at hintroduced
      exact absurd hintroduced (by decide)
    obtain ⟨hsource, hproper⟩ := ih (fun _ => ⟨⟨statement, rfl, hintroduces⟩, quiet_nil⟩) hlater
    rw [if_neg hnext] at hsource
    rw [← Except.ok.inj hblocks]
    split
    · exact ⟨hsource, hproper⟩
    · rename_i hstarted
      rw [List.flatMap_cons, hsource]
      exact ⟨rfl, List.forall_mem_cons.mpr ⟨hcurrent hstarted, hproper⟩⟩
  | case4 => cases hsplit
  | case5 => cases hsplit
  | case6 current statement rest hquiet hstarted ih =>
    have hpushed : (current.push statement).Proper :=
      ⟨(hcurrent hstarted).introducer,
        quiet_append (hcurrent hstarted).quiet (quiet_singleton hquiet)⟩
    have hsource : (current.push statement).source = current.source ++ [statement] :=
      (List.append_assoc _ _ _).symm
    obtain ⟨hwhole, hproper⟩ := ih (fun _ => hpushed) hsplit
    rw [if_neg hstarted, List.append_cons, ← hsource, hwhole]
    exact ⟨congrArg (· ++ rest) (if_neg hstarted), hproper⟩

/-- A body is rejected at one of its introducers, or else at the test. -/
theorem location_of_split {test : Option Span} {statements : List Tree} {e : PhaseOrderError}
    (hsplit : split test statements = .error e) :
    e.location = test ∨ ∃ s ∈ statements, e.location = s.location.or test := by
  obtain ⟨before, after, hbody, hrejected⟩ := rejected_of_splitAfter Open.start hsplit
  obtain rfl : statements = before ++ after := hbody
  rw [hrejected.location]
  cases hlast : lastIntroducer? before with
  | none => exact .inl rfl
  | some s =>
    have hs : s ∈ before := (List.mem_filter.mp (List.mem_of_getLast? hlast)).1
    exact .inr ⟨s, List.mem_append_left after hs, rfl⟩

/-- The introducer of a block and its statements are statements of the body. -/
theorem mem_of_mem_source {test : Option Span} {statements : List Tree} {blocks : List Block}
    (hsplit : split test statements = .ok blocks) {block : Block} (hblock : block ∈ blocks) :
    (∃ s ∈ statements, block.location = s.location) ∧ ∀ s ∈ block.statements, s ∈ statements := by
  obtain ⟨hsource, hproper⟩ := source_of_splitAfter (fun hstarted => absurd rfl hstarted) hsplit
  obtain rfl : blocks.flatMap source = statements := hsource
  obtain ⟨s, hs, -⟩ := (hproper block hblock).introducer
  have hmem (other : Tree) (hother : other ∈ block.source) : other ∈ blocks.flatMap source :=
    List.mem_flatMap.mpr ⟨block, hblock, hother⟩
  refine ⟨⟨s, hmem s ?_, ?_⟩, fun other hother => hmem other (List.mem_append_right _ hother)⟩
  · rw [source, hs]
    exact List.mem_cons_self
  · rw [location, hs]
    rfl

/-- A test body is split into blocks exactly when it opens with a phase and its phases are a word of
the grammar. The blocks are the body again, cut before every introducer. A body that is not split is
rejected at the first place behind which no word can be reached. -/
theorem split_grammar (test : Option Span) (statements : List Tree) :
    ((∃ blocks, split test statements = .ok blocks) ↔
      (∃ s ∈ statements.head?, s.introduces?.isSome = true) ∧ phasesOf statements ∈ Phase.words) ∧
    (∀ blocks, split test statements = .ok blocks →
      blocks.flatMap source = statements ∧ ∀ block ∈ blocks, block.Proper) ∧
    ∀ e, split test statements = .error e →
      ∃ before after, statements = before ++ after ∧ Rejected test before after e := by
  refine ⟨⟨?_, ?_⟩, ?_, fun e hsplit => rejected_of_splitAfter Open.start hsplit⟩
  · rintro ⟨blocks, hsplit⟩
    obtain ⟨hopens, hword⟩ := mem_words_of_splitAfter Open.start hsplit
    refine ⟨?_, hword⟩
    cases statements with
    | nil => exact absurd hword (by decide : [] ∉ Phase.words)
    | cons s rest => exact ⟨s, rfl, hopens s rfl⟩
  · rintro ⟨⟨s, hs, hintroduces⟩, hword⟩
    cases hsplit : split test statements with
    | ok blocks => exact ⟨blocks, rfl⟩
    | error e =>
      obtain ⟨before, after, hbody, hrejected⟩ := rejected_of_splitAfter Open.start hsplit
      rw [List.nil_append] at hbody
      subst hbody
      refine absurd hword (hrejected.not_mem_words fun other hother => ?_)
      rw [← Option.some.inj (hs.symm.trans hother)]
      exact hintroduces
  · intro blocks hsplit
    exact source_of_splitAfter (fun hstarted => absurd rfl hstarted) hsplit

/-- A body with an action and a verification is split, and one with an action and a cleanup is not:
its error is about the action. -/
theorem split_grammar_action :
    let word (name : String) := Tree.Build.call none name []
    let verified := [word "When", word "act", word "Then", word "check"]
    let unverified := [word "When", word "act", word "Cleanup"]
    (∃ blocks, split none verified = .ok blocks ∧ blocks.flatMap source = verified ∧
      ∀ block ∈ blocks, block.Proper) ∧
    ∃ e before after, split none unverified = .error e ∧ unverified = before ++ after ∧
      Rejected none before after e := by
  intro word verified unverified
  obtain ⟨haccepted, hblocks, -⟩ := split_grammar none verified
  obtain ⟨-, -, herror⟩ := split_grammar none unverified
  have hword : phasesOf verified ∈ Phase.words := by decide
  have hopens : ∃ s ∈ verified.head?, s.introduces?.isSome = true := ⟨_, rfl, by decide⟩
  have hfailed : ∃ e, split none unverified = .error e := ⟨_, rfl⟩
  obtain ⟨blocks, hsplit⟩ := haccepted.mpr ⟨hopens, hword⟩
  obtain ⟨e, hfailed⟩ := hfailed
  obtain ⟨before, after, hbody, hrejected⟩ := herror e hfailed
  exact ⟨⟨blocks, hsplit, hblocks blocks hsplit⟩, e, before, after, hfailed, hbody, hrejected⟩

end Block

end PhasedTests
