import Mathlib.Computability.Language
import PhasedTests.Proofs.Sexp.Grammar

/-!
# The language of documents

The grammar of documents on tokens alone: `document := node*`, `node := '(' tag child* ')'` and
`child := node | scalar`. What may follow some tokens of a document depends only on how many nodes
they leave open, and each further token opens a node, closes one or stays inside it.
-/

namespace PhasedTests

namespace Document

mutual

/-- `node := '(' tag child* ')'`, where a tag is a bare word or the word for nil. -/
inductive IsNode : List Token → Prop
  | parenthesized {token : Token} {tag : String} {parts : List (List Token)} :
      Reader.NamesTag token tag → (∀ part ∈ parts, IsChild part) →
        IsNode (.openParen :: token :: (parts.flatten ++ [.closeParen]))

/-- `child := node | nil | symbol | text | integer | float`. -/
inductive IsChild : List Token → Prop
  | node {tokens : List Token} : IsNode tokens → IsChild tokens
  | scalar (value : Scalar) : IsChild [.scalar value]

end

/-- `child*`. -/
def children : Language Token :=
  KStar.kstar (show Language Token from {tokens | IsChild tokens})

/-- `document := node*`. -/
def words : Language Token :=
  KStar.kstar (show Language Token from {tokens | IsNode tokens})

/-- The tokens begin a document. -/
def Extensible (tokens : List Token) : Prop :=
  ∃ word ∈ words, tokens <+: word

/-! ## Rows of children and of nodes -/

/-- A node may have no children. -/
theorem nil_mem_children : [] ∈ children :=
  Language.nil_mem_kstar _

private theorem append_mem_kstar {parts : Language Token} {part later : List Token}
    (hpart : part ∈ parts) (hlater : later ∈ KStar.kstar parts) :
    part ++ later ∈ KStar.kstar parts := by
  obtain ⟨others, rfl, hothers⟩ := Language.mem_kstar.mp hlater
  exact Language.mem_kstar.mpr ⟨part :: others, rfl, List.forall_mem_cons.mpr ⟨hpart, hothers⟩⟩

/-- A row is empty or has a first part. -/
private theorem kstar_cases {parts : Language Token} {tokens : List Token}
    (htokens : tokens ∈ KStar.kstar parts) :
    tokens = [] ∨ ∃ part later, tokens = part ++ later ∧ part ∈ parts ∧
      later ∈ KStar.kstar parts := by
  obtain ⟨row, rfl, hrow⟩ := Language.mem_kstar.mp htokens
  cases row with
  | nil => exact Or.inl rfl
  | cons part others =>
    obtain ⟨hpart, hothers⟩ := List.forall_mem_cons.mp hrow
    exact Or.inr ⟨part, _, rfl, hpart, Language.mem_kstar.mpr ⟨others, rfl, hothers⟩⟩

/-- A child may stand before other children. -/
theorem append_mem_children {part later : List Token} (hpart : IsChild part)
    (hlater : later ∈ children) : part ++ later ∈ children :=
  append_mem_kstar hpart hlater

/-- A node may stand before other nodes. -/
theorem append_mem_words {part later : List Token} (hpart : IsNode part)
    (hlater : later ∈ words) : part ++ later ∈ words :=
  append_mem_kstar hpart hlater

/-- A node is a row of children behind a parenthesis and a tag, and a closing parenthesis. -/
theorem isNode_iff {tokens : List Token} : IsNode tokens ↔ ∃ token tag inner,
    tokens = .openParen :: token :: (inner ++ [.closeParen]) ∧ Reader.NamesTag token tag ∧
      inner ∈ children := by
  constructor
  · rintro (⟨htag, hparts⟩)
    exact ⟨_, _, _, rfl, htag, Language.mem_kstar.mpr ⟨_, rfl, hparts⟩⟩
  · rintro ⟨token, tag, inner, rfl, htag, hinner⟩
    obtain ⟨parts, rfl, hparts⟩ := Language.mem_kstar.mp hinner
    exact .parenthesized htag hparts

/-- A row of children is empty, or begins with a scalar or with a node. -/
theorem children_cases {tokens : List Token} (htokens : tokens ∈ children) :
    tokens = [] ∨ (∃ value later, tokens = .scalar value :: later ∧ later ∈ children) ∨
      ∃ token tag inner later, tokens = .openParen :: token :: (inner ++ .closeParen :: later) ∧
        Reader.NamesTag token tag ∧ inner ∈ children ∧ later ∈ children := by
  rcases kstar_cases htokens with rfl | ⟨part, later, rfl, hpart, hlater⟩
  · exact Or.inl rfl
  · cases (show IsChild part from hpart) with
    | node hnode =>
      obtain ⟨token, tag, inner, rfl, htag, hinner⟩ := isNode_iff.mp hnode
      exact Or.inr (Or.inr ⟨token, tag, inner, later, by simp, htag, hinner, hlater⟩)
    | scalar value => exact Or.inr (Or.inl ⟨value, later, rfl, hlater⟩)

/-- A document is empty or begins with a node. -/
theorem words_cases {tokens : List Token} (htokens : tokens ∈ words) :
    tokens = [] ∨
      ∃ token tag inner later, tokens = .openParen :: token :: (inner ++ .closeParen :: later) ∧
        Reader.NamesTag token tag ∧ inner ∈ children ∧ later ∈ words := by
  rcases kstar_cases htokens with rfl | ⟨part, later, rfl, hpart, hlater⟩
  · exact Or.inl rfl
  · obtain ⟨token, tag, inner, rfl, htag, hinner⟩ := isNode_iff.mp hpart
    exact Or.inr ⟨token, tag, inner, later, by simp, htag, hinner, hlater⟩

/-! ## What may follow -/

/-- The tokens complete a document of which `count` nodes are open. -/
def Completes : Nat → List Token → Prop
  | 0, tokens => tokens ∈ words
  | count + 1, tokens => ∃ inner later,
      tokens = inner ++ .closeParen :: later ∧ inner ∈ children ∧ Completes count later

/-- Tokens are extensible exactly if some tokens complete them. -/
theorem extensible_iff {tokens : List Token} :
    Extensible tokens ↔ ∃ later, Completes 0 (tokens ++ later) := by
  constructor
  · rintro ⟨word, hword, later, rfl⟩
    exact ⟨later, hword⟩
  · rintro ⟨later, hword⟩
    exact ⟨_, hword, List.prefix_append _ _⟩

/-- Open nodes can always be closed. -/
theorem exists_completes (count : Nat) : ∃ later, Completes count later := by
  induction count with
  | zero => exact ⟨[], Language.nil_mem_kstar _⟩
  | succ count ih =>
    obtain ⟨later, hlater⟩ := ih
    exact ⟨.closeParen :: later, [], later, rfl, nil_mem_children, hlater⟩

/-- A closing parenthesis closes one of the open nodes. -/
theorem completes_closeParen {count : Nat} {later : List Token} :
    Completes (count + 1) (.closeParen :: later) ↔ Completes count later := by
  constructor
  · rintro ⟨inner, rest, htokens, hinner, hrest⟩
    rcases children_cases hinner with rfl | ⟨_, _, rfl, -⟩ | ⟨_, _, _, _, rfl, -⟩
    · obtain ⟨-, rfl⟩ := List.cons.inj htokens
      exact hrest
    · cases (List.cons.inj htokens).1
    · cases (List.cons.inj htokens).1
  · exact fun hlater => ⟨[], later, rfl, nil_mem_children, hlater⟩

/-- A scalar stays inside the innermost open node. -/
theorem completes_scalar {count : Nat} {value : Scalar} {later : List Token} :
    Completes (count + 1) (.scalar value :: later) ↔ Completes (count + 1) later := by
  constructor
  · rintro ⟨inner, rest, htokens, hinner, hrest⟩
    rcases children_cases hinner with rfl | ⟨_, _, rfl, hothers⟩ | ⟨_, _, _, _, rfl, -⟩
    · cases (List.cons.inj htokens).1
    · obtain ⟨-, rfl⟩ := List.cons.inj htokens
      exact ⟨_, rest, rfl, hothers, hrest⟩
    · cases (List.cons.inj htokens).1
  · rintro ⟨inner, rest, rfl, hinner, hrest⟩
    exact ⟨_, rest, rfl, append_mem_children (.scalar value) hinner, hrest⟩

/-- A parenthesis and a tag open one more node. -/
theorem completes_openParen {count : Nat} {token : Token} {later : List Token} :
    Completes count (.openParen :: token :: later) ↔
      (∃ tag, Reader.NamesTag token tag) ∧ Completes (count + 1) later := by
  constructor
  · intro hcompletes
    cases count with
    | zero =>
      rcases words_cases hcompletes with hnil | ⟨_, tag, inner, rest, htokens, htag, hinner, hrest⟩
      · cases hnil
      · obtain ⟨-, htokens⟩ := List.cons.inj htokens
        obtain ⟨rfl, rfl⟩ := List.cons.inj htokens
        exact ⟨⟨tag, htag⟩, inner, rest, rfl, hinner, hrest⟩
    | succ count =>
      obtain ⟨outer, rest, htokens, houter, hrest⟩ := hcompletes
      rcases children_cases houter with rfl | ⟨_, _, rfl, -⟩ |
        ⟨_, tag, inner, others, rfl, htag, hinner, hothers⟩
      · cases (List.cons.inj htokens).1
      · cases (List.cons.inj htokens).1
      · obtain ⟨-, htokens⟩ := List.cons.inj htokens
        obtain ⟨rfl, rfl⟩ := List.cons.inj htokens
        exact ⟨⟨tag, htag⟩, inner, others ++ .closeParen :: rest, by simp, hinner,
          others, rest, rfl, hothers, hrest⟩
  · rintro ⟨⟨tag, htag⟩, inner, rest, rfl, hinner, hrest⟩
    have hnode : IsNode (.openParen :: token :: (inner ++ [.closeParen])) :=
      isNode_iff.mpr ⟨token, tag, inner, rfl, htag, hinner⟩
    cases count with
    | zero =>
      have hwhole := append_mem_words hnode hrest
      change _ ∈ words
      simpa using hwhole
    | succ count =>
      obtain ⟨others, rest, rfl, hothers, hrest⟩ := hrest
      have hwhole := append_mem_children (.node hnode) hothers
      exact ⟨_, rest, by simp, hwhole, hrest⟩

/-- Behind a parenthesis only a tag can stand. -/
theorem not_completes_untagged {count : Nat} {token : Token}
    (htag : ∀ tag, ¬Reader.NamesTag token tag) (later : List Token) :
    ¬Completes count (.openParen :: token :: later) := by
  intro hcompletes
  obtain ⟨⟨tag, hnames⟩, -⟩ := completes_openParen.mp hcompletes
  exact htag tag hnames

/-- A bare word is no child and no document. -/
theorem not_completes_ident (count : Nat) (name : String) (later : List Token) :
    ¬Completes count (.ident name :: later) := by
  intro hcompletes
  cases count with
  | zero =>
    rcases words_cases hcompletes with hnil | ⟨_, _, _, _, htokens, -⟩
    · cases hnil
    · cases (List.cons.inj htokens).1
  | succ count =>
    obtain ⟨inner, rest, htokens, hinner, -⟩ := hcompletes
    rcases children_cases hinner with rfl | ⟨_, _, rfl, -⟩ | ⟨_, _, _, _, rfl, -⟩
    all_goals cases (List.cons.inj htokens).1

/-- Outside all nodes only a parenthesis can stand. -/
theorem not_completes_outside {token : Token} (htoken : token ≠ .openParen) (later : List Token) :
    ¬Completes 0 (token :: later) := by
  intro hcompletes
  rcases words_cases hcompletes with hnil | ⟨_, _, _, _, htokens, -⟩
  · cases hnil
  · exact htoken (List.cons.inj htokens).1

end Document

end PhasedTests
