import PhasedTests.Expansion.Phases

/-!
# Annotations

`transform!` before a class or a constant assignment names the transformations to run on it, each
as a constant or as a constant's `new`. They run in the order given, then the result is searched
for further annotations, and the outcome is remembered as finished. Annotations never stay in the
tree.
-/

namespace PhasedTests

namespace Tree

/-- Whether the tree is a `transform!` call with arguments and without receiver. -/
def annotates (t : Tree) : Bool :=
  match t.call? with
  | some ⟨none, "transform!", _ :: _⟩ => true
  | _ => false

/-- The qualified name of a constant. -/
def constantPath? : Tree → Option String
  | .node "const" (scope :: .leaf (.symbol name) :: _) _ =>
    if scope.isNode then scope.constantPath?.map (· ++ "::" ++ name) else some name
  | _ => none

end Tree

namespace Annotations

/-- The transformations that annotations can name: phase expansions, by name. -/
abbrev Registry := List (String × Mode)

/-- The registry with the strict phase expansion under its two names. -/
def standard : Registry :=
  [("PhaseSpec", .strict), ("PhaseSpec::Transformation", .strict)]

/-- The registry with one more name; an earlier entry of that name is replaced. Names are kept in
alphabetical order. -/
def register (registry : Registry) (name : String) (mode : Mode) : Registry :=
  registry.filter (fun entry => entry.1 < name) ++ (name, mode) ::
    registry.filter (fun entry => name < entry.1)

/-- The transformation name that an argument of an annotation stands for. -/
def transformationName? (t : Tree) : Option String :=
  match t.call? with
  | some ⟨some receiver, "new", _⟩ => receiver.constantPath?
  | some _ => none
  | none => t.constantPath?

/-- The transformations that an annotation names. -/
def named (registry : Registry) (note : Tree) : Except TransformError (List Mode) :=
  let names := match note.call? with
    | some call => call.argNodes.filterMap transformationName?
    | none => []
  names.mapM fun name =>
    match registry.lookup name with
    | some mode => .ok mode
    | none => .error (.unknownTransformation name note.location)

/-- Runs the transformations of an annotation on its target. -/
def apply (registry : Registry) (context : Context) (note target : Tree) :
    Except TransformError Tree := do
  let modes ← named registry note
  modes.foldlM (fun t mode => Phases.expand mode context t) target

/-- The target of an annotation stays what it is, and annotatable nodes are not nested deeper inside
it. -/
theorem apply_target {registry : Registry} {context : Context} {note : Tree} {tag : String}
    {children : List Tree} {location : Option Span} {current : Tree}
    (htarget : targetTags.contains tag = true)
    (hdone : apply registry context note (.node tag children location) = .ok current) :
    Tree.targetDepthAll current.children ≤ Tree.targetDepthAll children := by
  unfold apply at hdone
  cases hmodes : named registry note with
  | error e => simp [hmodes, bind, Except.bind] at hdone
  | ok list =>
    simp only [hmodes, bind, Except.bind] at hdone
    clear hmodes
    induction list generalizing children with
    | nil =>
      obtain rfl : _ = current := by simpa [pure, Except.pure] using hdone
      exact Nat.le_refl _
    | cons mode rest ih =>
      rw [List.foldlM_cons] at hdone
      cases hfirst : Phases.expand mode context (.node tag children location) with
      | error e => simp [hfirst, bind, Except.bind] at hdone
      | ok t' =>
        obtain ⟨children', rfl, hle⟩ := Phases.expand_target htarget hfirst
        simp only [hfirst, bind, Except.bind] at hdone
        exact Nat.le_trans (ih hdone) hle

/-- The annotation that a node with this tag is the target of. -/
def noteFor (pending : Option Tree) (tag : String) : Option Tree :=
  if targetTags.contains tag then pending else none

/-- Only annotatable nodes are targets. -/
theorem isTarget_of_noteFor {pending : Option Tree} {tag : String} {note : Tree}
    (hfound : noteFor pending tag = some note) : targetTags.contains tag = true := by
  unfold noteFor at hfound
  split at hfound
  · assumption
  · cases hfound

/-- A smaller second part makes a pair smaller when the first part is no larger. -/
private theorem lex_of_le {a b c d : Nat} (hfirst : a ≤ c) (hsecond : b < d) :
    Prod.Lex (· < ·) (· < ·) (a, b) (c, d) := by
  rcases Nat.lt_or_eq_of_le hfirst with hless | rfl
  · exact Prod.Lex.left _ _ hless
  · exact Prod.Lex.right _ hsecond

private theorem sizeOf_lt_cons {t : Tree} {rest : List Tree} :
    sizeOf rest < sizeOf (t :: rest) := by
  rw [List.cons.sizeOf_spec]
  omega

private theorem sizeOf_children_lt {tag : String} {children rest : List Tree}
    {location : Option Span} :
    sizeOf children < sizeOf (Tree.node tag children location :: rest) := by
  rw [List.cons.sizeOf_spec, Tree.node.sizeOf_spec]
  omega

/-- The expansion of a list of siblings. `pending` is the annotation right before them, if any. -/
def expandAll (registry : Registry) (context : Context) (pending : Option Tree) :
    List Tree → Except TransformError (List Tree × Context)
  | [] => .ok ([], context)
  | .leaf value :: rest => do
    let (others, context) ← expandAll registry context none rest
    return (.leaf value :: others, context)
  | .node tag children location :: rest =>
    let t := Tree.node tag children location
    if t.annotates then expandAll registry context (some t) rest
    else
      match _hnote : noteFor pending tag with
      | none => do
        let (inner, context) ← expandAll registry context none children
        let (others, context) ← expandAll registry context none rest
        return (.node tag inner location :: others, context)
      | some note =>
        match _happlied : apply registry context note t with
        | .error e => .error e
        | .ok current => do
          let (inner, context) ← expandAll registry context none current.children
          let finished := current.withChildren inner
          let (others, context) ← expandAll registry (context.finish finished) none rest
          return (finished :: others, context)
termination_by siblings => (Tree.targetDepthAll siblings, sizeOf siblings)
decreasing_by
  · exact lex_of_le (Nat.le_max_right _ _) sizeOf_lt_cons
  · exact lex_of_le (Nat.le_max_right _ _) sizeOf_lt_cons
  · refine lex_of_le ?_ sizeOf_children_lt
    simp only [Tree.targetDepthAll, Tree.targetDepth]
    omega
  · exact lex_of_le (Nat.le_max_right _ _) sizeOf_lt_cons
  · have htarget := isTarget_of_noteFor _hnote
    have hle := apply_target htarget _happlied
    refine Prod.Lex.left _ _ ?_
    simp only [Tree.targetDepthAll, Tree.targetDepth, htarget, ↓reduceIte]
    omega
  · exact lex_of_le (Nat.le_max_right _ _) sizeOf_lt_cons

/-- The expansion of a tree. -/
def expand (registry : Registry) (context : Context) (t : Tree) :
    Except TransformError (Tree × Context) := do
  let (children, context) ← expandAll registry context none t.children
  return (t.withChildren children, context)

end Annotations

end PhasedTests
