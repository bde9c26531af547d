import PhasedTests.Sexp.Lexer

/-!
# Reading documents

A document is a sequence of nodes. A node is an opening parenthesis, a tag, children and a closing
parenthesis; a child is a node or a scalar. One node is the document's tree; none or several become
the children of a `begin` node that covers them. Every node carries the span from its opening to
its closing parenthesis.
-/

namespace PhasedTests

/-- What is wrong with a text. -/
inductive ReadFault where
  | stray (chars : List Char)
  | noOpen (found : Token)
  | noTag (found : Token)
  | unclosedHead
  | unclosed (tag : String)
  | bareWord (name : String)

namespace ReadFault

/-- The wording of a fault. -/
def message : ReadFault → String
  | stray chars => "unexpected character `" ++ String.ofList chars ++ "`"
  | noOpen found => "expected '(' but found " ++ found.describe
  | noTag found => "expected node tag but found " ++ found.describe
  | unclosedHead => "unclosed node"
  | unclosed tag => "unclosed node `" ++ tag ++ "`"
  | bareWord name =>
    "bare identifier `" ++ name ++ "` is not a value; nodes are written `(" ++ name ++ " ...)`"

end ReadFault

/-- A text that is no document: its path, where it goes wrong, and how. -/
structure ReadError where
  path : String
  position : Position
  fault : ReadFault

namespace ReadError

/-- `path:line:column: fault`. -/
def message (e : ReadError) : String :=
  e.path ++ ":" ++ e.position.text ++ ": " ++ e.fault.message

end ReadError

namespace Reader

/-- A node whose closing parenthesis has not been read: its tag, the offset of its opening
parenthesis and its children so far, the last one first. -/
structure OpenNode where
  tag : String
  first : Nat
  reversed : List Tree

/-- A fault and the byte offset it is reported at. -/
structure Failure where
  offset : Nat
  fault : ReadFault

/-- A finished tree becomes the last child of the innermost open node, or the last form. -/
def place (t : Tree) : List OpenNode → List Tree → List OpenNode × List Tree
  | [], forms => ([], t :: forms)
  | top :: outer, forms => ({ top with reversed := t :: top.reversed } :: outer, forms)

/-- Reads the tokens that are left, with the open nodes from the innermost outwards and the
finished forms, the last one first. -/
def read (index : LineIndex) (opened : List OpenNode) (forms : List Tree) :
    List Lexeme → Except Failure (List Tree)
  | [] =>
    match opened with
    | [] => .ok forms.reverse
    | top :: _ => .error ⟨top.first, .unclosed top.tag⟩
  | ⟨.openParen, first, _⟩ :: rest =>
    match rest with
    | [] => .error ⟨first, .unclosedHead⟩
    | ⟨.ident tag, _, _⟩ :: rest => read index (⟨tag, first, []⟩ :: opened) forms rest
    | ⟨.scalar .nil, _, _⟩ :: rest => read index (⟨"nil", first, []⟩ :: opened) forms rest
    | ⟨found, offset, _⟩ :: _ => .error ⟨offset, .noTag found⟩
  | ⟨.closeParen, offset, stop⟩ :: rest =>
    match opened with
    | [] => .error ⟨offset, .noOpen .closeParen⟩
    | top :: outer =>
      let t := .node top.tag top.reversed.reverse (some (index.span top.first stop))
      let (opened, forms) := place t outer forms
      read index opened forms rest
  | ⟨.scalar value, offset, _⟩ :: rest =>
    match opened with
    | [] => .error ⟨offset, .noOpen (.scalar value)⟩
    | top :: outer =>
      read index ({ top with reversed := .leaf value :: top.reversed } :: outer) forms rest
  | ⟨.ident name, offset, _⟩ :: _ =>
    match opened with
    | [] => .error ⟨offset, .noOpen (.ident name)⟩
    | _ :: _ => .error ⟨offset, .bareWord name⟩

/-- The tree of a document's forms. -/
def document : List Tree → Tree
  | [form] => form
  | forms =>
    let location := do
      let first ← (← forms.head?).location
      let last ← (← forms.getLast?).location
      return first.cover last
    .node "begin" forms location

end Reader

/-- The tree of an S-expression text; `path` names the text in errors. Characters that are no
token are reported before anything else. -/
def readText (path : String) (text : String) : Except ReadError Tree :=
  let chars := text.toList
  let index := LineIndex.ofChars chars
  let scan := Scan.ofChars chars
  match scan.stray with
  | some stray => .error ⟨path, index.position stray.first, .stray stray.chars⟩
  | none =>
    match Reader.read index [] [] scan.lexemes with
    | .ok forms => .ok (Reader.document forms)
    | .error failure => .error ⟨path, index.position failure.offset, failure.fault⟩

end PhasedTests
