import PhasedTests.Phase.Block
import PhasedTests.Sexp.Reader

/-!
# What can go wrong

The causes for which an expansion fails, each with the place it is reported at, and their wording.
-/

namespace PhasedTests

/-- What is wrong with a data table. -/
inductive TableFault where
  | noHeader
  | badHeaderCell (found : Tree)
  | wrongWidth (values columns : Nat)

/-- What is wrong with an interaction. -/
inductive InteractionFault where
  | cardinality
  | bound (which : String)
  | inlineBlock
  | noReceiver

/-- What is wrong with a raises condition. -/
inductive RaisesFault where
  | noException
  | repeated

/-- Why a file operation failed, as the operating system words it. -/
inductive FileFault where
  | notFound
  | notADirectory
  | isADirectory
  | alreadyExists
  | notText
  | other (message : String)
  deriving DecidableEq, Repr

/-- Why an expansion failed. -/
inductive TransformError where
  | phaseOrder (cause : PhaseOrderError)
  | malformedTable (fault : TableFault) (location : Option Span)
  | interactionSyntax (fault : InteractionFault) (location : Option Span)
  | raisesCondition (fault : RaisesFault) (location : Option Span)
  | unknownTransformation (name : String) (location : Option Span)
  | parse (cause : ReadError)
  | notATestBlock (tag : String)
  | notAParsedTest (tag : String)
  | emittedUnreadable (cause : ReadError)
  | file (fault : FileFault)

namespace TableFault

/-- The wording of the fault. -/
def message : TableFault → String
  | noHeader => "a header row naming the columns is required"
  | badHeaderCell found => "header cells must be bare column names, found " ++ found.inline
  | wrongWidth values columns =>
    "row has " ++ toString values ++ " values but the header declares " ++ toString columns ++
      " columns"

end TableFault

namespace InteractionFault

/-- The wording of the fault. -/
def message : InteractionFault → String
  | cardinality => "Unsupported cardinality on the left-hand side of the interaction"
  | bound which => which ++ " of the cardinality range is not supported"
  | inlineBlock => "Inline blocks are not supported in interactions"
  | noReceiver => "The right-hand side of an interaction must have a receiver"

/-- What should have been written. -/
def expected : InteractionFault → String
  | cardinality => "a count (int, variable or call), `_`, or a parenthesized range"
  | bound _ => "an int, a variable, a call or `_`"
  | inlineBlock => "a block argument passed with `&`, e.g. `receiver.message(&handler)`"
  | noReceiver => "`receiver.message(args)`"

end InteractionFault

namespace RaisesFault

/-- The wording of the fault. -/
def message : RaisesFault → String
  | noException => "raises needs the exception class it expects"
  | repeated => "Only one raises condition is allowed per Then block"

end RaisesFault

namespace FileFault

/-- The wording of the fault, with the system's error number. -/
def message : FileFault → String
  | notFound => "No such file or directory (os error 2)"
  | notADirectory => "Not a directory (os error 20)"
  | isADirectory => "Is a directory (os error 21)"
  | alreadyExists => "File exists (os error 17)"
  | notText => "stream did not contain valid UTF-8"
  | other message => message

end FileFault

namespace TransformError

/-- The wording of the error. -/
def message : TransformError → String
  | phaseOrder cause => cause.message
  | malformedTable fault location =>
    "Where block @ " ++ Span.describe location ++ " is malformed: " ++ fault.message
  | interactionSyntax fault location =>
    fault.message ++ " @ " ++ Span.describe location ++ ". Expected " ++ fault.expected
  | raisesCondition fault location => fault.message ++ " @ " ++ Span.describe location
  | unknownTransformation name location =>
    "Unknown transformation `" ++ name ++ "` @ " ++ Span.describe location
  | parse cause => cause.message
  | notATestBlock tag =>
    "Stage 'test method' failed: expected a test block, found " ++ tag
  | notAParsedTest tag => "Stage 'codegen' failed: expected a phase test, found " ++ tag
  | emittedUnreadable cause =>
    "Stage 'map' failed: emitted code does not parse: " ++ cause.message
  | file fault => "IO error: " ++ fault.message

/-- The place of an expansion error; reading and file errors have none of this kind. -/
def location : TransformError → Option Span
  | phaseOrder cause => cause.location
  | malformedTable _ location => location
  | interactionSyntax _ location => location
  | raisesCondition _ location => location
  | unknownTransformation _ location => location
  | _ => none

end TransformError

end PhasedTests
