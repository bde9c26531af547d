import PhasedTests.Generate.Unroll
import PhasedTests.Main
import PhasedTests.Proofs.Decimal.Double
import PhasedTests.Proofs.Decimal.Nearest
import PhasedTests.Proofs.Decimal.Positional
import PhasedTests.Proofs.Decimal.RoundTrip
import PhasedTests.Proofs.Decimal.Shortest
import PhasedTests.Proofs.Text.Numeral
import PhasedTests.Session
import PhasedTests.SourceMap.Backtrace
import PhasedTests.Proofs.Sexp.Grammar
import PhasedTests.Proofs.Sexp.Layout
import PhasedTests.Proofs.Sexp.Placed
import PhasedTests.Proofs.Sexp.RoundTrip
import PhasedTests.Proofs.Expansion.Readable
import PhasedTests.Proofs.SourceMap.Lines
import PhasedTests.Proofs.Expansion.Phaseless
import PhasedTests.Proofs.Generate.Method
import PhasedTests.Proofs.Sexp.Location
import PhasedTests.Proofs.SourceMap.Provenance
import PhasedTests.Proofs.Test.Table
import PhasedTests.Proofs.Generate.Unroll
import PhasedTests.Proofs.SourceMap.OwnLine
import PhasedTests.Proofs.Tree.Sequence
import PhasedTests.Proofs.Generate.Trace
import PhasedTests.Proofs.Expansion.Tests
import PhasedTests.Proofs.SourceMap.Statements
import PhasedTests.Proofs.Sexp.Inline
import PhasedTests.Proofs.Expansion.Unannotated
import PhasedTests.Proofs.Expansion.Finished
import PhasedTests.Proofs.Expansion.Shielding
import PhasedTests.Proofs.Phase.Grammar
import PhasedTests.Proofs.Generate.Failure
import PhasedTests.Proofs.Expansion.Failure
import PhasedTests.Proofs.Expansion.EntryPoints
import PhasedTests.Proofs.Generate.Count
import PhasedTests.Proofs.Interaction.Chain
import PhasedTests.Proofs.Expansion.Strictness
import PhasedTests.Proofs.Expansion.Siblings
import PhasedTests.Proofs.Expansion.Judged
import PhasedTests.Proofs.Expansion.Deletion
import PhasedTests.Proofs.Expansion.Noted
import PhasedTests.Proofs.Test.Source
import PhasedTests.Proofs.Expansion.Transparent
import PhasedTests.Proofs.Sexp.Acceptance
import PhasedTests.Proofs.Sexp.Extent
import PhasedTests.Proofs.SourceMap.Reindent
import PhasedTests.Proofs.Expansion.Locality
import PhasedTests.Proofs.SourceMap.Backtrace
import PhasedTests.Proofs.Session
import PhasedTests.Proofs.Expansion.Blame
import PhasedTests.Proofs.Generate.Parameters
import PhasedTests.Proofs.Test.Cells
import PhasedTests.Proofs.Expansion.SourceText
import PhasedTests.Proofs.Generate.Verification
import PhasedTests.Proofs.SourceMap.Counterpart
import PhasedTests.Proofs.SourceMap.Frame
import PhasedTests.Proofs.TruthTable.Layout
import PhasedTests.Proofs.Source.Span
import PhasedTests.Proofs.Generate.Composition
import PhasedTests.Proofs.Sexp.Scalar
