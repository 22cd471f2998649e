import StackLang.Bytes
import StackLang.NameMap
import StackLang.Text.Numeral
import StackLang.Text.Utf8
import StackLang.Text.Printable
import StackLang.Text.Quoted
import StackLang.Foreign
import StackLang.Source.Token
import StackLang.Source.Lexeme
import StackLang.Source.Tree
import StackLang.Source.Reader
import StackLang.Source.Position
import StackLang.Source.Bundle
import StackLang.Failure
import StackLang.Source.Layout
import StackLang.Code.Word
import StackLang.Code.Instr
import StackLang.Names.Namespace
import StackLang.Names.Scope
import StackLang.Names.Builder
import StackLang.Code.Builtin
import StackLang.Code.Program
import StackLang.Image.Layout
import StackLang.Image.Encode
import StackLang.Image.Load
import StackLang.Machine.Sink
import StackLang.Machine.Run
import StackLang.Machine.Listing
import StackLang.Compile
import StackLang.Execute
import StackLang.Event
import StackLang.Text.Base64
import StackLang.Yaml.Problem
import StackLang.Yaml.Characters
import StackLang.Yaml.Cursor
import StackLang.Yaml.Scalar
import StackLang.Yaml.BlockScalar
import StackLang.Yaml.Token
import StackLang.Yaml.TokenStream
import StackLang.Yaml.Number
import StackLang.Yaml.Date
import StackLang.Yaml.Value
import StackLang.Yaml.Node
import StackLang.Yaml.Decode
import StackLang.Yaml.Record
import StackLang.FileSystem
import StackLang.Files
import StackLang.Settings
import StackLang.Source.Outline
import StackLang.Command.Arguments
import StackLang.Command.Help
import StackLang.Command.Action
import StackLang.Command.Session
import StackLang.Main
import StackLang.Proofs.NameLookup
import StackLang.Proofs.StoredCode
import StackLang.Proofs.StoredRecords
import StackLang.Proofs.ImageFormat
import StackLang.Proofs.ImageRoundTrip
import StackLang.Proofs.CodeOffsets
import StackLang.Proofs.ImagePrefixes
import StackLang.Proofs.ReadableTokens
import StackLang.Proofs.ReadableTrees
import StackLang.Proofs.Lowering
import StackLang.Proofs.BuiltNamespace
import StackLang.Proofs.CompiledProgram
import StackLang.Proofs.Evaluation
import StackLang.Proofs.MachineRuns
import StackLang.Proofs.Simulation
import StackLang.Proofs.EvaluationAgreement
import StackLang.Proofs.RunPoints
import StackLang.Proofs.SafeRuns
import StackLang.Proofs.Grammar
import StackLang.Proofs.ReaderSteps
import StackLang.Proofs.Unplaced
import StackLang.Proofs.GrammarReading
import StackLang.Proofs.Utf8Characters
import StackLang.Proofs.CanonicalText
import StackLang.Proofs.BuilderRuns
import StackLang.Proofs.EncodingOutcome
import StackLang.Proofs.BuildOutcome
import StackLang.Proofs.CompileOutcome
import StackLang.Proofs.ShiftedReading
import StackLang.Proofs.LinesAndColumns
import StackLang.Proofs.ReadingErrors
import StackLang.Proofs.FilesTogether
import StackLang.Proofs.FilePlaces
import StackLang.Proofs.TokenTexts
import StackLang.Proofs.ViablePrefixes
import StackLang.Proofs.FirstMisfit
import StackLang.Proofs.FormattedProgram
import StackLang.Proofs.DefinitionOrder
import StackLang.Proofs.IncrementalBuilds
import StackLang.Proofs.RunInvariants
import StackLang.Proofs.DepthLimit
import StackLang.Proofs.FullSink
import StackLang.Proofs.StackFrame
import StackLang.Proofs.StepDepths
import StackLang.Proofs.Backtrace
import StackLang.Proofs.AcyclicCalls
import StackLang.Proofs.Inlining
import StackLang.Proofs.EncodingInPlace
import StackLang.Proofs.RecordOrder
import StackLang.Proofs.EncodedLayout
import StackLang.Proofs.EncodingFailures
import StackLang.Proofs.ListingLines
import StackLang.Proofs.CompiledListing
import StackLang.Proofs.ExactLexing
import StackLang.Proofs.ValidPrefixes
import StackLang.Proofs.SourcePositions
import StackLang.Proofs.FilePaths
import StackLang.Proofs.FormattingInPlace
import StackLang.Proofs.QuotedLiterals
import StackLang.Proofs.ScopeHistory
