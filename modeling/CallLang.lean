import CallLang.Inspect
import CallLang.Main
import CallLang.Proofs.Acceptance
import CallLang.Proofs.Arithmetic
import CallLang.Proofs.Backtraces
import CallLang.Proofs.CallByName
import CallLang.Proofs.Conversations
import CallLang.Proofs.Conversions
import CallLang.Proofs.Declarations
import CallLang.Proofs.Directories
import CallLang.Proofs.Ending
import CallLang.Proofs.Equality
import CallLang.Proofs.Excerpts
import CallLang.Proofs.Grammar
import CallLang.Proofs.ImportChains
import CallLang.Proofs.Integers
import CallLang.Proofs.Layout
import CallLang.Proofs.Lexemes
import CallLang.Proofs.Merging
import CallLang.Proofs.NestedRuns
import CallLang.Proofs.Printing
import CallLang.Proofs.Regions
import CallLang.Proofs.Sessions
import CallLang.Proofs.Spans
import CallLang.Proofs.TypeIds
import CallLang.Proofs.Unwinding
import CallLang.Proofs.Outline
import CallLang.Proofs.Parameters
import CallLang.Proofs.HiddenScopes
import CallLang.Proofs.Unreadable
import CallLang.Proofs.Words
import CallLang.Proofs.Arrangements
import CallLang.Proofs.CallerFrames
import CallLang.Proofs.Passing
import CallLang.Proofs.Evaluations
import CallLang.Proofs.Library
import CallLang.Proofs.Counting
import CallLang.Proofs.Traversals
import CallLang.Proofs.EmbeddedImports
import CallLang.Proofs.Coordinates
import CallLang.Proofs.FurtherLines
import CallLang.Proofs.Diagnostics
import CallLang.Proofs.Documentation
