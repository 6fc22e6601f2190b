import Parley.Body.Tokens
import Parley.Main
import Parley.Proofs.Telling
import Parley.Proofs.Course
import Parley.Proofs.Showing
import Parley.Proofs.Accounting
import Parley.Proofs.Transduction
import Parley.Proofs.Outline
import Parley.Proofs.OutlineParsing
import Parley.Proofs.OutlineLexing
import Parley.Proofs.OutlineRoundTrip
import Parley.Proofs.Steps
import Parley.Proofs.Lines
import Parley.Proofs.Blocks
import Parley.Proofs.Grammar
import Parley.Proofs.GrammarSound
import Parley.Proofs.GrammarComplete
import Parley.Proofs.Derivation
import Parley.Proofs.Precedence
import Parley.Proofs.Modes
import Parley.Proofs.Rows
import Parley.Proofs.Transfer
import Parley.Proofs.Padding
import Parley.Proofs.Insertion
import Parley.Proofs.Excerpt
import Parley.Proofs.Prescan
import Parley.Proofs.Promises
import Parley.Proofs.Records
import Parley.Proofs.Turns
import Parley.Proofs.Requests
import Parley.Proofs.Loading
import Parley.Proofs.Kinds
import Parley.Proofs.Suspension
import Parley.Proofs.Checking
import Parley.Proofs.MarkupRoundTrip
import Parley.Proofs.Selections
import Parley.Proofs.Spans
import Parley.Proofs.Retrying
import Parley.Proofs.LastBeat
import Parley.Proofs.Prompting
import Parley.Proofs.ScriptRoundTrip
import Parley.Proofs.Escapes
import Parley.Proofs.Margin
import Parley.Proofs.MarkupScan
import Parley.Proofs.MarkupExtent
import Parley.Proofs.MarkupErrors
import Parley.Proofs.SingleLine
import Parley.Proofs.StringLiterals
import Parley.Proofs.OptionGuards
import Parley.Proofs.Repetitions
import Parley.Proofs.Immediate
import Parley.Proofs.LexerCalls
import Parley.Proofs.TokenLists
import Parley.Proofs.Lockstep
import Parley.Proofs.RunningOut
import Parley.Proofs.Visits
import Parley.Proofs.ValueKinds
import Parley.Proofs.LexErrors
import Parley.Proofs.Enclosure
import Parley.Proofs.BlankLines
import Parley.Proofs.MarkupStacks
import Parley.Proofs.MarkupOffsets
import Parley.Proofs.MarkupTrimming
