import IntervalAutomata.Main
import IntervalAutomata.Interval.Json
import IntervalAutomata.Proofs.Node.Identities
import IntervalAutomata.Proofs.Node.Ascending
import IntervalAutomata.Proofs.Encoding.Canonical
import IntervalAutomata.Proofs.Level.Cover
import IntervalAutomata.Proofs.Compile.Tree
import IntervalAutomata.Proofs.Compile.Accepted
import IntervalAutomata.Proofs.Compile.Sharing
import IntervalAutomata.Proofs.Compile.Identities
import IntervalAutomata.Proofs.Compile.Recognition
import IntervalAutomata.Proofs.Compile.History
import IntervalAutomata.Proofs.Node.Path
import IntervalAutomata.Proofs.Compile.Residual
import IntervalAutomata.Proofs.Compile.Calls
import IntervalAutomata.Proofs.Compile.Rejection
import IntervalAutomata.Proofs.Compile.Words
import IntervalAutomata.Proofs.Node.Partition
import IntervalAutomata.Proofs.Level.Words
import IntervalAutomata.Proofs.Compile.Rows
import IntervalAutomata.Proofs.Compile.Remembered
import IntervalAutomata.Proofs.Compile.Minimality
import IntervalAutomata.Proofs.Compile.Account
import IntervalAutomata.Proofs.Compile.NodeBound
import IntervalAutomata.Proofs.Interval.Separated
import IntervalAutomata.Proofs.Interval.Subtraction
import IntervalAutomata.Proofs.Cli.Verdicts
import IntervalAutomata.Proofs.Node.Depth
import IntervalAutomata.Proofs.Compile.Shape
import IntervalAutomata.Proofs.Compile.Coarseness
import IntervalAutomata.Proofs.Interval.Size
import IntervalAutomata.Proofs.Interval.Parts
import IntervalAutomata.Proofs.Encoding.Code
import IntervalAutomata.Proofs.Node.Fault
import IntervalAutomata.Proofs.Node.Reordering
import IntervalAutomata.Proofs.Text.Lines
import IntervalAutomata.Proofs.Text.Numerals
import IntervalAutomata.Proofs.Automaton.Outline
import IntervalAutomata.Proofs.Node.Counting
import IntervalAutomata.Proofs.Automaton.Numbering
import IntervalAutomata.Proofs.Automaton.Dot
import IntervalAutomata.Proofs.Compile.Report
import IntervalAutomata.Proofs.Compile.Begun
import IntervalAutomata.Proofs.Compile.Expansion
import IntervalAutomata.Proofs.Compile.Tally
import IntervalAutomata.Proofs.Interval.Numbers
import IntervalAutomata.Proofs.Interval.Reading
import IntervalAutomata.Proofs.Interval.Listing
import IntervalAutomata.Proofs.Compile.Splitting
import IntervalAutomata.Proofs.Text.Colour
import IntervalAutomata.Proofs.Cli.Colour
import IntervalAutomata.Proofs.Json.Numbers
import IntervalAutomata.Proofs.Json.Tokens
import IntervalAutomata.Proofs.Json.StandIn
import IntervalAutomata.Proofs.Interval.Json
