import Pegboard.Main
import Pegboard.Failures.Json
import Pegboard.Files.Disk
import Pegboard.Proofs.Reading
import Pegboard.Proofs.Reading.Locality
import Pegboard.Proofs.LeftCalls
import Pegboard.Proofs.Applied
import Pegboard.Proofs.Meaning
import Pegboard.Proofs.Match.Expr
import Pegboard.Proofs.Match.Memo
import Pegboard.Proofs.Match.Table
import Pegboard.Proofs.Match.Rule
import Pegboard.Proofs.Match.Whole
import Pegboard.Proofs.Memoization
import Pegboard.Proofs.Match.Nesting
import Pegboard.Proofs.Match.Splice
import Pegboard.Proofs.Match.Session
import Pegboard.Proofs.Match.Untraced
import Pegboard.Proofs.Match.Stack
import Pegboard.Proofs.Match.Within
import Pegboard.Proofs.Match.Moments
import Pegboard.Proofs.Match.Confined
import Pegboard.Proofs.Match.Keeping
import Pegboard.Proofs.Match.Answered
import Pegboard.Proofs.Match.SelfContained
import Pegboard.Proofs.Match.Throughout
import Pegboard.Proofs.Match.LeftRecursion
import Pegboard.Proofs.Text.Alike
import Pegboard.Proofs.Match.Shift
import Pegboard.Proofs.Match.Beside.Expr
import Pegboard.Proofs.Match.Beside.Rule
import Pegboard.Proofs.Match.Examined
import Pegboard.Proofs.Match.Queries
import Pegboard.Proofs.LeftCalls.Check
import Pegboard.Proofs.Grammar.Source
import Pegboard.Proofs.Bus
import Pegboard.Proofs.Refresh
import Pegboard.Proofs.Workbench
import Pegboard.Proofs.Refresh.Published
import Pegboard.Proofs.Workbench.Edits
import Pegboard.Proofs.Tree
import Pegboard.Proofs.Grammar.Rules
import Pegboard.Proofs.Parsing
import Pegboard.Proofs.Grammar.Written
import Pegboard.Proofs.Grammar.Tokens
import Pegboard.Proofs.Grammar.Denoted
import Pegboard.Proofs.Grammar.Inherited
import Pegboard.Proofs.Grammar.Levels
import Pegboard.Proofs.Grammar.Declared
import Pegboard.Proofs.Grammar.Bodies
import Pegboard.Proofs.Grammar.Recovered
import Pegboard.Proofs.Grammar.Closed
import Pegboard.Proofs.Trace.Spans
import Pegboard.Proofs.Match.Filled
import Pegboard.Proofs.History
import Pegboard.Proofs.Workbench.Turns
import Pegboard.Proofs.Workbench.Bare
import Pegboard.Proofs.Workbench.Cycles
import Pegboard.Proofs.Sorted
import Pegboard.Proofs.Workbench.Saved
import Pegboard.Proofs.Workbench.Display
import Pegboard.Proofs.Match.Kept
import Pegboard.Proofs.Grammar.Declarations
import Pegboard.Proofs.Match.Unwinding
import Pegboard.Proofs.Found
import Pegboard.Proofs.Grammar.Nodes
import Pegboard.Proofs.Match.Height
import Pegboard.Proofs.Taken
import Pegboard.Proofs.Grammar.Literals
import Pegboard.Proofs.Grammar.RangeEnds
import Pegboard.Proofs.Grammar.Understood
import Pegboard.Proofs.Grammar.Quoting
import Pegboard.Proofs.Grammar.Skipped
import Pegboard.Proofs.Grammar.Rows
import Pegboard.Proofs.Grammar.Courses
import Pegboard.Proofs.Grammar.Headers
import Pegboard.Proofs.Grammar.Around
import Pegboard.Proofs.Grammar.Assembled
import Pegboard.Proofs.Grammar.CarriedTree
import Pegboard.Proofs.Grammar.Rebuilt
import Pegboard.Proofs.Text.Minimal
import Pegboard.Proofs.Refresh.Reported
import Pegboard.Proofs.Match.Telling
import Pegboard.Proofs.Match.Failed
import Pegboard.Proofs.Grammar.Exchanged
import Pegboard.Proofs.Grammar.Parentheses
import Pegboard.Proofs.Grammar.Flattened
import Pegboard.Proofs.Grammar.Expressed
import Pegboard.Proofs.Grammar.Legible
import Pegboard.Proofs.Grammar.Printed
import Pegboard.Proofs.Grammar.Sourced
import Pegboard.Proofs.Grammar.Reprinted
import Pegboard.Proofs.Document.Positions
import Pegboard.Proofs.Grammar.Owned
import Pegboard.Proofs.Trace.Marks
import Pegboard.Proofs.Json.Objects
import Pegboard.Proofs.Store
import Pegboard.Proofs.Bus.Contract
import Pegboard.Proofs.Text.Excerpt
import Pegboard.Proofs.Failures.Nested
