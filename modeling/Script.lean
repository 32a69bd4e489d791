import Script.Clean.Basic
import Script.Clean.Comment
import Script.Clean.Directive
import Script.Clean.Draft
import Script.Clean.Fault
import Script.Clean.Macro
import Script.Code.Basic
import Script.Code.Emit
import Script.Code.Fault
import Script.Code.Listing
import Script.Code.Literal
import Script.Code.Symbols
import Script.CommandLine.Answer
import Script.CommandLine.Arguments
import Script.Diagnostic
import Script.Eval.Basic
import Script.Eval.Fault
import Script.Eval.Machine
import Script.Host.Fault
import Script.Host.Folder
import Script.Host.Gradual
import Script.Host.Includes
import Script.Host.Job
import Script.Host.Path
import Script.Main
import Script.Mode
import Script.Number.Numeral
import Script.Number.Parts
import Script.Number.Remainder
import Script.Number.Shortest
import Script.Number.Text
import Script.Operation
import Script.Pipeline
import Script.Proofs.Action
import Script.Proofs.Assigned.Programs
import Script.Proofs.Assigned.Runs
import Script.Proofs.Assigned.Variables
import Script.Proofs.Budget.Fuel
import Script.Proofs.Budget.Growth
import Script.Proofs.Budget.Limits
import Script.Proofs.Budget.Sessions
import Script.Proofs.Clean.Again
import Script.Proofs.Clean.Alignment
import Script.Proofs.Clean.Alone
import Script.Proofs.Clean.Depth
import Script.Proofs.Clean.Directives
import Script.Proofs.Clean.Foreign
import Script.Proofs.Clean.Groups
import Script.Proofs.Clean.History
import Script.Proofs.Clean.Step
import Script.Proofs.Clean.Unchanged
import Script.Proofs.Clean.Unlimited
import Script.Proofs.Clean.Walk
import Script.Proofs.Comments.Parts
import Script.Proofs.Comments.Tokens
import Script.Proofs.Complaints.Nodes
import Script.Proofs.Complaints.Raised
import Script.Proofs.Grammar.Accepts
import Script.Proofs.Grammar.Basic
import Script.Proofs.Grammar.Care
import Script.Proofs.Grammar.Complete.Expressions
import Script.Proofs.Grammar.Complete.Statements
import Script.Proofs.Grammar.Facing
import Script.Proofs.Grammar.Gaps
import Script.Proofs.Grammar.Order
import Script.Proofs.Grammar.Over
import Script.Proofs.Grammar.Shape
import Script.Proofs.Grammar.Sound.Expressions
import Script.Proofs.Grammar.Sound.Gaps
import Script.Proofs.Grammar.Sound.Statements
import Script.Proofs.Heap
import Script.Proofs.Instrumented
import Script.Proofs.Lexical.Account
import Script.Proofs.Lexical.Compiled
import Script.Proofs.Lexical.Keeps
import Script.Proofs.Lexical.Levels
import Script.Proofs.Lexical.Naming
import Script.Proofs.Lexical.Occurrences
import Script.Proofs.Lexical.Passages
import Script.Proofs.Lexical.Programs
import Script.Proofs.Lexical.Runs
import Script.Proofs.Lexical.Spans
import Script.Proofs.Lexical.Standing
import Script.Proofs.Lexical.Table
import Script.Proofs.Lexical.Watched
import Script.Proofs.Lockstep.Evaluation
import Script.Proofs.Macros.Bytes
import Script.Proofs.Macros.Mapped
import Script.Proofs.Macros.Shifts
import Script.Proofs.Macros.Words
import Script.Proofs.Moments.Limits
import Script.Proofs.Moments.Observed
import Script.Proofs.Operands.Refused
import Script.Proofs.Operands.Valueless
import Script.Proofs.Output.Composed
import Script.Proofs.Output.Prefixed
import Script.Proofs.Output.Runs
import Script.Proofs.Output.Truncation
import Script.Proofs.Parentheses.Compiled
import Script.Proofs.Parentheses.Evaluated
import Script.Proofs.Parentheses.Removed
import Script.Proofs.Parentheses.Transparent
import Script.Proofs.Pasting.Alike
import Script.Proofs.Pasting.Pasted
import Script.Proofs.Pasting.Texts
import Script.Proofs.Places.Blanked
import Script.Proofs.Places.Carried
import Script.Proofs.Places.Checked
import Script.Proofs.Places.Cleaned
import Script.Proofs.Places.Columns
import Script.Proofs.Places.Ended
import Script.Proofs.Places.Evaluated
import Script.Proofs.Places.Exact
import Script.Proofs.Places.Lines
import Script.Proofs.Places.Located
import Script.Proofs.Places.Outline
import Script.Proofs.Places.Searched
import Script.Proofs.Places.Tokens
import Script.Proofs.Printed.Bare
import Script.Proofs.Printed.Cut
import Script.Proofs.Printed.Determined
import Script.Proofs.Printed.Words
import Script.Proofs.Reading.Appended
import Script.Proofs.Reading.Built
import Script.Proofs.Reading.Cut
import Script.Proofs.Reading.Deepest
import Script.Proofs.Reading.Follows
import Script.Proofs.Reading.Meets
import Script.Proofs.Reading.Nesting
import Script.Proofs.Reading.Orderly
import Script.Proofs.Reading.Paths
import Script.Proofs.Reading.Reported
import Script.Proofs.Reading.Rounds
import Script.Proofs.Reading.Settles
import Script.Proofs.Reading.Spanned
import Script.Proofs.Reading.Stays
import Script.Proofs.Reading.Whole
import Script.Proofs.Reading.Within
import Script.Proofs.Rollback.Mirrors
import Script.Proofs.Rollback.Sessions
import Script.Proofs.Scopes.Active
import Script.Proofs.Scopes.Founded
import Script.Proofs.Scopes.Handles
import Script.Proofs.Scopes.Plain
import Script.Proofs.Scopes.Shape
import Script.Proofs.Scopes.Traced
import Script.Proofs.Sessions
import Script.Proofs.Stack.Agreement
import Script.Proofs.Stack.Bodies
import Script.Proofs.Stack.Changes
import Script.Proofs.Stack.Emitted
import Script.Proofs.Stack.Expressions
import Script.Proofs.Stack.Layout
import Script.Proofs.Stack.Linking
import Script.Proofs.Stack.Machine
import Script.Proofs.Stack.Nested
import Script.Proofs.Stack.Operators
import Script.Proofs.Stack.Placed
import Script.Proofs.Stack.Programs
import Script.Proofs.Stack.Runs
import Script.Proofs.Stack.Simulates
import Script.Proofs.Stack.Statements
import Script.Proofs.Stages
import Script.Proofs.Upholds
import Script.Proofs.WellFormed.Heights
import Script.Proofs.WellFormed.Marks
import Script.Proofs.WellFormed.Pieces
import Script.Proofs.WellFormed.Programs
import Script.Proofs.Words.Joined
import Script.Proofs.Words.Lexemes
import Script.Proofs.Words.Literals
import Script.Proofs.Words.Numbers
import Script.Proofs.Words.Spelling
import Script.Proofs.Words.Splits
import Script.Proofs.Words.Tiles
import Script.Scope
import Script.Session
import Script.Sink
import Script.Source.File
import Script.Source.Origin
import Script.Source.Registry
import Script.Source.Span
import Script.Text.Blank
import Script.Text.Measure
import Script.Text.Padded
import Script.Text.Quoted
import Script.Text.Shapeless
import Script.Token.Basic
import Script.Token.Fault
import Script.Token.Lexeme
import Script.Token.Listing
import Script.Token.Scan
import Script.Tree.Basic
import Script.Tree.Cursor
import Script.Tree.Expression
import Script.Tree.Fault
import Script.Tree.Printer
import Script.Tree.Statement
import Script.Value
