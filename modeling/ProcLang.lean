import ProcLang.Binary64
import ProcLang.Check.Aliases
import ProcLang.Check.ArrayLengths
import ProcLang.Check.Calls
import ProcLang.Check.Constants
import ProcLang.Check.Names
import ProcLang.Check.Pass
import ProcLang.Check.ReturnPaths
import ProcLang.Check.Typing
import ProcLang.Diagnostic
import ProcLang.Grammar.Rule
import ProcLang.Grammar.Standard
import ProcLang.Journal
import ProcLang.Main
import ProcLang.Parse.Expression
import ProcLang.Parse.Program
import ProcLang.Parse.State
import ProcLang.Parse.Statement
import ProcLang.Parse.Type
import ProcLang.Pipeline
import ProcLang.Position
import ProcLang.PrefixTree
import ProcLang.Proofs.Account.Causes
import ProcLang.Proofs.Account.Circles
import ProcLang.Proofs.Account.Expressions
import ProcLang.Proofs.Account.Layer
import ProcLang.Proofs.Account.Parts
import ProcLang.Proofs.Account.Programs
import ProcLang.Proofs.Account.Remarks
import ProcLang.Proofs.Account.Scopes
import ProcLang.Proofs.Account.Tour
import ProcLang.Proofs.Again.Expressions
import ProcLang.Proofs.Again.Leads
import ProcLang.Proofs.Again.Nodes
import ProcLang.Proofs.Again.Programs
import ProcLang.Proofs.Again.Scopes
import ProcLang.Proofs.Again.Sites
import ProcLang.Proofs.Calls.Accepted
import ProcLang.Proofs.Calls.Comparison
import ProcLang.Proofs.Calls.Counts
import ProcLang.Proofs.Calls.Programs
import ProcLang.Proofs.Circles.Graph
import ProcLang.Proofs.Circles.Programs
import ProcLang.Proofs.Circles.Search
import ProcLang.Proofs.Columns.Compile
import ProcLang.Proofs.Columns.Parser
import ProcLang.Proofs.Columns.Passes
import ProcLang.Proofs.Columns.Tokens
import ProcLang.Proofs.Columns.Tree
import ProcLang.Proofs.Columns.View
import ProcLang.Proofs.Constants.Marks
import ProcLang.Proofs.Constants.Programs
import ProcLang.Proofs.Expression.Completeness
import ProcLang.Proofs.Expression.Correctness
import ProcLang.Proofs.Expression.Derivation
import ProcLang.Proofs.Expression.Keeps
import ProcLang.Proofs.Expression.Layer
import ProcLang.Proofs.Expression.Soundness
import ProcLang.Proofs.Expression.Tree
import ProcLang.Proofs.Extents.Expressions
import ProcLang.Proofs.Extents.Names
import ProcLang.Proofs.Extents.Operands
import ProcLang.Proofs.Extents.Parser
import ProcLang.Proofs.Extents.Programs
import ProcLang.Proofs.Extents.Ranges
import ProcLang.Proofs.Extents.State
import ProcLang.Proofs.Extents.Tokens
import ProcLang.Proofs.Extents.Traversal
import ProcLang.Proofs.Isolation.Accounts
import ProcLang.Proofs.Isolation.Around
import ProcLang.Proofs.Isolation.Links
import ProcLang.Proofs.Isolation.Places
import ProcLang.Proofs.Isolation.Programs
import ProcLang.Proofs.Isolation.Reports
import ProcLang.Proofs.Isolation.Resolved
import ProcLang.Proofs.Isolation.Sites
import ProcLang.Proofs.Lengths.Programs
import ProcLang.Proofs.Lengths.Reports
import ProcLang.Proofs.Lockstep.Agrees
import ProcLang.Proofs.Lockstep.Parser
import ProcLang.Proofs.Lockstep.Places
import ProcLang.Proofs.Lockstep.Separators
import ProcLang.Proofs.Names.Change
import ProcLang.Proofs.Names.Cycles
import ProcLang.Proofs.Names.Expressions
import ProcLang.Proofs.Names.Layer
import ProcLang.Proofs.Names.Lexical
import ProcLang.Proofs.Names.Parts
import ProcLang.Proofs.Names.Progress
import ProcLang.Proofs.Names.Scope
import ProcLang.Proofs.Names.Site
import ProcLang.Proofs.Names.Sites
import ProcLang.Proofs.Parser.Accounts
import ProcLang.Proofs.Parser.Achieves
import ProcLang.Proofs.Parser.Built
import ProcLang.Proofs.Parser.Constructs
import ProcLang.Proofs.Parser.Derivation
import ProcLang.Proofs.Parser.Program
import ProcLang.Proofs.Parser.Progress
import ProcLang.Proofs.Parser.Reads
import ProcLang.Proofs.Parser.Soundness
import ProcLang.Proofs.Parser.Tree
import ProcLang.Proofs.Parser.Yields
import ProcLang.Proofs.Passes.Accepted
import ProcLang.Proofs.Passes.Annotations
import ProcLang.Proofs.Passes.Completion
import ProcLang.Proofs.Passes.External
import ProcLang.Proofs.Passes.Halting
import ProcLang.Proofs.Passes.Ownership
import ProcLang.Proofs.Passes.Reports
import ProcLang.Proofs.Passes.Silent
import ProcLang.Proofs.Passes.Steps
import ProcLang.Proofs.Places.Caret
import ProcLang.Proofs.Places.Parser
import ProcLang.Proofs.Places.Passes
import ProcLang.Proofs.Places.Tokens
import ProcLang.Proofs.PrefixTree.Entries
import ProcLang.Proofs.PrefixTree.Lookup
import ProcLang.Proofs.PrefixTree.Nodes
import ProcLang.Proofs.Redeclared.Names
import ProcLang.Proofs.Redeclared.Programs
import ProcLang.Proofs.Reordered.Programs
import ProcLang.Proofs.Reordered.Silence
import ProcLang.Proofs.Reordered.Sites
import ProcLang.Proofs.Resolved.Forest
import ProcLang.Proofs.Resolved.Tree
import ProcLang.Proofs.Resolved.Types
import ProcLang.Proofs.Resolved.Unfolding
import ProcLang.Proofs.Returns.Paths
import ProcLang.Proofs.Returns.Programs
import ProcLang.Proofs.Returns.Reports
import ProcLang.Proofs.Rewriting.Turns
import ProcLang.Proofs.Rewriting.Walk
import ProcLang.Proofs.Source.Expressions
import ProcLang.Proofs.Source.Programs
import ProcLang.Proofs.Source.Stands
import ProcLang.Proofs.Source.Statements
import ProcLang.Proofs.Source.Syntax
import ProcLang.Proofs.Source.Types
import ProcLang.Proofs.SpelledOut.Follows
import ProcLang.Proofs.SpelledOut.Parser
import ProcLang.Proofs.SpelledOut.Passes
import ProcLang.Proofs.SpelledOut.Programs
import ProcLang.Proofs.SpelledOut.Renamed
import ProcLang.Proofs.SpelledOut.Resolved
import ProcLang.Proofs.SpelledOut.Sites
import ProcLang.Proofs.SpelledOut.Tokens
import ProcLang.Proofs.Token.Coverage
import ProcLang.Proofs.Token.Joined
import ProcLang.Proofs.Token.Lexeme
import ProcLang.Proofs.Token.Lookahead
import ProcLang.Proofs.Token.Reading
import ProcLang.Proofs.Token.Respelled
import ProcLang.Proofs.Token.Words
import ProcLang.Proofs.Tree.Extension
import ProcLang.Proofs.Tree.Forest
import ProcLang.Proofs.Tree.Height
import ProcLang.Proofs.Tree.Ownership
import ProcLang.Proofs.Tree.Slots
import ProcLang.Proofs.Types.Layers
import ProcLang.Proofs.Types.Sameness
import ProcLang.Proofs.Typing.Causes
import ProcLang.Proofs.Typing.Consistency
import ProcLang.Proofs.Typing.Decision
import ProcLang.Proofs.Typing.Derive
import ProcLang.Proofs.Typing.Final
import ProcLang.Proofs.Typing.Pass
import ProcLang.Proofs.Typing.Refinement
import ProcLang.Proofs.Typing.Resolved
import ProcLang.Proofs.Typing.Rules
import ProcLang.Proofs.Typing.Sound
import ProcLang.Proofs.Typing.WellTyped
import ProcLang.Proofs.Walk.Erasure
import ProcLang.Proofs.Walk.Findings
import ProcLang.Proofs.Walk.Follows
import ProcLang.Proofs.Walk.Keeps
import ProcLang.Proofs.Walk.Record
import ProcLang.Proofs.Walk.Runs
import ProcLang.Proofs.Walk.Steps
import ProcLang.Proofs.Walk.Total
import ProcLang.Report
import ProcLang.Stage
import ProcLang.Text.Blank
import ProcLang.Text.Lines
import ProcLang.Text.Quoted
import ProcLang.Text.Unprintable
import ProcLang.Token
import ProcLang.Token.Lexer
import ProcLang.Token.Spelling
import ProcLang.Token.Stream
import ProcLang.Tree.Arena
import ProcLang.Tree.Node
import ProcLang.Tree.TypeView
import ProcLang.Walk.Basic
import ProcLang.Walk.Recorder
import ProcLang.Walk.Replacing
