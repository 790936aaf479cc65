import OperandOrder.Arena
import OperandOrder.Arena.Reorder
import OperandOrder.Arrange
import OperandOrder.Canonical
import OperandOrder.Expr
import OperandOrder.Host.Command
import OperandOrder.Host.Failure
import OperandOrder.Host.Lines
import OperandOrder.Host.Options
import OperandOrder.Host.Source
import OperandOrder.Json.Double
import OperandOrder.Json.Numeral
import OperandOrder.Json.Reader
import OperandOrder.Json.Writer
import OperandOrder.Main
import OperandOrder.NameTable
import OperandOrder.Operator
import OperandOrder.Opportunity
import OperandOrder.ParseError
import OperandOrder.Parser
import OperandOrder.Parser.Flat
import OperandOrder.Parser.Descent
import OperandOrder.Parser.Draft
import OperandOrder.Policy
import OperandOrder.Policy.Document
import OperandOrder.Printer
import OperandOrder.Profile
import OperandOrder.RangeSet
import OperandOrder.Span
import OperandOrder.Store
import OperandOrder.Store.Place
import OperandOrder.Text.Blank
import OperandOrder.Text.Decimal
import OperandOrder.Text.Width
import OperandOrder.Token
import OperandOrder.Token.Lexer
import OperandOrder.Proofs.Arrangement
import OperandOrder.Proofs.Canonical
import OperandOrder.Proofs.Exactness
import OperandOrder.Proofs.Opportunities
import OperandOrder.Proofs.Store.Reading
import OperandOrder.Proofs.Store.Placing
import OperandOrder.Proofs.Meaning
import OperandOrder.Proofs.Store.Reordering
import OperandOrder.Proofs.Store.Agreement
import OperandOrder.Proofs.Grammar
import OperandOrder.Proofs.Parser.Grouping
import OperandOrder.Proofs.Parser.Soundness
import OperandOrder.Proofs.Parser.Completeness
import OperandOrder.Proofs.Token.Lexemes
import OperandOrder.Proofs.Token.Spelling
import OperandOrder.Proofs.Frames
import OperandOrder.Proofs.Printing
import OperandOrder.Proofs.PrintedLine
import OperandOrder.Proofs.Token.Patterns
import OperandOrder.Proofs.Token.LongestMatch
import OperandOrder.Proofs.Token.Covering
import OperandOrder.Proofs.Token.Layout
import OperandOrder.Proofs.RoundTrip
import OperandOrder.Proofs.Breadth
import OperandOrder.Proofs.Evenness
import OperandOrder.Proofs.Parser.Derived
import OperandOrder.Proofs.Parser.Placement
import OperandOrder.Proofs.Parentheses
import OperandOrder.Proofs.Host.Lines
import OperandOrder.Proofs.Host.Checking
import OperandOrder.Proofs.Host.Settling
import OperandOrder.Proofs.RangeSets
import OperandOrder.Proofs.Nodes
import OperandOrder.Proofs.Strictness
import OperandOrder.Proofs.Parser.Nesting
import OperandOrder.Proofs.Highlighting
import OperandOrder.Proofs.Host.Frame
import OperandOrder.Proofs.Parser.Words
import OperandOrder.Proofs.Reprinting
import OperandOrder.Proofs.Parser.Filling
import OperandOrder.Proofs.Parser.Extents
import OperandOrder.Proofs.Store.Laying
import OperandOrder.Proofs.Store.Ownership
import OperandOrder.Proofs.Exchanges
import OperandOrder.Proofs.NormalForm
import OperandOrder.Proofs.Permuting
import OperandOrder.Proofs.Comparisons
import OperandOrder.Proofs.Coverage
import OperandOrder.Proofs.Barriers
import OperandOrder.Proofs.RightLiterals
import OperandOrder.Proofs.Locality
import OperandOrder.Proofs.Depths
import OperandOrder.Proofs.Cores
import OperandOrder.Proofs.NeededParens
import OperandOrder.Proofs.Arena.Storage
import OperandOrder.Proofs.Arena.Reading
import OperandOrder.Proofs.Arena.Sorting
import OperandOrder.Proofs.Arena.Writing
import OperandOrder.Proofs.Arena.Reordering
import OperandOrder.Proofs.Arena.Answers
import OperandOrder.Proofs.Names
import OperandOrder.Proofs.Host.RangeText
import OperandOrder.Proofs.Host.Arguments
import OperandOrder.Proofs.Host.Splicing
import OperandOrder.Proofs.Bubbling
import OperandOrder.Proofs.Arena.Outlines
import OperandOrder.Proofs.Parser.Levels
import OperandOrder.Proofs.Parser.Progress
import OperandOrder.Proofs.Parser.Descent
import OperandOrder.Proofs.Arena.Depositing
import OperandOrder.Proofs.Parser.Drafting
import OperandOrder.Proofs.Arena.Ownership
