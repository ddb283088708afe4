import Pearl.Text.Blank
import Pearl.Text.Numeral
import Pearl.Text.Scan
import Pearl.Number.Binary64
import Pearl.Number.Decimal
import Pearl.Number.Shortest
import Pearl.Number.Layout
import Pearl.Json.Basic
import Pearl.Json.Scan
import Pearl.FileTree
import Pearl.Ident
import Pearl.Ty
import Pearl.Ty.Reader
import Pearl.Diagnostic
import Pearl.Operator
import Pearl.Operator.Rule
import Pearl.Constant
import Pearl.Constant.Pool
import Pearl.Literal
import Pearl.Literal.Denotation
import Pearl.LanguageDefaults
import Pearl.Scope
import Pearl.SymbolTable
import Pearl.SymbolTable.History
import Pearl.Scope.Cursor
import Pearl.Tree
import Pearl.Tree.Builder
import Pearl.Program
import Pearl.Program.Trace
import Pearl.Walk.Context
import Pearl.Walk
import Pearl.Walk.Pass
import Pearl.Constant.Collect
import Pearl.Typing.Table
import Pearl.Typing.Infer
import Pearl.Analysis
import Pearl.Toml.Value
import Pearl.Toml.Token
import Pearl.Toml.Quoting
import Pearl.Toml.Reader
import Pearl.Toml.Document
import Pearl.Logging
import Pearl.Settings
import Pearl.Settings.Files
import Pearl.Proofs.InTurn
import Pearl.Proofs.Number.AtLeastZero
import Pearl.Proofs.Literal.Negation
import Pearl.Proofs.Constant.Same
import Pearl.Proofs.Constant.Run
import Pearl.Proofs.Walk.Agenda
import Pearl.Proofs.Walk.Simulation
import Pearl.Proofs.Tree.WellFormed
import Pearl.Proofs.Tree.Reach
import Pearl.Proofs.Program.Occurrence
import Pearl.Proofs.Program.Coverage
import Pearl.Proofs.Program.Names
import Pearl.Proofs.Walk.Related
import Pearl.Proofs.Constant.Fold
import Pearl.Proofs.Typing.Judgement
import Pearl.Proofs.Typing.Entries
import Pearl.Proofs.Typing.LiteralPrecision
import Pearl.Proofs.Analysis.Agreement
import Pearl.Proofs.Typing.Closure
import Pearl.Proofs.Analysis.AfterPool
import Pearl.Proofs.Walk.Balance
import Pearl.Proofs.Alike
import Pearl.Proofs.Ty.AtMost
import Pearl.Proofs.SymbolTable.AtMost
import Pearl.Proofs.Walk.AtMost
import Pearl.Proofs.Literal.AtMost
import Pearl.Proofs.Analysis.Monotone
import Pearl.Proofs.Tree.Origin
import Pearl.Proofs.Typing.Domain
import Pearl.Proofs.Typing.Stale
import Pearl.Proofs.Literal.Faults
import Pearl.Proofs.Literal.BitString
import Pearl.Proofs.Literal.Times
import Pearl.Proofs.Typing.FirstViolation
import Pearl.Proofs.Constant.Order
import Pearl.Proofs.Constant.Classes
import Pearl.Proofs.Analysis.Rearranged
import Pearl.Proofs.Along
import Pearl.Proofs.SymbolTable.Declarations
import Pearl.Proofs.SymbolTable.Chain
import Pearl.Proofs.SymbolTable.Lexical
import Pearl.Proofs.SymbolTable.Lengths
import Pearl.Proofs.Tree.Building
import Pearl.Proofs.Operator.Precision
import Pearl.Proofs.Operator.Bracketing
import Pearl.Proofs.Analysis.Outcome
import Pearl.Proofs.Constant.Bounds
import Pearl.Proofs.Text.Numeral
import Pearl.Proofs.Constant.FoldedMinus
import Pearl.Proofs.Typing.Names
import Pearl.Proofs.Typing.Weight
import Pearl.Proofs.Typing.Constancy
import Pearl.Proofs.Typing.Elements
import Pearl.Proofs.SymbolTable.Agrees
import Pearl.Proofs.SymbolTable.Modules
import Pearl.Proofs.SymbolTable.Listing
import Pearl.Proofs.SymbolTable.Ownership
import Pearl.Proofs.Analysis.Weakening
import Pearl.Proofs.Literal.Width
import Pearl.Proofs.Ty.Spelling
import Pearl.Proofs.Tree.Rendering
import Pearl.Proofs.Json.Scanning
import Pearl.Proofs.Ty.RoundTrip
