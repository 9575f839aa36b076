import MiniC.Asm.Instr
import MiniC.Asm.Line
import MiniC.Asm.Listing
import MiniC.Codegen.Basic
import MiniC.Codegen.Error
import MiniC.Codegen.Expr
import MiniC.Codegen.Program
import MiniC.CommandLine.Files
import MiniC.CommandLine.Host
import MiniC.CommandLine.Options
import MiniC.CommandLine.Run
import MiniC.Diagnostic
import MiniC.Expr
import MiniC.Floating.Format
import MiniC.Floating.Shortest
import MiniC.Floating.Text
import MiniC.Frame
import MiniC.IR.Basic
import MiniC.IR.Builder
import MiniC.IR.Printer
import MiniC.Integer
import MiniC.Layout
import MiniC.Literal
import MiniC.Lookahead
import MiniC.Lowering.Basic
import MiniC.Lowering.Expr
import MiniC.Lowering.Program
import MiniC.Main
import MiniC.Operator
import MiniC.Outline
import MiniC.Parser.Declaration
import MiniC.Parser.Expression
import MiniC.Parser.State
import MiniC.Parser.Statement
import MiniC.Pipeline
import MiniC.Position
import MiniC.Program
import MiniC.Program.Outline
import MiniC.SymbolTable
import MiniC.Text.Disarmed
import MiniC.Text.Hex
import MiniC.Text.Invisible
import MiniC.Text.Quoted
import MiniC.Token
import MiniC.Token.Lexer
import MiniC.Ty
import MiniC.Proofs.Steps
import MiniC.Proofs.Codegen.Steps
import MiniC.Proofs.ControlFlow.Outline
import MiniC.Proofs.Asm.Labels
import MiniC.Proofs.ControlFlow.Labels
import MiniC.Proofs.ControlFlow.Resolution
import MiniC.Proofs.ControlFlow.Assembly
import MiniC.Proofs.ControlFlow.Walk
import MiniC.Proofs.ControlFlow.Following
import MiniC.Proofs.Source.Value
import MiniC.Proofs.Source.Eval
import MiniC.Proofs.Source.Exec
import MiniC.Proofs.Source.Traces
import MiniC.Proofs.Machine.Memory
import MiniC.Proofs.Machine.Exec
import MiniC.Proofs.Codegen.Frames
import MiniC.Proofs.Codegen.Places
import MiniC.Proofs.Machine.Instructions
import MiniC.Proofs.Codegen.Moves
import MiniC.Proofs.Codegen.Simulation
import MiniC.Proofs.Codegen.Operations
import MiniC.Proofs.Codegen.Expressions
import MiniC.Proofs.IR.Builder
import MiniC.Proofs.Lowering.Steps
import MiniC.Proofs.Lowering.Growth
import MiniC.Proofs.Lowering.Values
import MiniC.Proofs.Source.Sight
import MiniC.Proofs.Source.Scopes
import MiniC.Proofs.Lowering.Variables
import MiniC.Proofs.Source.WellFormed
import MiniC.Proofs.Lowering.Expressions
import MiniC.Proofs.Lowering.Statements
import MiniC.Proofs.Lowering.Functions
import MiniC.Proofs.Parser.Table
import MiniC.Proofs.Parser.Steps
import MiniC.Proofs.Parser.Grammar
import MiniC.Proofs.Parser.Declarations
import MiniC.Proofs.Lowering.Programs
import MiniC.Proofs.IR.Graph
import MiniC.Proofs.Lowering.Order
import MiniC.Proofs.Lowering.Graph
import MiniC.Proofs.Codegen.Extents
import MiniC.Proofs.Codegen.Failures
import MiniC.Proofs.Codegen.Generation
import MiniC.Proofs.Lowering.Failures
import MiniC.Proofs.Acceptance
import MiniC.Proofs.IR.Typing
import MiniC.Proofs.Source.Types
import MiniC.Proofs.Lowering.Discipline
import MiniC.Proofs.Lowering.Keeping
import MiniC.Proofs.Lowering.Typing
import MiniC.Proofs.Lowering.Constants
import MiniC.Proofs.TypeAgreement
import MiniC.Proofs.ControlFlow.Execution
import MiniC.Proofs.ControlFlow.Consolidation
import MiniC.Proofs.Codegen.Marks
import MiniC.Proofs.Codegen.Effects
import MiniC.Proofs.Source.Filling
import MiniC.Proofs.Codegen.Variables
import MiniC.Proofs.Codegen.Statements
import MiniC.Proofs.Codegen.Composition
import MiniC.Proofs.Codegen.Locals
import MiniC.Proofs.Asm.Nesting
import MiniC.Proofs.Codegen.Sites
import MiniC.Proofs.Codegen.Symbols
import MiniC.Proofs.Machine.Stack
import MiniC.Proofs.StackFrames
import MiniC.Proofs.Parser.Folding
import MiniC.Proofs.Parser.Reading
import MiniC.Proofs.Lookahead
import MiniC.Proofs.Parser.Progress
import MiniC.Proofs.Parser.Totality
import MiniC.Proofs.Position
import MiniC.Proofs.Token.Pieces
import MiniC.Proofs.Parser.Citing
import MiniC.Proofs.Reporting
import MiniC.Proofs.Token.Respelling
import MiniC.Proofs.Token.Scanner
import MiniC.Proofs.Codegen.Functions
import MiniC.Proofs.Agreement
import MiniC.Proofs.Source.ExactFolding
import MiniC.Proofs.Parser.Remarks
import MiniC.Proofs.Strictness
import MiniC.Proofs.CommandLine.Files
import MiniC.Proofs.CommandLine.Run
import MiniC.Proofs.Asm.DataLines
import MiniC.Proofs.Parser.Declaring
import MiniC.Proofs.StringLiterals
import MiniC.Proofs.ControlFlow.Preservation
import MiniC.Proofs.Parser.Literals
import MiniC.Proofs.Codegen.Constants
import MiniC.Proofs.Codegen.Layouts
import MiniC.Proofs.Source.Choices
import MiniC.Proofs.Codegen.Choices
import MiniC.Proofs.Lowering.Choices
import MiniC.Proofs.Parser.Drawing
import MiniC.Proofs.ConstantConditions
import MiniC.Proofs.ScopeStack
import MiniC.Proofs.Parser.Trailing
import MiniC.Proofs.RemarkSites
import MiniC.Proofs.Token.Numerals
import MiniC.Proofs.Carets
import MiniC.Proofs.Windows
import MiniC.Proofs.ControlFlow.NormalForm
import MiniC.Proofs.Lowering.Naming
