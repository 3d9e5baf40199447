import Gamebook.Source.Location
import Gamebook.Text.Quoted
import Gamebook.Text.Utf8
import Gamebook.Text.Charset
import Gamebook.Token.Keyword
import Gamebook.Bytecode.Opcode
import Gamebook.Token.Scanner
import Gamebook.Constant.Expr
import Gamebook.Bytecode.Instruction
import Gamebook.Symbol.Table
import Gamebook.Log
import Gamebook.Report
import Gamebook.Grammar.Parser
import Gamebook.Grammar.Expression
import Gamebook.Grammar.Statement
import Gamebook.Grammar.Program
import Gamebook.Bytecode.Fusion
import Gamebook.Bytecode.Prose
import Gamebook.Memory.Layout
import Gamebook.Memory.Image
import Gamebook.Memory.Placement
import Gamebook.Compilation
import Gamebook.Memory.Content
import Gamebook.Command.Arguments
import Gamebook.Command.Number
import Gamebook.Command.Tree
import Gamebook.Command.Run
import Gamebook.Main
import Gamebook.Proofs.Memory.Addresses
import Gamebook.Proofs.Memory.ReadBack
import Gamebook.Proofs.Grammar.References
import Gamebook.Proofs.Grammar.Operands
import Gamebook.Proofs.Grammar.StackDiscipline
import Gamebook.Proofs.Grammar.Precedence
import Gamebook.Proofs.Grammar.Desugaring
import Gamebook.Proofs.Constant.Stability
import Gamebook.Proofs.Grammar.Folding
import Gamebook.Proofs.Grammar.Diagnosis
import Gamebook.Proofs.Grammar.Modes
import Gamebook.Proofs.Grammar.Areas
import Gamebook.Proofs.Grammar.Crossing
import Gamebook.Proofs.Grammar.Moving
import Gamebook.Proofs.Grammar.Lines
import Gamebook.Proofs.Grammar.Sparing
import Gamebook.Proofs.Grammar.Tracing
import Gamebook.Proofs.Memory.Stretches
import Gamebook.Proofs.Grammar.Storing
import Gamebook.Proofs.Memory.Exchange
import Gamebook.Proofs.Bytecode.Expansion
import Gamebook.Proofs.Symbol.Operations
import Gamebook.Proofs.Token.Sections
import Gamebook.Proofs.Token.Number
import Gamebook.Proofs.Token.Steps
import Gamebook.Proofs.Token.Numerals
import Gamebook.Proofs.Token.Printing
import Gamebook.Proofs.Token.Prose
import Gamebook.Proofs.Constant.Tree
import Gamebook.Proofs.Constant.Exactness
import Gamebook.Proofs.Memory.Placement
import Gamebook.Proofs.Command.Delivery
import Gamebook.Proofs.Bytecode.NormalForm
import Gamebook.Proofs.Memory.Packing
import Gamebook.Proofs.Memory.Slicing
import Gamebook.Proofs.Memory.Growth
import Gamebook.Proofs.Memory.Trimming
import Gamebook.Proofs.Source.Positions
import Gamebook.Proofs.Source.Quotation
import Gamebook.Proofs.Token.Tiling
import Gamebook.Proofs.Grammar.Citations
