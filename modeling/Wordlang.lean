import Wordlang.Builtin
import Wordlang.Command.Arguments
import Wordlang.Command.Directory
import Wordlang.Command.Doctor
import Wordlang.Command.Run
import Wordlang.Compile
import Wordlang.Expr
import Wordlang.Expr.Outline
import Wordlang.Expr.Parse
import Wordlang.Expr.Parser
import Wordlang.IR.Listing
import Wordlang.IR.Module
import Wordlang.IR.Type
import Wordlang.IR.Verify
import Wordlang.IR.Violation
import Wordlang.LLVM.Escape
import Wordlang.LLVM.Generate
import Wordlang.LLVM.Line
import Wordlang.LLVM.Render
import Wordlang.Log.Entry
import Wordlang.Log.Line
import Wordlang.Log.Name
import Wordlang.Log.Stamp
import Wordlang.Lowering.Builder
import Wordlang.Lowering.Env
import Wordlang.Lowering.Error
import Wordlang.Lowering.Event
import Wordlang.Lowering.Expr
import Wordlang.Main
import Wordlang.Parsed
import Wordlang.Position
import Wordlang.Settings
import Wordlang.Settings.Decode
import Wordlang.Settings.Encode
import Wordlang.Source
import Wordlang.Text.Base64
import Wordlang.Text.Printable
import Wordlang.Text.Quoted
import Wordlang.Text.Utf8
import Wordlang.Token
import Wordlang.Token.Scan
import Wordlang.Token.Scanner
import Wordlang.Token.Table
import Wordlang.Yaml.Cursor
import Wordlang.Yaml.Fault
import Wordlang.Yaml.Input
import Wordlang.Yaml.Node
import Wordlang.Yaml.Node.Parse
import Wordlang.Yaml.Scalar
import Wordlang.Yaml.Scalar.Number
import Wordlang.Yaml.Scalar.Timestamp
import Wordlang.Yaml.Scalar.Write
import Wordlang.Yaml.Token
import Wordlang.Yaml.Token.Scalar
import Wordlang.Yaml.Token.Scan
import Wordlang.Yaml.Token.Tag
import Wordlang.Proofs.Grammar
import Wordlang.Proofs.Grammar.Parse
import Wordlang.Proofs.Draft
import Wordlang.Proofs.Lowering.Steps
import Wordlang.Proofs.Symbols
import Wordlang.Proofs.Verify
import Wordlang.Proofs.Lowering.WellFormed
import Wordlang.Proofs.Lowering.Verified
import Wordlang.Proofs.Machine
import Wordlang.Proofs.Meaning
import Wordlang.Proofs.Meaning.Evaluator
import Wordlang.Proofs.Lowering.Derivation
import Wordlang.Proofs.Simulation.Functions
import Wordlang.Proofs.Simulation.Frame
import Wordlang.Proofs.Simulation.Code
import Wordlang.Proofs.Simulation.Expr
import Wordlang.Proofs.Simulation.Program
import Wordlang.Proofs.Static
import Wordlang.Proofs.Static.Lowering
import Wordlang.Proofs.Utf8
import Wordlang.Proofs.Lexical
import Wordlang.Proofs.Lexical.Scan
import Wordlang.Proofs.Lexical.Naming
import Wordlang.Proofs.Lexical.Table
import Wordlang.Proofs.Shape
import Wordlang.Proofs.Shape.Static
import Wordlang.Proofs.Shape.Parse
import Wordlang.Proofs.LLVM.Reader
import Wordlang.Proofs.LLVM.Body
import Wordlang.Proofs.LLVM.Tokens
import Wordlang.Proofs.LLVM.Text
import Wordlang.Proofs.Lowering.Tidy
import Wordlang.Proofs.LLVM.Render
import Wordlang.Proofs.LLVM.Compile
import Wordlang.Proofs.Collect
import Wordlang.Proofs.Extension
import Wordlang.Proofs.Lowering.Frame
import Wordlang.Proofs.Lowering.Links
import Wordlang.Proofs.Lowering.Reached
import Wordlang.Proofs.Lowering.Names
import Wordlang.Proofs.Lowering.Addresses
import Wordlang.Proofs.LLVM.Decode
import Wordlang.Proofs.LLVM.Requests
import Wordlang.Proofs.LLVM.Skeleton
import Wordlang.Proofs.LLVM.Recover
import Wordlang.Proofs.LLVM.Determined
import Wordlang.Proofs.Grammar.Viable
import Wordlang.Proofs.Parser
import Wordlang.Proofs.Parser.Reports
import Wordlang.Proofs.Parser.Runs
import Wordlang.Proofs.Parser.End
import Wordlang.Proofs.Positions
import Wordlang.Proofs.Positions.Compile
import Wordlang.Proofs.Positions.Parse
import Wordlang.Proofs.Notation
import Wordlang.Proofs.Lowering.Literals
import Wordlang.Proofs.Lowering.Builtins
import Wordlang.Proofs.Utf8.Reading
import Wordlang.Proofs.Scanner
import Wordlang.Proofs.Scanner.End
import Wordlang.Proofs.Scanner.Places
import Wordlang.Proofs.Verify.Rules
import Wordlang.Proofs.Verify.Exact
import Wordlang.Proofs.LLVM.Total
import Wordlang.Proofs.LLVM.Pieces
import Wordlang.Proofs.LLVM.Delivery
import Wordlang.Proofs.LLVM.Defined
import Wordlang.Proofs.LLVM.Header
import Wordlang.Proofs.LLVM.Constants
import Wordlang.Proofs.Construction
import Wordlang.Proofs.Lowering.OneSlot
import Wordlang.Proofs.Lowering.Strings
import Wordlang.Proofs.Lowering.Trace
import Wordlang.Proofs.Quoted
import Wordlang.Proofs.Outline
import Wordlang.Proofs.Outline.Parse
