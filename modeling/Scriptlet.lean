import Scriptlet.Code.Compiler
import Scriptlet.Code.Image
import Scriptlet.Code.Listing
import Scriptlet.Code.Opcode
import Scriptlet.Code.Program
import Scriptlet.Command
import Scriptlet.Disk
import Scriptlet.Machine
import Scriptlet.Machine.Fault
import Scriptlet.Machine.Step
import Scriptlet.Machine.Trace
import Scriptlet.Main
import Scriptlet.Node
import Scriptlet.Node.Graph
import Scriptlet.Node.Outline
import Scriptlet.Node.Parser
import Scriptlet.Path
import Scriptlet.Place
import Scriptlet.Proofs.Instruction
import Scriptlet.Script
import Scriptlet.Table
import Scriptlet.Text.Blank
import Scriptlet.Text.Hidden
import Scriptlet.Text.Numeral
import Scriptlet.Text.Quoted
import Scriptlet.Token
import Scriptlet.Token.Lexer
import Scriptlet.Token.Listing
import Scriptlet.Value
import Scriptlet.Proofs.Lowering
import Scriptlet.Proofs.Emission
import Scriptlet.Proofs.Transition
import Scriptlet.Proofs.Effect
import Scriptlet.Proofs.Layers
import Scriptlet.Proofs.Scopes
import Scriptlet.Proofs.Failure
import Scriptlet.Proofs.Numbering
import Scriptlet.Proofs.Holding
import Scriptlet.Proofs.CodeSafety
import Scriptlet.Proofs.Spans
import Scriptlet.Proofs.Parts
import Scriptlet.Proofs.FrameDiscipline
import Scriptlet.Proofs.Grammar
import Scriptlet.Proofs.Operands
import Scriptlet.Proofs.Agreement
import Scriptlet.Proofs.OperandDiscipline
import Scriptlet.Proofs.Evaluator
import Scriptlet.Proofs.Local
import Scriptlet.Proofs.Simulation
import Scriptlet.Proofs.Refinement
import Scriptlet.Proofs.Adequacy
import Scriptlet.Proofs.Declarations
import Scriptlet.Proofs.Descent
import Scriptlet.Proofs.Lookahead
import Scriptlet.Proofs.Spelling
import Scriptlet.Proofs.Recognition
import Scriptlet.Proofs.ImageRoundTrip
import Scriptlet.Proofs.Lexemes
import Scriptlet.Proofs.ViablePrefix
import Scriptlet.Proofs.Acceptance
import Scriptlet.Proofs.Outlook
import Scriptlet.Proofs.SinkIndependence
import Scriptlet.Proofs.Standstill
import Scriptlet.Proofs.Statements
import Scriptlet.Proofs.Assignment
import Scriptlet.Proofs.Equality
import Scriptlet.Proofs.Hosted
import Scriptlet.Proofs.Streams
import Scriptlet.Proofs.Paths
import Scriptlet.Proofs.Transcript
import Scriptlet.Proofs.EmittedImage
import Scriptlet.Proofs.ByteOrder
import Scriptlet.Proofs.Border
import Scriptlet.Proofs.Sorting
import Scriptlet.Proofs.LexicalScope
import Scriptlet.Proofs.Stretch
import Scriptlet.Proofs.Iteration
import Scriptlet.Proofs.Relocation
import Scriptlet.Proofs.CanonicalImage
import Scriptlet.Proofs.FunctionTable
import Scriptlet.Proofs.Coverage
import Scriptlet.Proofs.Drawing
import Scriptlet.Proofs.DrawnText
import Scriptlet.Proofs.Disassembly
import Scriptlet.Proofs.Halting
import Scriptlet.Proofs.Jumps
import Scriptlet.Proofs.WrittenForms
import Scriptlet.Proofs.Legibility
import Scriptlet.Proofs.Walk
import Scriptlet.Proofs.Progress
import Scriptlet.Proofs.TokenRows
