import Scriptlet.Token.Lexer
import Scriptlet.Node.Parser
import Scriptlet.Code.Compiler
import Scriptlet.Code.Image
import Scriptlet.Machine.Trace

/-! From the text of a script to a program that can run.  Each stage has errors of its own;
`ScriptError` joins them, and the message of an error begins with its stage.  A journal keeps
what the stages report, also of those that ended before an error. -/

namespace Scriptlet

inductive ScriptError
  | lexical (e : LexError)
  | grammar (e : SyntaxError)
  | compilation (e : CompileError)
  | fault (f : Fault)
  | file (reason : String)
  | image (e : Image.Error)
  deriving DecidableEq

def ScriptError.message : ScriptError → String
  | lexical e => "lex error: " ++ e.message
  | grammar e => "syntax error: " ++ e.message
  | compilation e => e.message
  | fault f => f.message
  | file reason => "io error: " ++ reason
  | image e => "bytecode image error: " ++ e.message

inductive Stage
  | script | parser | compiler | machine
  deriving DecidableEq

inductive Level
  | debug | trace
  deriving DecidableEq

def Level.text : Level → String
  | debug => "DEBUG"
  | trace => "TRACE"

inductive Event
  | lexed (tokens : Nat)
  | parsed (statements : Nat)
  | compiledFunction (f : Finished)
  | compiledMain (slots streams : Nat)
  | running (streams : Nat)
  | traced (t : Trace)
  deriving DecidableEq

def Trace.message : Trace → String
  | called id code ip depth =>
    "call code[" ++ Nat.repr id ++ "] from code[" ++ Nat.repr code ++ "] ip " ++ Nat.repr ip ++
      " (depth " ++ Nat.repr depth ++ ")"
  | calledBuiltin b => "call builtin " ++ b.name
  | haltedByReturn => "return at top level, halting"
  | returned code toCode toIp =>
    "return from code[" ++ Nat.repr code ++ "] to code[" ++ Nat.repr toCode ++ "] ip " ++
      Nat.repr toIp

namespace Event

def stage : Event → Stage
  | lexed _ => .script
  | parsed _ => .parser
  | compiledFunction _ | compiledMain _ _ => .compiler
  | running _ | traced _ => .machine

def level : Event → Level
  | traced _ => .trace
  | _ => .debug

def message : Event → String
  | lexed n => "lexed " ++ Nat.repr n ++ " tokens"
  | parsed n => "parsed " ++ Nat.repr n ++ " top-level statements"
  | compiledFunction f =>
    "compiled function '" ++ f.name ++ "' as code[" ++ Nat.repr f.id ++ "]: " ++
      Nat.repr f.slots ++ " slots"
  | compiledMain slots streams =>
    "compiled main: " ++ Nat.repr slots ++ " slots, " ++ Nat.repr streams ++ " code objects"
  | running streams => "vm: running " ++ Nat.repr streams ++ " code objects"
  | traced t => t.message

end Event

namespace Script

abbrev Stages := EStateM ScriptError (Array Event)

def report (e : Event) : Stages Unit := modify (·.push e)

def tokens (source : String) : Except ScriptError (List Located) :=
  match (Cursor.ofString source).tokens with
  | .ok ts _ => .ok ts
  | .error e _ => .error (.lexical e)

def parse (source : String) : Stages (List Node) := do
  match tokens source with
  | .error e => throw e
  | .ok ts =>
    report (.lexed ts.length)
    match (TokenStream.ofTokens ts).parse with
    | .error e _ => throw (.grammar e)
    | .ok ns _ =>
      report (.parsed ns.length)
      return ns

def compileNodes (ns : List Node) : Stages Program := do
  match Program.ofNodes ns with
  | .error e c =>
    modify (· ++ c.finished.map .compiledFunction)
    throw (.compilation e)
  | .ok p c =>
    modify (· ++ c.finished.map .compiledFunction)
    report (.compiledMain (p.code[0]?.getD #[]).size p.code.size)
    return p

def compile (source : String) : Stages Program := do
  compileNodes (← parse source)

def Stages.result (s : Stages α) : Except ScriptError α :=
  match s.run #[] with
  | .ok a _ => .ok a
  | .error e _ => .error e

def readImage (bs : Image.Bytes) : Except ScriptError Program :=
  match Image.decode bs with
  | .ok p => .ok p
  | .error e => .error (.image e)

end Script

end Scriptlet
