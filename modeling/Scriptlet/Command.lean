import Scriptlet.Script
import Scriptlet.Token.Listing
import Scriptlet.Node.Outline
import Scriptlet.Node.Graph
import Scriptlet.Code.Listing
import Scriptlet.Path
import Scriptlet.Disk

/-! The command line.  Arguments make a `Task`; once the file of a task is read, an `Effect`
says what remains to be done: answer, write a file, or run a program.  `Command.exec` does
all of it. -/

namespace Scriptlet

namespace Command

/-- What to do with the text of a script, in the order in which flags win. -/
inductive View
  | tokens (style : TokenListing.Style)
  | outline
  | graph
  | listing
  | image
  | run
  deriving DecidableEq

inductive Task
  | help
  | usage
  | runImage (file : String)
  | script (view : View) (file : String)
  deriving DecidableEq

def viewOf (args : List String) : View :=
  if args.contains "--tokens" then
    .tokens ⟨!args.contains "--no-color", args.contains "--pretty"⟩
  else if args.contains "--ast" then .outline
  else if args.contains "--dot" then .graph
  else if args.contains "--bc" || args.contains "--bytecode" then .listing
  else if args.contains "--emit" then .image
  else .run

def isFlag (arg : String) : Bool := arg.toList.head? == some '-'

def isImage (file : String) : Bool := Path.extension? file == some "mbc"

def Task.ofArgs (args : List String) : Task :=
  if args.contains "--help" || args.contains "-h" then .help
  else
    match args.find? (!isFlag ·) with
    | none => .usage
    | some file => if isImage file then .runImage file else .script (viewOf args) file

def Task.file? : Task → Option String
  | help | usage => none
  | runImage file | script _ file => some file

structure Response where
  exit : Nat := 0
  stdout : ByteArray := .empty
  stderr : String := ""

def Response.ofOutput (s : String) : Response := { stdout := s.toUTF8 }

def Response.ofError (e : ScriptError) : Response := { exit := 1, stderr := e.message ++ "\n" }

inductive Effect
  | answer (r : Response)
  | store (path : String) (content : ByteArray)
  | run (p : Program)

def usageText : String :=
  String.join
    (["MOONLET - a small Lua-like language on a bytecode VM",
      "",
      "Usage:",
      "  moonlet <file.lua>            Compile and run a program",
      "  moonlet <file.mbc>            Run a compiled bytecode image",
      "  moonlet --tokens <file>       Show tokens only (--no-color, --pretty)",
      "  moonlet --ast <file>          Print the parsed AST",
      "  moonlet --dot <file>          Write the AST as GraphViz to <file>.dot",
      "  moonlet --bc <file>           Disassemble the compiled bytecode",
      "  moonlet --emit <file>         Write the bytecode image next to <file> (.mbc)",
      "  moonlet --help, -h            Show this help",
      "",
      "Set RUST_LOG=debug (or trace) for pipeline logging."].map (· ++ "\n"))

def graphPath (file : String) : String := file ++ ".dot"

def imagePath (file : String) : String := Path.withExtension file "mbc"

def Effect.ofResult : Except ScriptError Effect → Effect
  | .ok e => e
  | .error e => .answer (.ofError e)

open Script in
def View.effect (file source : String) : View → Except ScriptError Effect
  | tokens style =>
    return .answer (.ofOutput (TokenListing.ofTokens style (← Script.tokens source)))
  | outline => return .answer (.ofOutput (Node.outlineText (← (parse source).result) ++ "\n"))
  | graph => return .store (graphPath file) (Graph.text (← (parse source).result)).toUTF8
  | listing => return .answer (.ofOutput (CodeListing.ofProgram (← (compile source).result)))
  | image =>
    return .store (imagePath file) ⟨(Image.encode (← (compile source).result)).toArray⟩
  | run => return .run (← (compile source).result)

def unreadable (file reason : String) : Effect :=
  .answer { exit := 1, stderr := "Failed to read '" ++ file ++ "': " ++ reason ++ "\n" }

def Task.effect (content : Except String ByteArray) : Task → Effect
  | help => .answer (.ofOutput usageText)
  | usage => .answer { Response.ofOutput usageText with exit := 1 }
  | runImage _ => .ofResult do
    match content with
    | .error reason => throw (.file reason)
    | .ok bytes => return .run (← Script.readImage bytes.data.toList)
  | script view file =>
    match content with
    | .error reason => unreadable file reason
    | .ok bytes =>
      match String.fromUTF8? bytes with
      | none => unreadable file "stream did not contain valid UTF-8"
      | some source => .ofResult (view.effect file source)

def Response.ofRun : EStateM.Result Fault Machine Bool → Response
  | .ok _ m => { stdout := m.written }
  | .error f m => { Response.ofError (.fault f) with stdout := m.written }

def Effect.carryOut [Files σ] (address : Nat → Nat) (fuel : Nat) (d : σ) :
    Effect → Option (Response × σ)
  | answer r => some (r, d)
  | store path content =>
    match Files.write path content d with
    | .ok _ d => some ({}, d)
    | .error reason d => some (.ofError (.file reason), d)
  | run p =>
    match Machine.run { address } fuel (.ofProgram p) with
    | .ok false _ => none
    | result => some (.ofRun result, d)

/-- Does a command on the files of a system.  There is no answer if a program is still running when
the fuel is used up. -/
def exec [Files σ] (address : Nat → Nat) (fuel : Nat) (d : σ) (args : List String) :
    Option (Response × σ) :=
  let task := Task.ofArgs args
  let content := (task.file?.map (Files.read d)).getD (.error "")
  (task.effect content).carryOut address fuel d

end Command

end Scriptlet
