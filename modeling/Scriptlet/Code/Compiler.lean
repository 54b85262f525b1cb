import Scriptlet.Node
import Scriptlet.Code.Program

/-! From trees to programs.  The compiler keeps the names that each open scope declares and
the table of streams; `emit` lowers a node to slots that will stand from a given address on,
so that jumps can be written at once.  A failure leaves the scopes that were open at it open
and the streams that were reserved empty. -/

namespace Scriptlet

inductive CompileError
  | invalidTarget (kind : NodeKind)
  | invalidLoopInitializer (kind : NodeKind)
  | internal (message : String)
  deriving DecidableEq

def CompileError.message : CompileError → String
  | invalidTarget kind => "compile error: cannot assign to '" ++ kind.text ++ "'"
  | invalidLoopInitializer kind =>
    "compile error: for-loop initializer must be a local variable assignment, found '" ++
      kind.text ++ "'"
  | internal m => "compile error: internal error: " ++ m

structure Finished where
  name : String
  id : Nat
  slots : Nat
  deriving DecidableEq

/-- The innermost scope comes first, the top level last.  Finished functions are in the
order in which they were finished. -/
structure Compiler where
  code : Array (Array Slot) := #[#[]]
  scopes : List (List String) := [[]]
  finished : Array Finished := #[]
  deriving DecidableEq

namespace Compiler

abbrev Emit := EStateM CompileError Compiler

def openScope (names : List String) : Emit Unit :=
  modify fun c => { c with scopes := names :: c.scopes }

def closeScope : Emit Unit :=
  modify fun c => { c with scopes := c.scopes.tail }

def declare (x : String) : Emit Unit := do
  match (← get).scopes with
  | [] => throw (.internal "no open scope")
  | scope :: outer => modify fun c => { c with scopes := (x :: scope) :: outer }

def declareIf (isLocal : Bool) (x : String) : Emit Unit :=
  if isLocal then declare x else return ()

def isDeclared (c : Compiler) (x : String) : Bool := c.scopes.any (·.contains x)

/-- A name declared in an open scope is stored in the innermost frame, any other name in the
global one. -/
def storeOp (x : String) : Emit Opcode := do
  return if (← get).isDeclared x then .setEnv else .setEnvGlobal

def reserve : Emit Nat :=
  modifyGet fun c => (c.code.size, { c with code := c.code.push #[] })

def finish (name : String) (id : Nat) (slots : List Slot) : Emit Unit :=
  modify fun c => { c with
    code := c.code.setIfInBounds id slots.toArray
    finished := c.finished.push ⟨name, id, slots.length⟩ }

def pushId (x : String) : List Slot := [.ofOpcode .pushId, .name x]

def load (x : String) : List Slot := pushId x ++ [.ofOpcode .getEnv]

def literal : Literal → List Slot
  | .number n => [.ofOpcode .pushNumber, .number n]
  | .string s => [.ofOpcode .pushString, .text s]
  | .boolean true => [.ofOpcode .pushTrue]
  | .boolean false => [.ofOpcode .pushFalse]
  | .variable x => load x
  | .table => [.ofOpcode .newTable]

def callee : Option String → String → List Slot
  | some r, f => load r ++ pushId f ++ [.ofOpcode .getTable]
  | none, f => load f

def advance (x : String) : List Slot :=
  load x ++ [.ofOpcode .increment] ++ pushId x ++ [.ofOpcode .swap, .ofOpcode .setEnv]

/-- Binds the parameters from the operand stack, where the last argument is on top. -/
def prologue (params : List String) : List Slot :=
  .ofOpcode .noOp ::
    params.reverse.flatMap fun p => pushId p ++ [.ofOpcode .swap, .ofOpcode .setEnv]

def epilogue (body : List Node) : List Slot :=
  match body.getLast? with
  | some (.ret _) => []
  | _ => [.ofOpcode .pushNil, .ofOpcode .ret]

def loopVariable? : Node → Option String
  | .assign true (.value (.variable x)) _ => some x
  | _ => none

mutual

def emit (base : Nat) : Node → Emit (List Slot)
  | .value l => return literal l
  | .notEqual lhs rhs => do
    let l ← emit base lhs
    let r ← emit (base + l.length) rhs
    return l ++ r ++ [.ofOpcode .notEqual]
  | .call receiver f args => do
    let as ← emitArguments base args
    return as ++ callee receiver f ++ [.ofOpcode .call]
  | .index b key => do
    let k ← emit (base + (load b).length) key
    return load b ++ k ++ [.ofOpcode .getTable]
  | .assign isLocal (.value (.variable x)) value => do
    declareIf isLocal x
    let v ← emit (base + (pushId x).length) value
    return pushId x ++ v ++ [.ofOpcode (← storeOp x)]
  | .assign false (.index b key) value => do
    let k ← emit (base + (load b).length) key
    let v ← emit (base + (load b).length + k.length) value
    return load b ++ k ++ v ++ [.ofOpcode .setTable]
  | .assign _ target _ => throw (.invalidTarget target.kind)
  | .ifThen condition body => do
    let c ← emit base condition
    let start := base + c.length + 2
    let b ← emitBlock start body
    return c ++ [.ofOpcode .jumpIfFalse, .target (start + b.length)] ++ b
  | .forLoop initial bound body => do
    match loopVariable? initial with
    | none => throw (.invalidLoopInitializer initial.kind)
    | some x =>
      openScope []
      let i ← emit (base + 1) initial
      let head := base + 1 + i.length
      let e ← emit (head + (load x).length) bound
      let start := head + (load x).length + e.length + 3
      let b ← emitBlock start body
      let exit := start + b.length + (advance x).length + 2
      closeScope
      return [.ofOpcode .enterScope] ++ i ++ load x ++ e ++
        [.ofOpcode .notEqual, .ofOpcode .jumpIfFalse, .target exit] ++ b ++ advance x ++
        [.ofOpcode .jump, .target head, .ofOpcode .leaveScope]
  | .function f params body => do
    let id ← reserve
    openScope params
    let b ← emitBlock (prologue params).length body
    closeScope
    finish f id (prologue params ++ b ++ epilogue body)
    return pushId f ++ [.ofOpcode .pushFunction, .code id, .ofOpcode (← storeOp f)]
  | .ret value => do
    let v ← emit base value
    return v ++ [.ofOpcode .ret]

def emitArguments (base : Nat) : List Node → Emit (List Slot)
  | [] => return []
  | n :: ns => do
    let a ← emit base n
    return a ++ (← emitArguments (base + a.length) ns)

/-- The slots of statements; one that leaves a value behind is followed by a pop. -/
def emitBlock (base : Nat) : List Node → Emit (List Slot)
  | [] => return []
  | n :: ns => do
    let a ← emit base n
    let a := if n.isExpression then a ++ [.ofOpcode .pop] else a
    return a ++ (← emitBlock (base + a.length) ns)

end

def compileNodes (ns : List Node) : Emit (List Slot) := emitBlock 0 ns

def compileProgram (ns : List Node) : Emit Program := do
  let main ← compileNodes ns
  return ⟨(← get).code.setIfInBounds 0 main.toArray⟩

end Compiler

def Program.ofNodes (ns : List Node) : EStateM.Result CompileError Compiler Program :=
  Compiler.compileProgram ns {}

end Scriptlet
