import Scriptlet.Proofs.Lowering
import Scriptlet.Proofs.Transition

/-! Evaluation of a script by its tree, without addresses and jumps.  A `Store` is what a
machine has besides its place in a program, and evaluation changes it as the tree says.  A
function is known by its number; `invoke` evaluates its body.  Calls and the turns of loops
need fuel, for a script may go on for ever. -/

namespace Scriptlet

structure Store where
  stack : List Value := []
  frames : List Frame
  heap : Array Table
  written : ByteArray := .empty

namespace Machine

def store (m : Machine) : Store := ⟨m.stack, m.frames, m.heap, m.written⟩

def withStore (m : Machine) (s : Store) : Machine :=
  { m with stack := s.stack, frames := s.frames, heap := s.heap, written := s.written }

end Machine

namespace Store

def initial : Store := { frames := [Machine.globals], heap := Machine.initialHeap }

def machine (s : Store) : Machine :=
  { program := ⟨#[]⟩, stack := s.stack, frames := s.frames, heap := s.heap, written := s.written }

end Store

inductive Interrupt
  | returned (v : Value)
  | failed (f : Fault)
  | exhausted

abbrev Eval := EStateM Interrupt Store

namespace Eval

open Machine

def ofAction (a : Action α) : Eval α := fun s =>
  match a s.machine with
  | .ok x m => .ok x m.store
  | .error f m => .error (.failed f) m.store

instance : MonadLift Action Eval := ⟨ofAction⟩

def fetch (x : String) : Action Unit := do
  push ((← get).lookup x)

def literal : Literal → Action Unit
  | .number n => push (.number n)
  | .string s => push (.string s)
  | .boolean b => push (.boolean b)
  | .variable x => fetch x
  | .table => do push (.table (← newTable))

def differ : Action Bool := do
  let b ← pop
  let a ← pop
  return !(a.equal b)

def readIndex : Action Unit := do
  let key ← pop
  let id ← popIndexable
  push ((← get).read id key)

def writeIndex : Action Unit := do
  let v ← pop
  let key ← pop
  let id ← popIndexable
  match Key.ofValue? key with
  | some k => setTable id (((← get).table id).set k v)
  | none => throw (.invalidKey key.kind)

def callee : Option String → String → Action Unit
  | none, f => fetch f
  | some r, f => do
    let m ← get
    match m.lookup r with
    | .table id => push (m.read id (.string f))
    | v => throw (.notIndexable v.kind)

def openFrame : Action Unit := modify fun m => { m with frames := [] :: m.frames }

def closeFrame : Action Unit := modify fun m => { m with frames := m.frames.tail }

def bindLocal (x : String) (v : Value) : Action Unit :=
  modify fun m => { m with frames := m.frames.modifyHead (·.bind x v) }

def bindName (isDeclared : Bool) (x : String) (v : Value) : Action Unit :=
  if isDeclared then bindLocal x v else define x v

def writeName (isDeclared : Bool) : Action Unit := do
  let v ← pop
  let x ← popString
  bindName isDeclared x v

def bindParameters : List String → Action Unit
  | [] => return ()
  | x :: xs => do
    bindLocal x (← pop)
    bindParameters xs

def advance (x : String) : Action Unit := do
  match (← get).lookup x with
  | .number n => if n = Int64.maxValue then throw .overflow else bindLocal x (.number (n + 1))
  | v => throw (.wrongKind .number v.kind)

def apply (host : Host) (invoke : Nat → Eval Unit) : Eval Unit := do
  match ← pop with
  | .function (.compiled id) => invoke id
  | .function (.builtin b) => callBuiltin host b
  | v => throw (.failed (.notCallable v.kind))

def repeatWhile : (fuel : Nat) → Eval Bool → Eval Unit → Eval Unit
  | 0, _, _ => throw .exhausted
  | fuel + 1, test, body => do
    if ← test then
      body
      repeatWhile fuel test body

def result (a : Eval Unit) : Eval Value := fun s =>
  match a s with
  | .ok _ s' => .ok .nil s'
  | .error (.returned v) s' => .ok v s'
  | .error i s' => .error i s'

end Eval

namespace Node

open Eval Machine

variable (host : Host) (invoke : Nat → Eval Unit) (fuel : Nat)

mutual

/-- What a node does to the store.  An expression leaves its value on the stack. -/
def eval (σ : Scoping) : Node → Eval Unit
  | .value l => literal l
  | .notEqual lhs rhs => do
    eval σ lhs
    eval (σ.after lhs) rhs
    push (.boolean (← differ))
  | .call receiver f args => do
    evalArguments σ args
    callee receiver f
    apply host invoke
  | .index b key => do
    fetch b
    eval σ key
    readIndex
  | .assign isLocal (.value (.variable x)) v => do
    push (.string x)
    eval (σ.declareIf isLocal x) v
    writeName (((σ.declareIf isLocal x).after v).isDeclared x)
  | .assign _ (.index b key) v => do
    fetch b
    eval σ key
    eval (σ.after key) v
    writeIndex
  | .assign _ _ _ => return ()
  | .ifThen condition body => do
    eval σ condition
    if (← pop).isTruthy then
      evalBlock (σ.after condition) body
  | .forLoop initial bound body =>
    match Compiler.loopVariable? initial with
    | none => return ()
    | some x => do
      let σ' := (σ.enter []).after initial
      openFrame
      eval (σ.enter []) initial
      repeatWhile fuel
        (do
          fetch x
          eval σ' bound
          differ)
        (do
          evalBlock (σ'.after bound) body
          advance x)
      closeFrame
  | .function f _ _ => bindName (σ.isDeclared f) f (.function (.compiled σ.next))
  | .ret v => do
    eval σ v
    throw (.returned (← pop))

def evalArguments (σ : Scoping) : List Node → Eval Unit
  | [] => return ()
  | n :: ns => do
    eval σ n
    evalArguments (σ.after n) ns

def evalBlock (σ : Scoping) : List Node → Eval Unit
  | [] => return ()
  | n :: ns => do
    eval σ n
    if n.isExpression then
      discard pop
    evalBlock (σ.after n) ns

end

end Node

namespace Routine

variable (host : Host) (invoke : Nat → Eval Unit) (fuel : Nat)

/-- The arguments are on the stack with the last one on top. -/
def evalBody (r : Routine) : Eval Unit := do
  Eval.bindParameters r.params.reverse
  Node.evalBlock host invoke fuel r.scoping r.body

/-- A call of the function.  It leaves the frames that were there before it, and its result. -/
def eval (r : Routine) : Eval Unit := do
  let depth := (← get).frames.length
  Eval.openFrame
  let v ← Eval.result (r.evalBody host invoke fuel)
  modify fun s => { s with frames := s.frames.drop (s.frames.length - depth) }
  Machine.push v

end Routine

namespace Script

/-- The function with a number; the script itself has the number zero. -/
def routine? (ns : List Node) : Nat → Option Routine
  | 0 => none
  | k + 1 => (routines ns)[k]?

def invoke (host : Host) (ns : List Node) : (fuel : Nat) → Nat → Eval Unit
  | 0, _ => throw .exhausted
  | fuel + 1, id =>
    match routine? ns id with
    | none => throw (.failed (.missingCode id))
    | some r => r.eval host (invoke host ns fuel) fuel

/-- Evaluates a script from the beginning to its end or to a return outside of functions, and
then flushes the sink. -/
def evaluate (host : Host) (ns : List Node) (fuel : Nat) : EStateM.Result Interrupt Store Unit :=
  let script : Eval Unit := do
    let _ ← Eval.result (Node.evalBlock host (invoke host ns fuel) fuel .start ns)
    Machine.flush host
  script .initial

end Script

end Scriptlet
