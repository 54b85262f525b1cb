import Scriptlet.Machine.Fault
import Scriptlet.Table

/-! The machine that runs programs: an operand stack, a stack of environment frames with the
global frame at its bottom, the calls that wait for a return, the heap of tables, and the
bytes that its sink has taken.  An `Action` may fail, and then leaves the machine as it was
when it failed. -/

namespace Scriptlet

inductive Verdict
  | taken
  | refused (kept : Nat) (reason : String)
  deriving DecidableEq

/-- Where output goes.  A sink decides by the bytes that it has taken so far. -/
structure Sink where
  write : (taken chunk : ByteArray) → Verdict
  flush : (taken : ByteArray) → Option String

def Sink.unlimited : Sink := ⟨fun _ _ => .taken, fun _ => none⟩

/-- What a machine cannot know by itself: its sink, and what it shows of tables. -/
structure Host where
  sink : Sink := .unlimited
  address : Nat → Nat

abbrev Frame := List (String × Value)

namespace Frame

def get? (f : Frame) (x : String) : Option Value := f.lookup x

def bind (f : Frame) (x : String) (v : Value) : Frame := (x, v) :: f.filter (·.1 ≠ x)

end Frame

/-- Where a call goes on after its return, and how many frames there were at it. -/
structure Activation where
  ip : Nat
  code : Nat
  depth : Nat
  deriving DecidableEq

/-- The top of the stack, the innermost frame and the latest call come first. -/
structure Machine where
  program : Program
  stack : List Value := []
  frames : List Frame
  calls : List Activation := []
  heap : Array Table
  code : Nat := 0
  ip : Nat := 0
  written : ByteArray := .empty

namespace Machine

def library (entries : List (String × Builtin)) : Table :=
  .ofList (entries.map fun (x, b) => (.string x, .function (.builtin b)))

def globals : Frame :=
  [("print", .function (.builtin .print)), ("string", .table 0), ("table", .table 1)]

def initialHeap : Array Table :=
  #[library [("len", .stringLen), ("byte", .stringByte)],
    library [("len", .tableLen), ("sort", .tableSort)]]

def ofProgram (p : Program) : Machine := { program := p, frames := [globals], heap := initialHeap }

def table (m : Machine) (id : Nat) : Table := m.heap[id]?.getD .empty

def lookup (m : Machine) (x : String) : Value := (m.frames.findSome? (·.get? x)).getD .nil

def bindGlobal (m : Machine) (x : String) (v : Value) : Machine :=
  { m with frames := m.frames.modify (m.frames.length - 1) (·.bind x v) }

def global (m : Machine) (x : String) : Value :=
  ((m.frames.getLast?).bind (·.get? x)).getD .nil

abbrev Action := EStateM Fault Machine

def push (v : Value) : Action Unit := modify fun m => { m with stack := v :: m.stack }

def pop : Action Value := do
  match (← get).stack with
  | [] => throw .stackUnderflow
  | v :: vs =>
    modify fun m => { m with stack := vs }
    return v

def popNumber : Action Int64 := do
  match ← pop with
  | .number n => return n
  | v => throw (.wrongKind .number v.kind)

def popString : Action String := do
  match ← pop with
  | .string s => return s
  | v => throw (.wrongKind .string v.kind)

def popTable : Action Nat := do
  match ← pop with
  | .table id => return id
  | v => throw (.wrongKind .table v.kind)

def popIndexable : Action Nat := do
  match ← pop with
  | .table id => return id
  | v => throw (.notIndexable v.kind)

def newTable : Action Nat :=
  modifyGet fun m => (m.heap.size, { m with heap := m.heap.push .empty })

def setTable (id : Nat) (t : Table) : Action Unit :=
  modify fun m => { m with heap := m.heap.setIfInBounds id t }

def define (x : String) (v : Value) : Action Unit := modify (·.bindGlobal x v)

/-- Hands bytes to the sink; those that it takes are written, even if it refuses the rest. -/
def write (host : Host) (chunk : ByteArray) : Action Unit := do
  match host.sink.write (← get).written chunk with
  | .taken => modify fun m => { m with written := m.written ++ chunk }
  | .refused kept reason =>
    modify fun m => { m with written := m.written ++ chunk.extract 0 kept }
    throw (.output reason)

def flush (host : Host) : Action Unit := do
  match host.sink.flush (← get).written with
  | none => return ()
  | some reason => throw (.output reason)

end Machine

end Scriptlet
