import Scriptlet.Machine

/-! One step of the machine, and runs of many.  An operation takes its operands from the
stack before it can fail on them, and a step that fails leaves the machine at the operation
that failed. -/

namespace Scriptlet

inductive Flow
  | next
  | moved
  | halt
  deriving DecidableEq

namespace Slot

def opcode? : Slot → Option Opcode
  | op tag => Opcode.ofTag? tag
  | _ => none

end Slot

namespace Machine

/-- A builtin takes its arguments from the stack, the last one on top, and leaves one value. -/
def callBuiltin (host : Host) : Builtin → Action Unit
  | .print => do
    let v ← pop
    write host (v.display host.address ++ "\n").toUTF8
    push .nil
  | .stringLen => do
    let s ← popString
    push (.number (Int64.ofNat s.utf8ByteSize))
  | .stringByte => do
    let i ← popNumber
    let s ← popString
    push (if 0 < i then
      match s.toList[i.toInt.toNat - 1]? with
      | some c => .string c.toString
      | none => .nil
    else .nil)
  | .tableLen => do
    let id ← popTable
    push (.number ((← get).table id).border)
  | .tableSort => do
    let id ← popTable
    match ((← get).table id).sort with
    | .ok _ t =>
      setTable id t
      push .nil
    | .error (left, right) t =>
      setTable id t
      throw (.uncomparable left right)

def enter (id : Nat) : Action Unit :=
  modify fun m => { m with
    calls := ⟨m.ip + 1, m.code, m.frames.length⟩ :: m.calls
    frames := [] :: m.frames
    code := id
    ip := 0 }

def call (host : Host) : Action Flow := do
  match ← pop with
  | .function (.compiled id) =>
    if id < (← get).program.code.size then
      enter id
      return .moved
    else throw (.missingCode id)
  | .function (.builtin b) =>
    callBuiltin host b
    return .next
  | v => throw (.notCallable v.kind)

def doReturn : Action Flow := do
  let v ← pop
  match (← get).calls with
  | [] => return .halt
  | a :: calls =>
    modify fun m => { m with
      calls := calls
      frames := m.frames.drop (m.frames.length - a.depth)
      code := a.code
      ip := a.ip }
    push v
    return .moved

def badOperand (op : Opcode) : Action α := do
  let m ← get
  throw (.badOperand op m.code m.ip)

def goTo (address : Nat) : Action Flow := do
  modify fun m => { m with ip := address }
  return .moved

def perform (host : Host) : Opcode → Option Slot → Action Flow
  | .pushFalse, _ => do push (.boolean false); return .next
  | .pushTrue, _ => do push (.boolean true); return .next
  | .pushNil, _ => do push .nil; return .next
  | .pushNumber, some (.number n) => do push (.number n); return .next
  | .pushString, some (.text s) => do push (.string s); return .next
  | .pushId, some (.name x) => do push (.string x); return .next
  | .pushFunction, some (.code id) => do push (.function (.compiled id)); return .next
  | .newTable, _ => do push (.table (← newTable)); return .next
  | .notEqual, _ => do
    let b ← pop
    let a ← pop
    push (.boolean !(a.equal b))
    return .next
  | .increment, _ => do
    let n ← popNumber
    if n = Int64.maxValue then throw .overflow
    else
      push (.number (n + 1))
      return .next
  | .swap, _ => do
    let b ← pop
    let a ← pop
    push b
    push a
    return .next
  | .pop, _ => do discard pop; return .next
  | .getEnv, _ => do
    let x ← popString
    push ((← get).lookup x)
    return .next
  | .setEnv, _ => do
    let v ← pop
    let x ← popString
    match (← get).frames with
    | [] => throw .scopeUnderflow
    | f :: fs =>
      modify fun m => { m with frames := f.bind x v :: fs }
      return .next
  | .setEnvGlobal, _ => do
    let v ← pop
    let x ← popString
    match (← get).frames with
    | [] => throw .scopeUnderflow
    | _ :: _ =>
      define x v
      return .next
  | .enterScope, _ => do
    modify fun m => { m with frames := [] :: m.frames }
    return .next
  | .leaveScope, _ => do
    if (← get).frames.length ≤ 1 then throw .scopeUnderflow
    else
      modify fun m => { m with frames := m.frames.tail }
      return .next
  | .getTable, _ => do
    let key ← pop
    let id ← popIndexable
    let m ← get
    push (match Key.ofValue? key with
      | some k => (m.table id).get k
      | none => .nil)
    return .next
  | .setTable, _ => do
    let v ← pop
    let key ← pop
    let id ← popIndexable
    match Key.ofValue? key with
    | some k =>
      setTable id (((← get).table id).set k v)
      return .next
    | none => throw (.invalidKey key.kind)
  | .jump, some (.target a) => goTo a
  | .jumpIfFalse, some (.target a) => do
    if (← pop).isTruthy then return .next else goTo a
  | .call, _ => call host
  | .ret, _ => doReturn
  | .noOp, _ => return .next
  | op, _ => badOperand op

/-- Does one operation and tells whether the program goes on.  A program halts at the end of
its script; the end of any other stream is a return of nil. -/
def step (host : Host) : Action Bool := do
  let m ← get
  match m.program.code[m.code]? with
  | none => throw (.missingCode m.code)
  | some slots =>
    match slots[m.ip]? with
    | none =>
      if m.calls.isEmpty then return false
      else
        push .nil
        return (← doReturn) ≠ .halt
    | some slot =>
      match slot.opcode? with
      | none => throw (.unknownOpcode m.code m.ip slot)
      | some op =>
        match ← perform host op slots[m.ip + 1]? with
        | .next =>
          modify fun m => { m with ip := m.ip + op.width }
          return true
        | .moved => return true
        | .halt => return false

/-- Runs at most `fuel` steps and flushes the sink at the halt.  Tells whether the program
halted. -/
def run (host : Host) : (fuel : Nat) → Action Bool
  | 0 => return false
  | fuel + 1 => do
    if ← step host then run host fuel
    else
      flush host
      return true

end Machine

end Scriptlet
