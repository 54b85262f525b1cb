import Scriptlet.Machine.Step

/-! What a machine reports of its calls and returns.  `trace?` tells from a machine what the
step before it will report. -/

namespace Scriptlet

inductive Trace
  | called (id code ip depth : Nat)
  | calledBuiltin (b : Builtin)
  | haltedByReturn
  | returned (code toCode toIp : Nat)
  deriving DecidableEq

namespace Machine

def returnTrace (m : Machine) : Trace :=
  match m.calls with
  | [] => .haltedByReturn
  | a :: _ => .returned m.code a.code a.ip

def callTrace? (m : Machine) : Option Trace :=
  match m.stack with
  | .function (.compiled id) :: _ =>
    if id < m.program.code.size then some (.called id m.code m.ip (m.calls.length + 1)) else none
  | .function (.builtin b) :: _ => some (.calledBuiltin b)
  | _ => none

def trace? (m : Machine) : Option Trace := do
  let slots ← m.program.code[m.code]?
  match slots[m.ip]? with
  | none => if m.calls.isEmpty then none else some m.returnTrace
  | some slot =>
    match ← slot.opcode? with
    | .call => m.callTrace?
    | .ret => if m.stack.isEmpty then none else some m.returnTrace
    | _ => none

def traces (host : Host) : (fuel : Nat) → (earlier : Array Trace) → Machine → Array Trace
  | 0, earlier, _ => earlier
  | fuel + 1, earlier, m =>
    let seen := match m.trace? with
      | some t => earlier.push t
      | none => earlier
    match step host m with
    | .ok true next => traces host fuel seen next
    | _ => seen

end Machine

end Scriptlet
