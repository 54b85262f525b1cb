import Scriptlet.Code.Program
import Scriptlet.Value

/-! The ways in which a running program fails. -/

namespace Scriptlet

inductive Fault
  | unknownOpcode (code ip : Nat) (found : Slot)
  | badOperand (op : Opcode) (code ip : Nat)
  | missingCode (id : Nat)
  | stackUnderflow
  | scopeUnderflow
  | wrongKind (expected found : ValueKind)
  | overflow
  | notCallable (found : ValueKind)
  | notIndexable (found : ValueKind)
  | invalidKey (found : ValueKind)
  | uncomparable (left right : ValueKind)
  | output (reason : String)
  deriving DecidableEq

namespace Fault

def site (code ip : Nat) : String := "code[" ++ Nat.repr code ++ "] ip " ++ Nat.repr ip

def foundText : Slot → String
  | .op tag => "tag " ++ Nat.repr tag.toNat
  | slot => "operand slot " ++ slot.named

def reason : Fault → String
  | unknownOpcode code ip found =>
    "unknown opcode at " ++ site code ip ++ ": " ++ foundText found
  | badOperand op code ip => "bad operand for " ++ op.mnemonic ++ " at " ++ site code ip
  | missingCode id => "no code object " ++ Nat.repr id
  | stackUnderflow => "stack underflow"
  | scopeUnderflow => "leave-scope would drop the global frame"
  | wrongKind expected found =>
    "type error: expected " ++ expected.text ++ ", got " ++ found.text
  | overflow => "integer overflow"
  | notCallable found => "attempt to call a " ++ found.text ++ " value"
  | notIndexable found => "attempt to index a " ++ found.text ++ " value"
  | invalidKey found => "invalid table key of type " ++ found.text
  | uncomparable left right => "cannot compare " ++ left.text ++ " with " ++ right.text
  | output why => "output: " ++ why

def message (f : Fault) : String := "runtime error: " ++ f.reason

end Fault

end Scriptlet
