import Scriptlet.Code.Opcode
import Scriptlet.Text.Quoted

/-! Programs.  A stream is a row of slots in which operations and their operands stand side
by side; a program is a table of streams, the script itself at index zero and after it one
stream for every function. -/

namespace Scriptlet

inductive Slot
  | op (tag : UInt8)
  | number (n : Int64)
  | text (s : String)
  | name (s : String)
  | target (address : Nat)
  | code (id : Nat)
  deriving DecidableEq

namespace Slot

def ofOpcode (o : Opcode) : Slot := .op o.tag

def named : Slot → String
  | op tag => "Op(" ++ Nat.repr tag.toNat ++ ")"
  | number n => "Number(" ++ Text.decimal n.toInt ++ ")"
  | text s => "Str(" ++ Text.quote s ++ ")"
  | name s => "Name(" ++ Text.quote s ++ ")"
  | target a => "Target(" ++ Nat.repr a ++ ")"
  | code i => "Code(" ++ Nat.repr i ++ ")"

def operandKind? : Slot → Option OperandKind
  | op _ => none
  | number _ => some .number
  | text _ => some .text
  | name _ => some .name
  | target _ => some .target
  | code _ => some .code

end Slot

structure Program where
  code : Array (Array Slot)
  deriving DecidableEq

end Scriptlet
