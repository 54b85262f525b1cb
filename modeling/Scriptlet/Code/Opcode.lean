/-! The operations of the machine.  Each has a tag, by which a stream refers to it, and some
take one operand from the slot after them. -/

namespace Scriptlet

inductive Opcode
  | pushFalse | pushTrue | pushNil | pushNumber | pushString | pushId | pushFunction | newTable
  | notEqual | increment
  | swap | pop
  | getEnv | setEnv | setEnvGlobal | enterScope | leaveScope
  | getTable | setTable
  | jump | jumpIfFalse | call | ret | noOp
  deriving DecidableEq

inductive OperandKind
  | number | text | name | code | target
  deriving DecidableEq

namespace Opcode

def all : List Opcode :=
  [pushFalse, pushTrue, pushNil, pushNumber, pushString, pushId, pushFunction, newTable,
    notEqual, increment, swap, pop, getEnv, setEnv, setEnvGlobal, enterScope, leaveScope,
    getTable, setTable, jump, jumpIfFalse, call, ret, noOp]

def tag (op : Opcode) : UInt8 := UInt8.ofNat (all.idxOf op)

def ofTag? (tag : UInt8) : Option Opcode := all[tag.toNat]?

@[simp] theorem ofTag?_tag (op : Opcode) : ofTag? op.tag = some op := by
  cases op <;> decide

theorem tag_injective {a b : Opcode} (h : a.tag = b.tag) : a = b := by
  simpa using congrArg ofTag? h

def operandKind? : Opcode → Option OperandKind
  | pushNumber => some .number
  | pushString => some .text
  | pushId => some .name
  | pushFunction => some .code
  | jump | jumpIfFalse => some .target
  | _ => none

def hasOperand (op : Opcode) : Bool := op.operandKind?.isSome

def width (op : Opcode) : Nat := if op.hasOperand then 2 else 1

def mnemonic : Opcode → String
  | pushFalse => "PUSH_FALSE"
  | pushTrue => "PUSH_TRUE"
  | pushNil => "PUSH_NIL"
  | pushNumber => "PUSH_NUMBER"
  | pushString => "PUSH_STRING"
  | pushId => "PUSH_ID"
  | pushFunction => "PUSH_FUNCTION"
  | newTable => "NEW_TABLE"
  | notEqual => "NOT_EQUAL"
  | increment => "INCREMENT"
  | swap => "SWAP"
  | pop => "POP"
  | getEnv => "GET_ENV"
  | setEnv => "SET_ENV"
  | setEnvGlobal => "SET_ENV_GLOBAL"
  | enterScope => "ENTER_SCOPE"
  | leaveScope => "LEAVE_SCOPE"
  | getTable => "GET_TABLE"
  | setTable => "SET_TABLE"
  | jump => "JUMP"
  | jumpIfFalse => "JUMP_IF_FALSE"
  | call => "CALL"
  | ret => "RETURN"
  | noOp => "NO_OP"

end Opcode

end Scriptlet
