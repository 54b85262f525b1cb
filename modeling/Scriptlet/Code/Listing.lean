import Scriptlet.Code.Program

/-! A readable listing of programs.  A stream is cut into entries, each at its address: an
operation with its operand, or a slot that is no operation.  Addresses that a jump leads to
are marked. -/

namespace Scriptlet

namespace CodeListing

inductive Entry
  | operation (op : Opcode) (operand : Option Slot)
  | unknown (tag : UInt8)
  | stray (slot : Slot)
  deriving DecidableEq

def entries (ip : Nat) : List Slot → List (Nat × Entry)
  | [] => []
  | .op tag :: slots =>
    match Opcode.ofTag? tag with
    | none => (ip, .unknown tag) :: entries (ip + 1) slots
    | some op =>
      if op.hasOperand then
        match slots with
        | [] => [(ip, .operation op none)]
        | operand :: slots => (ip, .operation op (some operand)) :: entries (ip + 2) slots
      else (ip, .operation op none) :: entries (ip + 1) slots
  | slot :: slots => (ip, .stray slot) :: entries (ip + 1) slots

def isJump : Slot → Bool
  | .op tag => tag == Opcode.jump.tag || tag == Opcode.jumpIfFalse.tag
  | _ => false

/-- The addresses that stand right after the tag of a jump. -/
def jumpTargets : List Slot → List Nat
  | a :: .target t :: slots =>
    if isJump a then t :: jumpTargets (.target t :: slots) else jumpTargets (.target t :: slots)
  | _ :: slots => jumpTargets slots
  | [] => []

def effect : Opcode → Option String
  | .notEqual => some "( a b -- bool )"
  | .getEnv => some "( id -- value )"
  | .setEnv | .setEnvGlobal => some "( id value -- )"
  | .getTable => some "( table key -- value )"
  | .setTable => some "( table key value -- )"
  | .call => some "( args... f -- result )"
  | _ => none

def operandText (op : Opcode) (ip : Nat) : Slot → String
  | .number n => Text.decimal n.toInt
  | .text s => Text.quote s
  | .name x => x
  | .code i => "code[" ++ Nat.repr i ++ "]"
  | .target t =>
    if op = .jump ∨ op = .jumpIfFalse then
      (if t ≤ ip then "↑" else "↓") ++ " (→ " ++ Text.zeroPad 4 t ++ ")"
    else "; bad operand " ++ (Slot.target t).named
  | slot => "; bad operand " ++ slot.named

def Entry.text (ip : Nat) : Entry → String
  | operation op (some operand) =>
    Text.padRight 14 op.mnemonic ++ " " ++ operandText op ip operand
  | operation op none =>
    if op.hasOperand then Text.padRight 14 op.mnemonic ++ " ; missing operand"
    else
      match effect op with
      | some e => Text.padRight 14 op.mnemonic ++ " ; " ++ e
      | none => op.mnemonic
  | unknown tag => "??          ; unknown opcode " ++ Nat.repr tag.toNat
  | stray slot => "??          ; stray operand " ++ slot.named

def rule : String := "      ┌──────────────────────────────────\n"

def line (marked : Bool) (ip : Nat) (text : String) : String :=
  (if marked then rule else "") ++ Text.zeroPad 4 ip ++ " " ++
    (if marked then "► " else "  ") ++ text ++ "\n"

def ofStream (slots : List Slot) : String :=
  let targets := jumpTargets slots
  String.join ((entries 0 slots).map fun (ip, e) => line (targets.contains ip) ip (e.text ip)) ++
    (if targets.contains slots.length then line true slots.length "<end>" else "")

def banner : String := "════════════════════════════════════════\n"

def title (id : Nat) : String := if id = 0 then "main" else "code[" ++ Nat.repr id ++ "]"

def ofCode (id : Nat) (slots : List Slot) : String :=
  banner ++ " " ++ title id ++ "\n " ++ Nat.repr slots.length ++ " slots\n" ++ banner ++
    ofStream slots ++ "\n"

def ofProgram (p : Program) : String :=
  "=== BYTECODE PROGRAM ===\n\n" ++
    String.join (p.code.toList.mapIdx fun id slots => ofCode id slots.toList)

end CodeListing

end Scriptlet
