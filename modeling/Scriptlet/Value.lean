import Scriptlet.Text.Quoted

/-! The values of a running script.  A table is known by its place in the heap, a function
by its stream or as one of the builtins.  Two values are equal to a script if they are of one
kind and show the same content; builtins show their name. -/

namespace Scriptlet

inductive ValueKind
  | nil | boolean | number | string | table | function
  deriving DecidableEq

def ValueKind.text : ValueKind → String
  | nil => "nil"
  | boolean => "boolean"
  | number => "number"
  | string => "string"
  | table => "table"
  | function => "function"

inductive Builtin
  | print | stringLen | stringByte | tableLen | tableSort
  deriving DecidableEq

def Builtin.name : Builtin → String
  | print => "print"
  | stringLen => "len"
  | stringByte => "byte"
  | tableLen => "len"
  | tableSort => "sort"

inductive Callable
  | compiled (id : Nat)
  | builtin (b : Builtin)
  deriving DecidableEq

inductive Value
  | nil
  | boolean (b : Bool)
  | number (n : Int64)
  | string (s : String)
  | table (id : Nat)
  | function (f : Callable)
  deriving DecidableEq

def Callable.equal : Callable → Callable → Bool
  | compiled a, compiled b => a == b
  | builtin a, builtin b => a.name == b.name
  | _, _ => false

namespace Value

def kind : Value → ValueKind
  | nil => .nil
  | boolean _ => .boolean
  | number _ => .number
  | string _ => .string
  | table _ => .table
  | function _ => .function

def isNil : Value → Bool
  | nil => true
  | _ => false

def isTruthy : Value → Bool
  | nil | boolean false => false
  | _ => true

def equal : Value → Value → Bool
  | nil, nil => true
  | boolean a, boolean b => a == b
  | number a, number b => a == b
  | string a, string b => a == b
  | table a, table b => a == b
  | function f, function g => f.equal g
  | _, _ => false

def compare? : Value → Value → Option Ordering
  | number a, number b => some (compare a b)
  | string a, string b => some (compare a b)
  | _, _ => none

def truth (b : Bool) : String := if b then "true" else "false"

/-- The text of a value, where `address` tells what is shown of a table. -/
def display (address : Nat → Nat) : Value → String
  | nil => "nil"
  | boolean b => truth b
  | number n => Text.decimal n.toInt
  | string s => s
  | table id => "table: 0x" ++ Text.hex (address id)
  | function (.compiled id) => "function: <code " ++ Nat.repr id ++ ">"
  | function (.builtin b) => "function: builtin: " ++ b.name

def named? : Value → Option String
  | nil => some "Nil"
  | boolean b => some ("Bool(" ++ truth b ++ ")")
  | number n => some ("Number(" ++ Text.decimal n.toInt ++ ")")
  | string s => some ("String(" ++ Text.quote s ++ ")")
  | table _ => none
  | function (.compiled id) => some ("Function(Compiled(" ++ Nat.repr id ++ "))")
  | function (.builtin b) => some ("Function(Native(Builtin(" ++ b.name ++ ")))")

end Value

end Scriptlet
