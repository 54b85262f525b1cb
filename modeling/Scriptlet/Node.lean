/-! The tree of a script.  Statements and expressions share one type, so that a tree may
hold any node anywhere; `isExpression` tells the nodes that leave a value behind, and
`isTarget` those that an assignment may store into. -/

namespace Scriptlet

inductive Literal
  | number (n : Int64)
  | string (s : String)
  | boolean (b : Bool)
  | variable (name : String)
  | table
  deriving DecidableEq

inductive Node
  | value (literal : Literal)
  | notEqual (lhs rhs : Node)
  | call (receiver : Option String) (function : String) (args : List Node)
  | index (base : String) (key : Node)
  | assign (isLocal : Bool) (target value : Node)
  | ifThen (condition : Node) (body : List Node)
  | forLoop (initial bound : Node) (body : List Node)
  | function (name : String) (params : List String) (body : List Node)
  | ret (value : Node)

inductive NodeKind
  | variable | tableLiteral | literal | binaryOperation | call | index | assignment
  | ifThen | forLoop | function | ret
  deriving DecidableEq

def NodeKind.text : NodeKind → String
  | .variable => "variable"
  | .tableLiteral => "table literal"
  | .literal => "literal"
  | .binaryOperation => "binary operation"
  | .call => "call"
  | .index => "index"
  | .assignment => "assignment"
  | .ifThen => "if"
  | .forLoop => "for"
  | .function => "function"
  | .ret => "return"

namespace Node

def kind : Node → NodeKind
  | value (.variable _) => .variable
  | value .table => .tableLiteral
  | value _ => .literal
  | notEqual _ _ => .binaryOperation
  | call _ _ _ => .call
  | index _ _ => .index
  | assign _ _ _ => .assignment
  | ifThen _ _ => .ifThen
  | forLoop _ _ _ => .forLoop
  | function _ _ _ => .function
  | ret _ => .ret

def isExpression : Node → Bool
  | value _ | notEqual _ _ | call _ _ _ | index _ _ => true
  | _ => false

def isTarget : Node → Bool
  | value (.variable _) | index _ _ => true
  | _ => false

end Node

end Scriptlet
