import Scriptlet.Node
import Scriptlet.Text.Quoted

/-! The outline of a tree: every part on a line of its own, four columns deeper than what
it is a part of.  `Outline` is the shape of such a text; `Node.outline` gives a node its
shape. -/

namespace Scriptlet

inductive Outline
  | leaf (text : String)
  | labelled (label : String) (part : Outline)
  | group (opening : String) (parts : List Outline) (closing : String)

namespace Outline

def indent (depth : Nat) : String := String.ofList (List.replicate (4 * depth) ' ')

mutual

/-- Puts the outline behind a text.  The line that it begins on is already indented. -/
def renderTo (acc : String) (depth : Nat) : Outline → String
  | leaf text => acc ++ text
  | labelled label part => part.renderTo (acc ++ label ++ ": ") depth
  | group opening [] closing => acc ++ opening ++ closing
  | group opening (p :: ps) closing =>
    renderParts (acc ++ opening ++ "\n") (depth + 1) (p :: ps) ++ indent depth ++ closing

def renderParts (acc : String) (depth : Nat) : List Outline → String
  | [] => acc
  | p :: ps => renderParts (p.renderTo (acc ++ indent depth) depth ++ ",\n") depth ps

end

def render (o : Outline) : String := o.renderTo "" 0

def tuple (name : String) (parts : List Outline) : Outline := group (name ++ "(") parts ")"

def record (name : String) (parts : List Outline) : Outline :=
  group (name ++ " \x7b") parts "\x7d"

def sequence (parts : List Outline) : Outline := group "[" parts "]"

def quoted (s : String) : Outline := leaf (Text.quote s)

def truth (b : Bool) : Outline := leaf (if b then "true" else "false")

def option : Option Outline → Outline
  | none => leaf "None"
  | some o => tuple "Some" [o]

end Outline

open Outline in
def Literal.outline : Literal → Outline
  | .number n => tuple "Number" [leaf (Text.decimal n.toInt)]
  | .string s => tuple "String" [quoted s]
  | .boolean b => tuple "Boolean" [truth b]
  | .variable x => tuple "VariableRef" [quoted x]
  | .table => leaf "Table"

namespace Node

open Outline

mutual

def outline : Node → Outline
  | value l => tuple "Value" [l.outline]
  | notEqual lhs rhs =>
    record "BinaryOperation"
      [labelled "op" (leaf "NotEq"), labelled "lhs" lhs.outline, labelled "rhs" rhs.outline]
  | call receiver f args =>
    record "Call"
      [labelled "receiver" (option (receiver.map quoted)), labelled "function" (quoted f),
        labelled "args" (sequence (outlines args))]
  | index base key =>
    record "Index" [labelled "base" (quoted base), labelled "index" key.outline]
  | assign isLocal target v =>
    record "Assignment"
      [labelled "local" (truth isLocal), labelled "target" target.outline,
        labelled "value" v.outline]
  | ifThen condition body =>
    record "IfThen"
      [labelled "condition" condition.outline, labelled "body" (sequence (outlines body))]
  | forLoop initial bound body =>
    record "ForLoop"
      [labelled "initializer" initial.outline, labelled "range" bound.outline,
        labelled "body" (sequence (outlines body))]
  | function name params body =>
    record "Function"
      [labelled "name" (quoted name), labelled "params" (sequence (params.map quoted)),
        labelled "body" (sequence (outlines body))]
  | ret v => tuple "Return" [v.outline]

def outlines : List Node → List Outline
  | [] => []
  | n :: ns => n.outline :: outlines ns

end

def outlineText (ns : List Node) : String := (sequence (outlines ns)).render

end Node

end Scriptlet
