import Scriptlet.Node
import Scriptlet.Text.Numeral

/-! The graph of a tree.  Nodes are numbered in the order in which a reader meets them, a
parent before its parts; parents point at their parts, and the statements of one list stand
side by side, each pointing at the next. -/

namespace Scriptlet

namespace Node

mutual

def size : Node → Nat
  | value _ => 1
  | notEqual lhs rhs => 1 + lhs.size + rhs.size
  | call _ _ args => 1 + sizeAll args
  | index _ key => 1 + key.size
  | assign _ target v => 1 + target.size + v.size
  | ifThen condition body => 1 + condition.size + sizeAll body
  | forLoop initial bound body => 1 + initial.size + bound.size + sizeAll body
  | function _ _ body => 1 + sizeAll body
  | ret v => 1 + v.size

def sizeAll : List Node → Nat
  | [] => 0
  | n :: ns => n.size + sizeAll ns

end

end Node

namespace Graph

inductive Line
  | label (node : Nat) (text : String)
  | edge (source target : Nat)
  | sameRank (nodes : List Nat)
  deriving DecidableEq

def neighbours (ks : List Nat) : List (Nat × Nat) := ks.zip ks.tail

def chain (ks : List Nat) : List Line :=
  (if 1 < ks.length then [.sameRank ks] else []) ++
    (neighbours ks).map fun (a, b) => .edge a b

/-- The numbers of the members of a list whose first member has the number `k`. -/
def numbers (k : Nat) : List Node → List Nat
  | [] => []
  | n :: ns => k :: numbers (k + n.size) ns

def literalText : Literal → String
  | .number n => Text.decimal n.toInt
  | .string s => s
  | .boolean b => if b then "true" else "false"
  | .variable x => x
  | .table => "\x7b\x7d"

def labelText : Node → String
  | .value l => literalText l
  | .notEqual _ _ => "~="
  | .call (some r) f _ => r ++ "." ++ f ++ "()"
  | .call none f _ => f ++ "()"
  | .index base _ => base ++ "[]"
  | .assign _ _ _ => "="
  | .ifThen _ _ => "if"
  | .forLoop _ _ _ => "for"
  | .function f params _ => "function " ++ f ++ "(" ++ String.intercalate "," params ++ ")"
  | .ret _ => "return"

def linkBody (parent k : Nat) (body : List Node) : List Line :=
  chain (numbers k body) ++ ((numbers k body).head?.map (Line.edge parent)).toList

mutual

def draw (k : Nat) (n : Node) : List Line :=
  match n with
  | .value _ => [.label k (labelText n)]
  | .notEqual lhs rhs =>
    draw (k + 1) lhs ++ draw (k + 1 + lhs.size) rhs ++
      [.label k (labelText n), .edge k (k + 1), .edge k (k + 1 + lhs.size)]
  | .call _ _ args =>
    drawAll (k + 1) args ++ [.label k (labelText n)] ++
      (numbers (k + 1) args).map (Line.edge k)
  | .index _ key => draw (k + 1) key ++ [.label k (labelText n), .edge k (k + 1)]
  | .assign _ target value =>
    draw (k + 1) target ++ draw (k + 1 + target.size) value ++
      [.label k (labelText n), .edge k (k + 1), .edge k (k + 1 + target.size)]
  | .ifThen condition body =>
    draw (k + 1) condition ++ [.label k (labelText n), .edge k (k + 1)] ++
      drawAll (k + 1 + condition.size) body ++ linkBody k (k + 1 + condition.size) body
  | .forLoop initial bound body =>
    draw (k + 1) initial ++ draw (k + 1 + initial.size) bound ++
      [.label k (labelText n), .edge k (k + 1), .edge k (k + 1 + initial.size)] ++
      drawAll (k + 1 + initial.size + bound.size) body ++
      linkBody k (k + 1 + initial.size + bound.size) body
  | .function _ _ body =>
    [.label k (labelText n)] ++ drawAll (k + 1) body ++ linkBody k (k + 1) body
  | .ret value => draw (k + 1) value ++ [.label k (labelText n), .edge k (k + 1)]

def drawAll (k : Nat) : List Node → List Line
  | [] => []
  | n :: ns => draw k n ++ drawAll (k + n.size) ns

end

def ofNodes (ns : List Node) : List Line := drawAll 1 ns ++ chain (numbers 1 ns)

def escapeLabel (s : String) : String :=
  String.join (s.toList.map fun
    | '\\' => "\\\\"
    | '"' => "\\\""
    | c => c.toString)

def nodeName (k : Nat) : String := "node" ++ Nat.repr k

def Line.text : Line → String
  | label k s => nodeName k ++ "[label=\"" ++ escapeLabel s ++ "\"]"
  | edge a b => nodeName a ++ " -> " ++ nodeName b
  | sameRank ks => "\x7b rank=same; " ++ String.intercalate ";" (ks.map nodeName) ++ " \x7d"

def text (ns : List Node) : String :=
  String.join ((["digraph Ast \x7b"] ++ (ofNodes ns).map Line.text ++ ["\x7d"]).map (· ++ "\n"))

end Graph

end Scriptlet
