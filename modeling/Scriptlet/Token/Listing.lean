import Scriptlet.Token
import Scriptlet.Text.Quoted

/-! A listing of tokens, one line for each: its place, its class, and its text, which is
either the spelled form of messages or the name with its quoted payload.  Colours are
terminal escapes around class and text. -/

namespace Scriptlet

namespace Token

def classOf : Token → String
  | newline => "NEWLINE"
  | comment _ => "COMMENT"
  | eof => "EOF"
  | number _ => "NUMBER"
  | string _ => "STRING"
  | keyword .trueKw | keyword .falseKw => "BOOL"
  | keyword _ => "KEYWORD"
  | ident _ => "IDENT"
  | symbol .lparen | symbol .rparen => "PAREN"
  | symbol .lbracket | symbol .rbracket => "BRACKET"
  | symbol .lbrace | symbol .rbrace => "BRACE"
  | symbol .notEq => "CMP"
  | symbol _ => "PUNCT"

def named : Token → String
  | number n => "Number(" ++ Text.decimal n.toInt ++ ")"
  | string s => "String(" ++ Text.quote s ++ ")"
  | ident x => "Ident(" ++ Text.quote x ++ ")"
  | comment c => "Comment(" ++ Text.quote c ++ ")"
  | t => t.name

def spelled : Token → String
  | comment c => "-- " ++ c
  | t => t.caption

end Token

namespace TokenListing

inductive Color
  | plain | dim | green | yellow | cyan | magenta
  deriving DecidableEq

def Color.code : Color → String
  | plain => "\x1b[0m"
  | dim => "\x1b[2m"
  | green => "\x1b[32m"
  | yellow => "\x1b[33m"
  | cyan => "\x1b[36m"
  | magenta => "\x1b[35m"

def colorOf : Token → Color
  | .newline | .comment _ | .eof => .dim
  | .string _ => .green
  | .number _ | .keyword .trueKw | .keyword .falseKw => .cyan
  | .ident _ => .yellow
  | .symbol .notEq | .symbol .assign => .magenta
  | _ => .plain

structure Style where
  colored : Bool := true
  spelled : Bool := false
  deriving DecidableEq

def Style.paint (style : Style) (c : Color) : String := if style.colored then c.code else ""

def line (style : Style) (t : Located) : String :=
  "[" ++ Text.zeroPad 2 t.place.line ++ ":" ++ Text.zeroPad 2 t.place.col ++ "] " ++
    style.paint (colorOf t.token) ++ Text.padRight 8 t.token.classOf ++ " " ++
    (if style.spelled then t.token.spelled else t.token.named) ++ style.paint .plain

def ofTokens (style : Style) (ts : List Located) : String :=
  String.join (ts.map fun t => line style t ++ "\n")

end TokenListing

end Scriptlet
