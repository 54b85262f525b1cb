import Scriptlet.Place
import Scriptlet.Text.Numeral

/-! The tokens of a script: literals, names, keywords, symbols, and the comments and
newlines that only a listing shows.  A token has a name, which says what it is, and a
caption, which says it in a message. -/

namespace Scriptlet

inductive Keyword
  | doKw | elseKw | endKw | falseKw | forKw | functionKw | ifKw | localKw | returnKw | thenKw
  | trueKw
  deriving DecidableEq

namespace Keyword

def all : List Keyword :=
  [doKw, elseKw, endKw, falseKw, forKw, functionKw, ifKw, localKw, returnKw, thenKw, trueKw]

def spelling : Keyword → String
  | doKw => "do"
  | elseKw => "else"
  | endKw => "end"
  | falseKw => "false"
  | forKw => "for"
  | functionKw => "function"
  | ifKw => "if"
  | localKw => "local"
  | returnKw => "return"
  | thenKw => "then"
  | trueKw => "true"

def name : Keyword → String
  | doKw => "Do"
  | elseKw => "Else"
  | endKw => "End"
  | falseKw => "False"
  | forKw => "For"
  | functionKw => "Function"
  | ifKw => "If"
  | localKw => "Local"
  | returnKw => "Return"
  | thenKw => "Then"
  | trueKw => "True"

def ofSpelling? (s : String) : Option Keyword := all.find? (·.spelling = s)

@[simp] theorem ofSpelling?_spelling (k : Keyword) : ofSpelling? k.spelling = some k := by
  cases k <;> decide

end Keyword

inductive Symbol
  | colon | comma | dot | assign | notEq
  | lparen | rparen | lbracket | rbracket | lbrace | rbrace
  deriving DecidableEq

namespace Symbol

def all : List Symbol :=
  [colon, comma, dot, assign, notEq, lparen, rparen, lbracket, rbracket, lbrace, rbrace]

def spelling : Symbol → String
  | colon => ":"
  | comma => ","
  | dot => "."
  | assign => "="
  | notEq => "~="
  | lparen => "("
  | rparen => ")"
  | lbracket => "["
  | rbracket => "]"
  | lbrace => "\x7b"
  | rbrace => "\x7d"

def name : Symbol → String
  | colon => "Colon"
  | comma => "Comma"
  | dot => "Dot"
  | assign => "Assign"
  | notEq => "NotEq"
  | lparen => "LParen"
  | rparen => "RParen"
  | lbracket => "LBracket"
  | rbracket => "RBracket"
  | lbrace => "LBrace"
  | rbrace => "RBrace"

def ofChar? : Char → Option Symbol
  | ':' => some colon
  | ',' => some comma
  | '.' => some dot
  | '=' => some assign
  | '(' => some lparen
  | ')' => some rparen
  | '[' => some lbracket
  | ']' => some rbracket
  | '\x7b' => some lbrace
  | '\x7d' => some rbrace
  | _ => none

end Symbol

inductive Token
  | number (n : Int64)
  | string (s : String)
  | ident (name : String)
  | keyword (k : Keyword)
  | symbol (s : Symbol)
  | comment (text : String)
  | newline
  | eof
  deriving DecidableEq

namespace Token

def name : Token → String
  | number _ => "Number"
  | string _ => "String"
  | ident _ => "Ident"
  | keyword k => k.name
  | symbol s => s.name
  | comment _ => "Comment"
  | newline => "Newline"
  | eof => "Eof"

def caption : Token → String
  | number n => "number " ++ Text.decimal n.toInt
  | string s => "string \"" ++ s ++ "\""
  | ident x => "identifier '" ++ x ++ "'"
  | keyword k => "'" ++ k.spelling ++ "'"
  | symbol s => "'" ++ s.spelling ++ "'"
  | comment _ => "comment"
  | newline => "newline"
  | eof => "end of input"

/-- Comments and newlines do not reach the grammar. -/
def isTrivia : Token → Bool
  | comment _ | newline => true
  | _ => false

def ofWord (w : String) : Token :=
  match Keyword.ofSpelling? w with
  | some k => keyword k
  | none => ident w

@[simp] theorem ofWord_spelling (k : Keyword) : ofWord k.spelling = keyword k := by
  simp [ofWord]

end Token

structure Located where
  token : Token
  place : Place
  deriving DecidableEq

def Located.significant (ts : List Located) : List Located := ts.filter (!·.token.isTrivia)

end Scriptlet
