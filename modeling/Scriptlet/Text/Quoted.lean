import Scriptlet.Text.Numeral
import Scriptlet.Text.Hidden

/-! The quoted form of a text.  Quotes, backslashes and the common controls have short
escapes; any other hidden character is written by its code point. -/

namespace Scriptlet.Text

def escape : Char → String
  | '\x00' => "\\0"
  | '\t' => "\\t"
  | '\r' => "\\r"
  | '\n' => "\\n"
  | '"' => "\\\""
  | '\\' => "\\\\"
  | c =>
    if isHidden c then "\\u\x7b" ++ hex c.toNat ++ "\x7d" else c.toString

def quote (s : String) : String :=
  "\"" ++ String.join (s.toList.map escape) ++ "\""

end Scriptlet.Text
