/-! Places in a text.  Lines and columns count from one, and a newline is the last
character of the line that it ends. -/

namespace Scriptlet

structure Place where
  line : Nat
  col : Nat
  deriving DecidableEq

namespace Place

def start : Place := ⟨1, 1⟩

def after (p : Place) (c : Char) : Place :=
  if c = '\n' then ⟨p.line + 1, 1⟩ else ⟨p.line, p.col + 1⟩

def advance (p : Place) (cs : List Char) : Place := cs.foldl after p

@[simp] theorem advance_nil (p : Place) : p.advance [] = p := rfl

@[simp] theorem advance_cons (p : Place) (c : Char) (cs : List Char) :
    p.advance (c :: cs) = (p.after c).advance cs := rfl

@[simp] theorem advance_append (p : Place) (cs ds : List Char) :
    p.advance (cs ++ ds) = (p.advance cs).advance ds := List.foldl_append

def text (p : Place) : String := Nat.repr p.line ++ ":" ++ Nat.repr p.col

end Place

end Scriptlet
