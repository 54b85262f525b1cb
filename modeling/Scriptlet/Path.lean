/-! File names.  The extension of a file is what follows the last dot of its name, unless
that dot is the first character of the name. -/

namespace Scriptlet.Path

/-- A path, last character first, without separators and single dots at its end. -/
def stripEnd : List Char → List Char
  | '/' :: cs => stripEnd cs
  | '.' :: '/' :: cs => stripEnd ('/' :: cs)
  | cs => cs

def reversed (path : String) : List Char := stripEnd path.toList.reverse

def fileName? (path : String) : Option (List Char) :=
  let name := ((reversed path).takeWhile (· ≠ '/')).reverse
  if name = [] ∨ name = ['.'] ∨ name = ['.', '.'] then none else some name

def extensionOf (name : List Char) : Option (List Char) :=
  let after := (name.reverse.takeWhile (· ≠ '.')).reverse
  if name.length ≤ after.length + 1 then none else some after

def extension? (path : String) : Option String :=
  ((fileName? path).bind extensionOf).map String.ofList

/-- The path with its extension replaced, or with one added if it has none.  The new extension
goes to the path up to its last dot; if that ends in two dots and names the directory above,
it stays as it is. -/
def withExtension (path ext : String) : String :=
  match fileName? path with
  | none => path
  | some name =>
    match extensionOf name with
    | none => String.ofList (reversed path).reverse ++ "." ++ ext
    | some old =>
      let upToDot := String.ofList ((reversed path).drop old.length).reverse
      if (fileName? upToDot).isNone then upToDot else upToDot ++ ext

end Scriptlet.Path
