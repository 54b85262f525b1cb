/-! Files under their paths.  `Files` is what a command asks of the files of a system.  A `Disk` is
a small file system: what stands under its root, and the directory from which relative paths
start. -/

namespace Scriptlet

/-- An error comes with its reason.  A write that fails may still have changed a file. -/
class Files (σ : Type) where
  read : σ → (path : String) → Except String ByteArray
  write : (path : String) → (content : ByteArray) → EStateM String σ Unit

inductive DiskError
  | notFound | notDirectory | isDirectory
  deriving DecidableEq

def DiskError.message : DiskError → String
  | notFound => "No such file or directory (os error 2)"
  | notDirectory => "Not a directory (os error 20)"
  | isDirectory => "Is a directory (os error 21)"

inductive DiskItem
  | file (content : ByteArray)
  | directory

/-- The items under the root, each at the names that lead to it from there. -/
structure Disk where
  items : List (List String × DiskItem) := []
  home : List String := ["home"]

namespace Disk

/-- The working directory is always there, and so are those that lead to it. -/
def item? (d : Disk) (names : List String) : Option DiskItem :=
  if names <+: d.home then some .directory else d.items.lookup names

def put (d : Disk) (names : List String) (item : DiskItem) : Disk :=
  { d with items := (names, item) :: d.items.filter (·.1 ≠ names) }

def parts (path : String) : List String := (path.toList.splitOn '/').map String.ofList

/-- One part of a path: nothing and a single dot stay, two dots go up, though not from the root. -/
def next (here : List String) (part : String) : List String :=
  if part = "" ∨ part = "." then here
  else if part = ".." then here.dropLast
  else here ++ [part]

def start (d : Disk) (path : String) : List String :=
  if path.toList.head? = some '/' then [] else d.home

def addFrom (d : Disk) (item : DiskItem) (here : List String) : List String → Disk
  | [] => d.put here item
  | part :: parts => (d.put here .directory).addFrom item (next here part) parts

def add (d : Disk) (path : String) (item : DiskItem) : Disk :=
  d.addFrom item (d.start path) (parts path)

/-- Where the parts of a path lead from `here`, through directories.  Only the last item may
be absent. -/
def walk (d : Disk) (here : List String) : List String → Except DiskError (List String)
  | [] => .ok here
  | part :: parts =>
    match d.item? here with
    | none => .error .notFound
    | some (.file _) => .error .notDirectory
    | some .directory => d.walk (next here part) parts

def resolve (d : Disk) (path : String) : Except DiskError (List String) :=
  if path = "" then .error .notFound else d.walk (d.start path) (parts path)

def read (d : Disk) (path : String) : Except DiskError ByteArray := do
  match d.item? (← d.resolve path) with
  | some (.file content) => return content
  | some .directory => throw .isDirectory
  | none => throw .notFound

def write (d : Disk) (path : String) (content : ByteArray) : Except DiskError Disk := do
  let names ← d.resolve path
  match d.item? names with
  | some .directory => throw .isDirectory
  | _ => return d.put names (.file content)

instance : Files Disk where
  read d path := (d.read path).mapError DiskError.message
  write path content d :=
    match d.write path content with
    | .ok d => .ok () d
    | .error e => .error e.message d

end Disk

end Scriptlet
