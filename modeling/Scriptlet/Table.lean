import Scriptlet.Value

/-! Tables from numbers and strings to values.  Storing nil removes a key, so a key that is
present has a value.  The border of a table is the length of its sequence part: the largest
`n` such that the keys from one to `n` are all present. -/

namespace Scriptlet

inductive Key
  | number (n : Int64)
  | string (s : String)
  deriving DecidableEq

namespace Key

def ofValue? : Value → Option Key
  | .number n => some (number n)
  | .string s => some (string s)
  | _ => none

def toValue : Key → Value
  | number n => .number n
  | string s => .string s

@[simp] theorem ofValue?_toValue (k : Key) : ofValue? k.toValue = some k := by
  cases k <;> rfl

def le : Key → Key → Bool
  | number a, number b => a ≤ b
  | number _, string _ => true
  | string _, number _ => false
  | string a, string b => a ≤ b

end Key

structure Table where
  entries : List (Key × Value) := []
  deriving DecidableEq

namespace Table

def empty : Table := {}

def get (t : Table) (k : Key) : Value := (t.entries.lookup k).getD .nil

def set (t : Table) (k : Key) (v : Value) : Table :=
  let others := t.entries.filter (·.1 ≠ k)
  ⟨if v.isNil then others else (k, v) :: others⟩

@[simp] theorem get_empty (k : Key) : empty.get k = .nil := rfl

def ofList (entries : List (Key × Value)) : Table :=
  entries.foldl (fun t e => t.set e.1 e.2) empty

def sortedEntries (t : Table) : List (Key × Value) :=
  t.entries.mergeSort fun a b => Key.le a.1 b.1

def positiveKey? : Key × Value → Option Int64
  | (.number n, _) => if 0 < n then some n else none
  | _ => none

/-- How far ascending numbers go on from `n` without a gap. -/
def runFrom (n : Int64) : List Int64 → Int64
  | [] => n
  | k :: ks => if k = n + 1 then runFrom k ks else n

def border (t : Table) : Int64 :=
  runFrom 0 ((t.entries.filterMap positiveKey?).mergeSort (· ≤ ·))

def sequenceKeys (t : Table) : List Key :=
  (List.range t.border.toInt.toNat).map fun i => .number (Int64.ofNat (i + 1))

def uncomparable? : List Value → Option (ValueKind × ValueKind)
  | a :: b :: vs =>
    if (a.compare? b).isNone then some (a.kind, b.kind) else uncomparable? (b :: vs)
  | _ => none

def notAbove (a b : Value) : Bool := a.compare? b != some .gt

def store (t : Table) (entries : List (Key × Value)) : Table :=
  entries.foldl (fun t e => t.set e.1 e.2) t

/-- Puts the values of the sequence part in ascending order; other keys keep theirs. -/
def sort (t : Table) : EStateM.Result (ValueKind × ValueKind) Table Unit :=
  let values := t.sequenceKeys.map t.get
  match uncomparable? values with
  | some kinds => .error kinds t
  | none => .ok () (t.store (t.sequenceKeys.zip (values.mergeSort notAbove)))

theorem eq_of_sort_eq_error {t t' : Table} {kinds : ValueKind × ValueKind}
    (h : t.sort = .error kinds t') : t' = t := by
  simp only [sort] at h
  split at h <;> cases h
  rfl

def sortSequence (t : Table) : Except (ValueKind × ValueKind) Table :=
  match t.sort with
  | .ok _ t => .ok t
  | .error kinds _ => .error kinds

end Table

end Scriptlet
