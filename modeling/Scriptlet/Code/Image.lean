import Scriptlet.Code.Program

/-! Programs as bytes.  Numbers are written seven bits to a byte, low bits first, with the
high bit set on all but the last byte; signed numbers go through the zigzag; texts and lists
are preceded by their length.  Reading accepts longer forms of a number than writing makes,
up to the size of a machine word, and ignores what follows the program. -/

namespace Scriptlet

namespace Image

inductive Error
  | unexpectedEnd | badVarint | badUtf8 | unknownVariant
  deriving DecidableEq

def Error.message : Error → String
  | unexpectedEnd => "Hit the end of buffer, expected more data"
  | badVarint => "Found a varint that didn't terminate. Is the usize too big for this platform?"
  | badUtf8 => "Tried to parse invalid utf-8"
  | unknownVariant => "Serde Deserialization Error"

abbrev Bytes := List UInt8

def zigzag : Int → Nat
  | .ofNat n => 2 * n
  | .negSucc n => 2 * n + 1

def unzigzag (n : Nat) : Int :=
  if n % 2 = 0 then .ofNat (n / 2) else .negSucc (n / 2)

@[simp] theorem unzigzag_zigzag (n : Int) : unzigzag (zigzag n) = n := by
  cases n with
  | ofNat n => simp [zigzag, unzigzag]
  | negSucc n =>
    have h₁ : (2 * n + 1) % 2 = 1 := by omega
    have h₂ : (2 * n + 1) / 2 = n := by omega
    simp [zigzag, unzigzag, h₁, h₂]

def putVarint (n : Nat) : Bytes :=
  if n < 128 then [UInt8.ofNat n]
  else UInt8.ofNat (n % 128 + 128) :: putVarint (n / 128)

def putText (s : String) : Bytes := putVarint s.utf8ByteSize ++ s.toUTF8.data.toList

def putSlot : Slot → Bytes
  | .op tag => putVarint 0 ++ [tag]
  | .number n => putVarint 1 ++ putVarint (zigzag n.toInt)
  | .text s => putVarint 2 ++ putText s
  | .name s => putVarint 3 ++ putText s
  | .target a => putVarint 4 ++ putVarint a
  | .code i => putVarint 5 ++ putVarint i

def putList (put : α → Bytes) (xs : List α) : Bytes := putVarint xs.length ++ xs.flatMap put

def encode (p : Program) : Bytes :=
  putList (fun slots => putList putSlot slots.toList) p.code.toList

abbrev Reader (α : Type) := StateT Bytes (Except Error) α

def getByte : Reader UInt8
  | [] => .error .unexpectedEnd
  | b :: bs => .ok (b, bs)

/-- A number in at most `bytes` bytes, of which the last possible one is at most `top`. -/
def getVarint (top : Nat) : (bytes : Nat) → Reader Nat
  | 0 => throw .badVarint
  | more + 1 => do
    let b ← getByte
    if b < 128 then
      if more = 0 ∧ top < b.toNat then throw .badVarint else return b.toNat
    else
      return b.toNat - 128 + 128 * (← getVarint top more)

def getWord : Reader Nat := getVarint 1 10

def getHalfWord : Reader Nat := getVarint 15 5

def getBytes (n : Nat) : Reader Bytes := fun bs =>
  if n ≤ bs.length then .ok (bs.splitAt n) else .error .unexpectedEnd

def getText : Reader String := do
  let bs ← getBytes (← getWord)
  match String.fromUTF8? ⟨bs.toArray⟩ with
  | some s => return s
  | none => throw .badUtf8

def getSlot : Reader Slot := do
  match ← getHalfWord with
  | 0 => return .op (← getByte)
  | 1 => return .number (Int64.ofInt (unzigzag (← getWord)))
  | 2 => return .text (← getText)
  | 3 => return .name (← getText)
  | 4 => return .target (← getWord)
  | 5 => return .code (← getWord)
  | _ => throw .unknownVariant

def getMany (get : Reader α) : Nat → Reader (List α)
  | 0 => return []
  | n + 1 => return (← get) :: (← getMany get n)

def getList (get : Reader α) : Reader (List α) := do getMany get (← getWord)

def getProgram : Reader Program := do
  let code ← getList (getList getSlot)
  return ⟨(code.map List.toArray).toArray⟩

def decode (bs : Bytes) : Except Error Program := do
  return (← getProgram.run bs).1

end Image

end Scriptlet
