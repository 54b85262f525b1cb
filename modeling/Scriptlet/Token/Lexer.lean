import Scriptlet.Token
import Scriptlet.Text.Blank

/-! Reading tokens from a text.  `scan` reads one token from a text that begins with it and
counts the characters that it takes.  A `Cursor` stands in a text; `Cursor.tokens` reads on
to the end of the text, and where it fails the cursor stays where reading stopped. -/

namespace Scriptlet

inductive LexCause
  | unknownEscape (c : Char)
  | escapeAtEnd
  | unterminatedString
  | numberOutOfRange (digits : List Char)
  | unexpected (c : Char)
  deriving DecidableEq

namespace LexCause

def message : LexCause → String
  | unknownEscape c => "unknown escape sequence: \\" ++ c.toString
  | escapeAtEnd => "unexpected EOF in escape sequence"
  | unterminatedString => "unterminated string"
  | numberOutOfRange digits => "number literal out of range: " ++ String.ofList digits
  | unexpected c => "unexpected character: '" ++ c.toString ++ "'"

/-- Whether the fault lies in the literal as a whole, and so is reported where it begins. -/
def ofWhole : LexCause → Bool
  | unterminatedString | numberOutOfRange _ => true
  | _ => false

end LexCause

structure LexError where
  cause : LexCause
  place : Place
  deriving DecidableEq

def LexError.message (e : LexError) : String := e.place.text ++ ": " ++ e.cause.message

namespace Lexer

def isBlank (c : Char) : Bool := c == ' ' || c == '\t' || c == '\r'

def isWordStart (c : Char) : Bool := c.isAlpha || c == '_'

def isWordPart (c : Char) : Bool := c.isAlphanum || c == '_'

inductive Scan (α : Type)
  | found (value : α) (size : Nat)
  | slip (cause : LexCause) (size : Nat)

def Scan.behind (n : Nat) (f : α → β) : Scan α → Scan β
  | .found a k => .found (f a) (k + n)
  | .slip e k => .slip e (k + n)

def unescape : Char → Option Char
  | 'n' => some '\n'
  | 't' => some '\t'
  | 'r' => some '\r'
  | '\\' => some '\\'
  | '"' => some '"'
  | _ => none

def quoted : List Char → Scan (List Char)
  | [] => .slip .unterminatedString 0
  | '"' :: _ => .found [] 1
  | ['\\'] => .slip .escapeAtEnd 1
  | '\\' :: e :: cs =>
    match unescape e with
    | some c => (quoted cs).behind 2 (c :: ·)
    | none => .slip (.unknownEscape e) 1
  | c :: cs => (quoted cs).behind 1 (c :: ·)

def numberBound : Nat := 0x8000000000000000

def number (digits : List Char) : Scan Token :=
  let n := Text.ofDigits digits
  if n < numberBound then .found (.number (Int64.ofNat n)) digits.length
  else .slip (.numberOutOfRange digits) digits.length

def scan (c : Char) (cs : List Char) : Scan Token :=
  if c = '\n' then .found .newline 1
  else if c = '-' ∧ cs.head? = some '-' then
    let text := cs.tail.takeWhile (· ≠ '\n')
    .found (.comment (String.ofList (Text.trim text))) (text.length + 2)
  else if c = '"' then (quoted cs).behind 1 fun s => .string (String.ofList s)
  else if c.isDigit then number ((c :: cs).takeWhile Char.isDigit)
  else if isWordStart c then
    let word := (c :: cs).takeWhile isWordPart
    .found (.ofWord (String.ofList word)) word.length
  else if c = '~' ∧ cs.head? = some '=' then .found (.symbol .notEq) 2
  else
    match Symbol.ofChar? c with
    | some s => .found (.symbol s) 1
    | none => .slip (.unexpected c) 0

theorem Scan.pos_of_behind {n : Nat} {f : α → β} {s : Scan α} {b : β} {k : Nat}
    (hn : 0 < n) (h : s.behind n f = .found b k) : 0 < k := by
  cases s with
  | found a j => simp only [Scan.behind, Scan.found.injEq] at h; omega
  | slip e j => simp [Scan.behind] at h

theorem isWordPart_of_isWordStart {c : Char} (h : isWordStart c) : isWordPart c := by
  simp only [isWordStart, Bool.or_eq_true] at h
  rcases h with h | h <;> simp [isWordPart, Char.isAlphanum, h]

theorem scan_pos {c : Char} {cs : List Char} {t : Token} {n : Nat}
    (h : scan c cs = .found t n) : 0 < n := by
  unfold scan at h
  split at h
  · simp only [Scan.found.injEq] at h; omega
  split at h
  · simp only [Scan.found.injEq] at h; omega
  split at h
  · exact Scan.pos_of_behind Nat.one_pos h
  split at h
  · next hd =>
    simp only [number, List.takeWhile_cons, hd, if_true] at h
    split at h <;> simp at h
    omega
  split at h
  · next hw =>
    simp only [List.takeWhile_cons, isWordPart_of_isWordStart hw, if_true,
      Scan.found.injEq, List.length_cons] at h
    omega
  split at h
  · simp only [Scan.found.injEq] at h; omega
  split at h
  · simp only [Scan.found.injEq] at h; omega
  · simp at h

end Lexer

structure Cursor where
  place : Place
  rest : List Char
  deriving DecidableEq

namespace Cursor

def ofString (s : String) : Cursor := ⟨.start, s.toList⟩

def skip (n : Nat) (cur : Cursor) : Cursor :=
  ⟨cur.place.advance (cur.rest.take n), cur.rest.drop n⟩

@[simp] theorem rest_skip (n : Nat) (cur : Cursor) : (cur.skip n).rest = cur.rest.drop n := rfl

@[simp] theorem skip_zero (cur : Cursor) : cur.skip 0 = cur := rfl

def skipBlank (cur : Cursor) : Cursor := cur.skip (cur.rest.takeWhile Lexer.isBlank).length

theorem length_rest_skipBlank_le (cur : Cursor) :
    cur.skipBlank.rest.length ≤ cur.rest.length := by
  simp [skipBlank]

def slipAt (cause : LexCause) (first stop : Cursor) : LexError :=
  ⟨cause, if cause.ofWhole then first.place else stop.place⟩

theorem length_rest_skip_lt {cur : Cursor} {c : Char} {cs : List Char} {t : Token} {n : Nat}
    (h : cur.skipBlank.rest = c :: cs) (hs : Lexer.scan c cs = .found t n) :
    (cur.skipBlank.skip n).rest.length < cur.rest.length := by
  have hn := Lexer.scan_pos hs
  have hl := cur.length_rest_skipBlank_le
  have hc : cur.skipBlank.rest.length = cs.length + 1 := by simp [h]
  simp only [rest_skip, List.length_drop]
  omega

def tokens (cur : Cursor) : EStateM.Result LexError Cursor (List Located) :=
  match h : cur.skipBlank.rest with
  | [] => .ok [⟨.eof, cur.skipBlank.place⟩] cur.skipBlank
  | c :: cs =>
    match hs : Lexer.scan c cs with
    | .slip cause n =>
      let stop := cur.skipBlank.skip n
      .error (slipAt cause cur.skipBlank stop) stop
    | .found t n =>
      have _shorter := length_rest_skip_lt h hs
      match (cur.skipBlank.skip n).tokens with
      | .ok ts stop => .ok (⟨t, cur.skipBlank.place⟩ :: ts) stop
      | .error e stop => .error e stop
termination_by cur.rest.length
decreasing_by exact _shorter

def significantTokens (cur : Cursor) : EStateM.Result LexError Cursor (List Located) :=
  match cur.tokens with
  | .ok ts stop => .ok (Located.significant ts) stop
  | .error e stop => .error e stop

end Cursor

end Scriptlet
