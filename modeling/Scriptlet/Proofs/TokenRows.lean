import Scriptlet.Token.Listing
import Scriptlet.Proofs.Legibility

/-! The lines of a token listing.  Each token of a text begins a line with its place, and it is the
only one on that line.  Names and comments end where they began; a payload in quotes has its
newlines escaped.  But a string that is spelled out keeps its newlines, so it goes on over as many
lines more. -/

namespace Scriptlet

namespace Token

def Unbroken : Token → Prop
  | ident x => Text.InLine x
  | comment text => Text.InLine text
  | _ => True

theorem Occupies.unbroken {t : Token} {u : List Char} (h : t.Occupies u) : t.Unbroken := by
  cases h with
  | comment _ hremark _ => exact hremark.1
  | lexeme _ ht =>
    cases t with
    | ident x => exact IsName.inLine ht
    | comment text => exact ht.1
    | _ => trivial

end Token

theorem Cursor.unbroken_of_tokens {cur stop : Cursor} {ts : List Located}
    (h : cur.tokens = .ok ts stop) : ∀ t ∈ ts, t.token.Unbroken := by
  induction cur using tokens.induct generalizing ts with
  | case1 cur hr =>
    rw [tokens_of_nil hr] at h
    cases h
    simp [Token.Unbroken]
  | case2 cur c cs hr cause n hs =>
    rw [tokens_of_slip hr hs] at h
    cases h
  | case3 cur c cs hr t n hs _ us stop' hus ih =>
    rw [tokens_of_found hr hs, hus] at h
    cases h
    obtain ⟨u, rest, -, -, hlongest⟩ := Lexer.longest_of_scan hs
    exact List.forall_mem_cons.2 ⟨hlongest.occupies.unbroken, ih hus⟩
  | case4 cur c cs hr t n hs _ e stop' herror =>
    rw [tokens_of_found hr hs, herror] at h
    cases h

namespace TokenListing

variable {style : Style} {ts : List Located} {t : Located}

structure Writes (ds : List Char) (n : Nat) : Prop where
  isDigit : ∀ d ∈ ds, d.isDigit
  two_le : 2 ≤ ds.length
  value : Nat.ofDigitChars 10 ds 0 = n

def Heads (p : Place) (l : String) : Prop :=
  ∃ ds es rest, l.toList = '[' :: (ds ++ ':' :: (es ++ ']' :: rest)) ∧
    Writes ds p.line ∧ Writes es p.col

def header (p : Place) : String :=
  "[" ++ Text.zeroPad 2 p.line ++ ":" ++ Text.zeroPad 2 p.col ++ "]"

theorem inLine_header (p : Place) : Text.InLine (header p) := by
  have hcolon : Text.InLine ":" := by decide
  have hclose : Text.InLine "]" := by decide
  have hline : Text.InLine ("[" ++ Text.zeroPad 2 p.line) :=
    Text.InLine.append (by decide) (Text.inLine_zeroPad 2 p.line)
  exact ((hline.append hcolon).append (Text.inLine_zeroPad 2 p.col)).append hclose

theorem writes_zeroPad (n : Nat) : Writes (Text.zeroPad 2 n).toList n where
  isDigit _ hd := Text.isDigit_of_mem_zeroPad hd
  two_le := Text.le_length_zeroPad 2 n
  value := Text.ofDigitChars_zeroPad 2 n

theorem heads_header_append (p : Place) (s : String) : Heads p (header p ++ s) := by
  refine ⟨_, _, s.toList, ?_, writes_zeroPad p.line, writes_zeroPad p.col⟩
  simp [header]

def shown (style : Style) (t : Token) : String := if style.spelled then t.spelled else t.named

def remark (style : Style) (t : Token) : String :=
  " " ++ style.paint (colorOf t) ++ Text.padRight 8 t.classOf ++ " " ++ shown style t ++
    style.paint .plain

theorem line_eq (style : Style) (t : Located) :
    line style t = header t.place ++ remark style t.token := by
  rw [← String.toList_inj]
  simp [line, header, remark, shown]

theorem inLine_classOf (t : Token) : Text.InLine t.classOf := by
  cases t with
  | keyword k => cases k <;> decide
  | symbol s => cases s <;> decide
  | _ => simp only [Token.classOf]; decide

theorem inLine_paint (style : Style) (c : Color) : Text.InLine (style.paint c) := by
  rw [Style.paint]
  split
  · cases c <;> decide
  · decide

theorem inLine_named (t : Token) : Text.InLine t.named := by
  have hclose : Text.InLine ")" := by decide
  cases t with
  | number n => exact (Text.InLine.append (by decide) (Text.inLine_decimal _)).append hclose
  | string s | ident s | comment s =>
    exact (Text.InLine.append (by decide) (Text.inLine_quote s)).append hclose
  | keyword k => cases k <;> decide
  | symbol s => cases s <;> decide
  | newline => decide
  | eof => decide

theorem inLine_spelled {t : Token} (h : t.Unbroken) (hs : ∀ s, t ≠ .string s) :
    Text.InLine t.spelled := by
  cases t with
  | number n => exact Text.InLine.append (by decide) (Text.inLine_decimal _)
  | string s => exact absurd rfl (hs s)
  | ident x =>
    have hx : Text.InLine ("identifier '" ++ x) := Text.InLine.append (by decide) h
    exact hx.append (by decide)
  | comment text => exact Text.InLine.append (by decide) h
  | keyword k => cases k <;> decide
  | symbol s => cases s <;> decide
  | newline => decide
  | eof => decide

def breaks (style : Style) : Token → Nat
  | .string s => if style.spelled then s.toList.count '\n' else 0
  | _ => 0

theorem breaks_eq_zero_iff {t : Token} : breaks style t = 0 ↔
    (style.spelled → ∀ s, t = .string s → Text.InLine s) := by
  cases t with
  | string s => by_cases h : style.spelled <;> simp [breaks, h, Text.InLine, List.count_eq_zero]
  | _ => simp [breaks]

theorem count_shown {t : Token} (h : t.Unbroken) (style : Style) :
    (shown style t).toList.count '\n' = breaks style t := by
  rw [shown]
  split
  · next hspelled =>
    cases t with
    | string s => simp [Token.spelled, Token.caption, breaks, hspelled]
    | _ => exact List.count_eq_zero.2 (inLine_spelled h (by simp))
  · next hnamed =>
    rw [breaks_eq_zero_iff.2 fun hspelled => absurd hspelled hnamed]
    exact List.count_eq_zero.2 (inLine_named t)

theorem count_line (h : t.token.Unbroken) (style : Style) :
    (line style t).toList.count '\n' = breaks style t.token := by
  have hzero {s : String} (hs : Text.InLine s) : s.toList.count '\n' = 0 :=
    List.count_eq_zero.2 hs
  have hspace : " ".toList.count '\n' = 0 := by decide
  simp only [line_eq, remark, String.toList_append, List.count_append, count_shown h,
    hzero (inLine_header _), hzero (inLine_paint _ _), hspace,
    hzero (Text.inLine_padRight (inLine_classOf t.token)), Nat.zero_add, Nat.add_zero]

def row (style : Style) (t : Located) : List String := Text.lines (line style t)

theorem ofTokens_eq_join (style : Style) (ts : List Located) :
    ofTokens style ts = String.join ((ts.map (line style)).map (· ++ "\n")) := by
  rw [ofTokens, List.map_map]
  rfl

theorem lines_ofTokens (style : Style) (ts : List Located) :
    Text.lines (ofTokens style ts) = (ts.map (row style)).flatten ++ [""] := by
  rw [ofTokens_eq_join, Text.lines_join_flatMap, List.flatMap_map]
  rfl

theorem length_row (h : t.token.Unbroken) (style : Style) :
    (row style t).length = breaks style t.token + 1 := by
  rw [row, Text.length_lines, count_line h]

theorem length_flatten_rows (h : ∀ t ∈ ts, t.token.Unbroken) (style : Style) :
    (ts.map (row style)).flatten.length =
      (ts.map fun t => breaks style t.token).sum + ts.length := by
  induction ts with
  | nil => rfl
  | cons t ts ih =>
    obtain ⟨ht, hts⟩ := List.forall_mem_cons.1 h
    rw [List.map_cons, List.flatten_cons, List.length_append, length_row ht, ih hts, List.map_cons,
      List.sum_cons, List.length_cons]
    omega

theorem exists_heads_row (style : Style) (t : Located) :
    ∃ l, (row style t).head? = some l ∧ Heads t.place l := by
  obtain ⟨l, hl⟩ := Text.exists_head?_lines_append (inLine_header t.place) (remark style t.token)
  refine ⟨_, ?_, heads_header_append t.place l⟩
  rw [row, line_eq, hl]

/-- The listing has one line for each token, with the place of the token at its beginning, and
nothing behind the newline of the last one. -/
def OneLineEach (style : Style) (ts : List Located) : Prop :=
  ∃ ls, Text.lines (ofTokens style ts) = ls ++ [""] ∧
    List.Forall₂ (fun t l => Heads t.place l) ts ls

theorem oneLineEach_iff (h : ∀ t ∈ ts, t.token.Unbroken) :
    OneLineEach style ts ↔ ∀ t ∈ ts, breaks style t.token = 0 := by
  constructor
  · intro ⟨ls, hls, hheads⟩ t ht
    rw [lines_ofTokens] at hls
    have hlength := length_flatten_rows h style
    rw [List.append_cancel_right hls, ← hheads.length_eq] at hlength
    have hsum : (ts.map fun t => breaks style t.token).sum = 0 := by omega
    exact List.sum_eq_zero_iff.1 hsum _ (List.mem_map_of_mem ht)
  · intro hbreaks
    refine ⟨ts.map (line style), ?_, ?_⟩
    · rw [ofTokens_eq_join]
      apply Text.lines_join
      intro l hl
      obtain ⟨t, ht, rfl⟩ := List.mem_map.1 hl
      rw [Text.InLine, ← List.count_eq_zero, count_line (h t ht), hbreaks t ht]
    · rw [List.forall₂_map_right_iff, List.forall₂_same]
      intro t _
      rw [line_eq]
      exact heads_header_append t.place _

/-- In the listing of the tokens of a text, in every style, each token has lines of its own, the
first of which begins with its place; beside this one there are as many as there are newlines in a
string that is spelled out.  So each token has one line, unless strings are spelled out and one of
them holds a newline. -/
theorem lines_exact {cur stop : Cursor} (h : cur.tokens = .ok ts stop) (style : Style) :
    (∃ rows, Text.lines (ofTokens style ts) = rows.flatten ++ [""] ∧
      List.Forall₂ (fun t row => row.length = breaks style t.token + 1 ∧
        ∃ l, row.head? = some l ∧ Heads t.place l) ts rows) ∧
    (OneLineEach style ts ↔
      (style.spelled → ∀ t ∈ ts, ∀ s, t.token = .string s → Text.InLine s)) := by
  have hunbroken := Cursor.unbroken_of_tokens h
  constructor
  · refine ⟨ts.map (row style), lines_ofTokens style ts, ?_⟩
    rw [List.forall₂_map_right_iff, List.forall₂_same]
    intro t ht
    exact ⟨length_row (hunbroken t ht) style, exists_heads_row style t⟩
  · rw [oneLineEach_iff hunbroken]
    simp only [breaks_eq_zero_iff]
    exact ⟨fun hall hs t ht => hall t ht hs, fun hall t ht hs => hall hs t ht⟩

def twoNewlines : List Located :=
  [⟨.ident "x", ⟨1, 1⟩⟩, ⟨.symbol .assign, ⟨1, 3⟩⟩, ⟨.string "a\n\nb", ⟨1, 5⟩⟩,
    ⟨.comment "c", ⟨2, 4⟩⟩, ⟨.eof, ⟨2, 8⟩⟩]

theorem lines_exact_twoNewlines :
    (Cursor.ofString "x = \"a\\n\nb\" -- c").tokens = .ok twoNewlines ⟨⟨2, 8⟩, []⟩ ∧
      OneLineEach ⟨true, false⟩ twoNewlines ∧ ¬ OneLineEach ⟨true, true⟩ twoNewlines := by
  have hts : (Cursor.ofString "x = \"a\\n\nb\" -- c").tokens =
      .ok twoNewlines ⟨⟨2, 8⟩, []⟩ := by cbv
  refine ⟨hts, (lines_exact hts _).2.2 (by simp), ?_⟩
  rw [(lines_exact hts _).2]
  intro hinLine
  have hmem : ⟨.string "a\n\nb", ⟨1, 5⟩⟩ ∈ twoNewlines := by decide
  exact absurd (hinLine rfl _ hmem _ rfl) (by decide)

/-- Spelled out, the one string of the text takes two lines, and the second begins with no
place. -/
theorem not_oneLineEach_spelled :
    (Cursor.ofString "\"a\nb\"").tokens =
      .ok [⟨.string "a\nb", ⟨1, 1⟩⟩, ⟨.eof, ⟨2, 3⟩⟩] ⟨⟨2, 3⟩, []⟩ ∧
    Text.lines (ofTokens ⟨false, true⟩ [⟨.string "a\nb", ⟨1, 1⟩⟩, ⟨.eof, ⟨2, 3⟩⟩]) =
      ["[01:01] STRING   string \"a", "b\"", "[02:03] EOF      end of input", ""] ∧
    ¬ OneLineEach ⟨false, true⟩ [⟨.string "a\nb", ⟨1, 1⟩⟩, ⟨.eof, ⟨2, 3⟩⟩] := by
  have hlines : Text.lines (ofTokens ⟨false, true⟩ [⟨.string "a\nb", ⟨1, 1⟩⟩, ⟨.eof, ⟨2, 3⟩⟩]) =
      ["[01:01] STRING   string \"a", "b\"", "[02:03] EOF      end of input", ""] := by
    decide +kernel
  refine ⟨by cbv, hlines, ?_⟩
  rintro ⟨ls, hls, hheads⟩
  have hlength := congrArg List.length (hlines.symm.trans hls)
  rw [List.length_append, ← hheads.length_eq] at hlength
  simp at hlength

end TokenListing

end Scriptlet
