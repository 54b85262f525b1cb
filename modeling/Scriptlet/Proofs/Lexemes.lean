import Mathlib
import Scriptlet.Token.Lexer

/-! How tokens are written, and that reading gives them back.  Neighbours stand apart by
blanks, so that no token runs into the next one; only a comment takes what follows it on its
line, and only a newline may follow it. -/

namespace Scriptlet

namespace Cursor

variable {cur cur' stop : Cursor} {c : Char} {cs : List Char} {t : Token} {n : Nat}

def precede (ls : List Located) :
    EStateM.Result LexError Cursor (List Located) → EStateM.Result LexError Cursor (List Located)
  | .ok ts stop => .ok (ls ++ ts) stop
  | .error e stop => .error e stop

@[simp] theorem precede_nil (r : EStateM.Result LexError Cursor (List Located)) :
    precede [] r = r := by
  cases r <;> rfl

theorem precede_precede (ls ls' : List Located)
    (r : EStateM.Result LexError Cursor (List Located)) :
    precede ls (precede ls' r) = precede (ls ++ ls') r := by
  cases r with
  | ok ts stop => rw [precede, precede, precede, List.append_assoc]
  | error e stop => rfl

theorem tokens_of_nil (h : cur.skipBlank.rest = []) :
    cur.tokens = .ok [⟨.eof, cur.skipBlank.place⟩] cur.skipBlank := by
  rw [tokens]
  split
  · rfl
  · next h' => cases h.symm.trans h'

theorem tokens_of_found (h : cur.skipBlank.rest = c :: cs) (hs : Lexer.scan c cs = .found t n) :
    cur.tokens = precede [⟨t, cur.skipBlank.place⟩] (cur.skipBlank.skip n).tokens := by
  rw [tokens]
  split
  · next h' => cases h.symm.trans h'
  · next h' =>
    cases h.symm.trans h'
    split
    · next hs' => cases hs.symm.trans hs'
    · next hs' =>
      cases hs.symm.trans hs'
      cases (cur.skipBlank.skip n).tokens <;> rfl

theorem tokens_of_slip {cause : LexCause} (h : cur.skipBlank.rest = c :: cs)
    (hs : Lexer.scan c cs = .slip cause n) :
    cur.tokens = .error (slipAt cause cur.skipBlank (cur.skipBlank.skip n))
      (cur.skipBlank.skip n) := by
  rw [tokens]
  split
  · next h' => cases h.symm.trans h'
  · next h' =>
    cases h.symm.trans h'
    split
    · next hs' => cases hs.symm.trans hs'; rfl
    · next hs' => cases hs.symm.trans hs'

theorem tokens_congr (h : cur.skipBlank = cur'.skipBlank) : cur.tokens = cur'.tokens := by
  cases hr : cur'.skipBlank.rest with
  | nil => rw [tokens_of_nil hr, tokens_of_nil (h ▸ hr), h]
  | cons c cs =>
    cases hs : Lexer.scan c cs with
    | found t n =>
      have hfound := tokens_of_found (h ▸ hr) hs
      rw [hfound, tokens_of_found hr hs, h]
    | slip e n => rw [tokens_of_slip hr hs, tokens_of_slip (h ▸ hr) hs, h]

theorem scan_ne_eof : Lexer.scan c cs ≠ .found .eof n := by
  cases hq : Lexer.quoted cs <;>
    grind [Lexer.scan, Lexer.Scan.behind, Lexer.number, Token.ofWord]

theorem tokens_ends {ts : List Located} (h : cur.tokens = .ok ts stop) :
    ∃ body place, ts = body ++ [⟨.eof, place⟩] ∧ ∀ l ∈ body, l.token ≠ .eof := by
  induction cur using tokens.induct generalizing ts with
  | case1 cur hr =>
    rw [tokens_of_nil hr] at h
    cases h
    exact ⟨[], _, rfl, by simp⟩
  | case2 cur c cs hr cause n hs =>
    rw [tokens_of_slip hr hs] at h
    cases h
  | case3 cur c cs hr t n hs _ us stop' hok ih =>
    rw [tokens_of_found hr hs, hok] at h
    cases h
    obtain ⟨body, place, rfl, hbody⟩ := ih hok
    refine ⟨⟨t, cur.skipBlank.place⟩ :: body, place, rfl, List.forall_mem_cons.2 ⟨?_, hbody⟩⟩
    rintro rfl
    exact scan_ne_eof hs
  | case4 cur c cs hr t n hs _ e stop' herror =>
    rw [tokens_of_found hr hs, herror] at h
    cases h

end Cursor

def IsGap (gap : List Char) : Prop := ∀ c ∈ gap, c = ' ' ∨ c = '\t' ∨ c = '\r'

inductive CharSpelling : Char → List Char → Prop
  | raw {c : Char} : c ≠ '"' → c ≠ '\\' → CharSpelling c [c]
  | newline : CharSpelling '\n' ['\\', 'n']
  | tab : CharSpelling '\t' ['\\', 't']
  | carriageReturn : CharSpelling '\r' ['\\', 'r']
  | quote : CharSpelling '"' ['\\', '"']
  | backslash : CharSpelling '\\' ['\\', '\\']

inductive StringSpelling : List Char → List Char → Prop
  | nil : StringSpelling [] []
  | cons {c : Char} {cs u v : List Char} : CharSpelling c u → StringSpelling cs v →
    StringSpelling (c :: cs) (u ++ v)

namespace Token

def IsName (x : String) : Prop :=
  (∃ c cs, x.toList = c :: cs ∧ (c.isAlpha ∨ c = '_') ∧ ∀ d ∈ cs, d.isAlphanum ∨ d = '_') ∧
    ∀ k : Keyword, x ≠ k.spelling

def IsRemark (text : String) : Prop :=
  '\n' ∉ text.toList ∧ (∀ c ∈ text.toList.head?, ¬ Text.isSpace c) ∧
    ∀ c ∈ text.toList.getLast?, ¬ Text.isSpace c

def Writable : Token → Prop
  | number n => 0 ≤ n
  | ident x => IsName x
  | comment text => IsRemark text
  | eof => False
  | _ => True

inductive Lexeme : Token → List Char → Prop
  | number (n : Int64) (zeros : Nat) :
    Lexeme (.number n) (List.replicate zeros '0' ++ Nat.toDigits 10 n.toInt.toNat)
  | string {s : String} {u : List Char} : StringSpelling s.toList u →
    Lexeme (.string s) ('"' :: (u ++ ['"']))
  | ident (x : String) : Lexeme (.ident x) x.toList
  | keyword (k : Keyword) : Lexeme (.keyword k) k.spelling.toList
  | symbol (s : Symbol) : Lexeme (.symbol s) s.spelling.toList
  | comment (text : String) {lead : List Char} : (∀ c ∈ lead, Text.isSpace c ∧ c ≠ '\n') →
    Lexeme (.comment text) ('-' :: '-' :: (lead ++ text.toList))
  | newline : Lexeme .newline ['\n']

/-- The tokens one after the other, with blanks between neighbours and perhaps at the end. -/
inductive Written : List Token → List Char → Prop
  | nil : Written [] []
  | cons {t : Token} {ts : List Token} {u gap v : List Char} : Lexeme t u → IsGap gap →
    (gap = [] → ts = []) → Written ts v → Written (t :: ts) (u ++ (gap ++ v))

def MayFollow (t t' : Token) : Prop := (∃ text, t = .comment text) → t' = .newline

end Token

namespace Lexer

open Token

variable {p : Char → Bool} {c : Char} {cs u tail : List Char}

theorem takeWhile_exact (hu : ∀ c ∈ u, p c) (ht : ∀ c ∈ tail.head?, p c = false) :
    (u ++ tail).takeWhile p = u := by
  rw [List.takeWhile_append_of_pos hu]
  cases tail with
  | nil => simp
  | cons c tail => simp [ht c rfl]

theorem ne_of_isWordStart {d : Char} (hc : isWordStart c) (hd : isWordStart d = false) : c ≠ d := by
  rintro rfl
  cases hc.symm.trans hd

theorem not_isDigit_of_isWordStart (hc : isWordStart c) : c.isDigit = false := by
  simp only [isWordStart, Bool.or_eq_true, beq_iff_eq] at hc
  rcases hc with hc | rfl
  · simp only [Char.isAlpha, Char.isUpper, Char.isLower, Char.isDigit] at *
    grind
  · rfl

theorem scan_word (hc : isWordStart c) (hcs : ∀ d ∈ cs, isWordPart d)
    (ht : ∀ d ∈ tail.head?, isWordPart d = false) :
    scan c (cs ++ tail) = .found (.ofWord (String.ofList (c :: cs))) (cs.length + 1) := by
  have hword : (c :: (cs ++ tail)).takeWhile isWordPart = c :: cs :=
    takeWhile_exact (List.forall_mem_cons.2 ⟨isWordPart_of_isWordStart hc, hcs⟩) ht
  rw [scan, if_neg (ne_of_isWordStart hc rfl), if_neg fun h => ne_of_isWordStart hc rfl h.1,
    if_neg (ne_of_isWordStart hc rfl), if_neg (by simp [not_isDigit_of_isWordStart hc]),
    if_pos hc, hword]
  rfl

theorem scan_digits (hc : c.isDigit) (hcs : ∀ d ∈ cs, d.isDigit)
    (ht : ∀ d ∈ tail.head?, d.isDigit = false) : scan c (cs ++ tail) = number (c :: cs) := by
  have hdigits : (c :: (cs ++ tail)).takeWhile Char.isDigit = c :: cs :=
    takeWhile_exact (List.forall_mem_cons.2 ⟨hc, hcs⟩) ht
  have hne {d : Char} (hd : d.isDigit = false) : c ≠ d := by
    rintro rfl
    cases hc.symm.trans hd
  rw [scan, if_neg (hne rfl), if_neg fun h => hne rfl h.1, if_neg (hne rfl), if_pos hc, hdigits]

theorem number_of_nonneg {n : Int64} (hn : 0 ≤ n) {digits : List Char}
    (h : Nat.ofDigitChars 10 digits 0 = n.toInt.toNat) :
    number digits = .found (.number n) digits.length := by
  have hlt : n.toInt.toNat < numberBound := by
    have := n.toInt_lt
    simp only [numberBound]
    omega
  have hvalue : Text.ofDigits digits = n.toInt.toNat := h
  simp only [number, hvalue, if_pos hlt]
  rw [show Int64.ofNat n.toInt.toNat = n from Int64.ofNat_toNatClampNeg n hn]

theorem number_of_large {digits : List Char} (h : 2 ^ 63 ≤ Nat.ofDigitChars 10 digits 0) :
    number digits = .slip (.numberOutOfRange digits) digits.length := by
  have hge : ¬ Text.ofDigits digits < numberBound := Nat.not_lt.2 h
  simp only [number, if_neg hge]

theorem quoted_of_spelling (h : StringSpelling cs u) :
    quoted (u ++ '"' :: tail) = .found cs (u.length + 1) := by
  induction h with
  | nil => rfl
  | cons hc _ ih =>
    cases hc with
    | raw h₁ h₂ =>
      rw [List.append_assoc, List.singleton_append, quoted.eq_def]
      simp [h₂, ih, Scan.behind]
    | _ => simp [quoted, unescape, ih, Scan.behind]

/-- The characters `u` are read as `t` where `tail` follows them. -/
def Scans (t : Token) (u tail : List Char) : Prop :=
  ∃ c cs, u = c :: cs ∧ isBlank c = false ∧ scan c (cs ++ tail) = .found t u.length

def IsApart (tail : List Char) : Prop := ∀ c ∈ tail.head?, c = ' ' ∨ c = '\t' ∨ c = '\r'

theorem IsApart.stops (ht : IsApart tail) (hp : p ' ' = false ∧ p '\t' = false ∧ p '\r' = false) :
    ∀ c ∈ tail.head?, p c = false := by
  intro c hc
  rcases ht c hc with rfl | rfl | rfl
  · exact hp.1
  · exact hp.2.1
  · exact hp.2.2

theorem isBlank_eq_false_of (hc : p c) (hp : p ' ' = false ∧ p '\t' = false ∧ p '\r' = false) :
    isBlank c = false := by
  simp only [isBlank, Bool.or_eq_false_iff, beq_eq_false_iff_ne]
  refine ⟨⟨?_, ?_⟩, ?_⟩ <;> rintro rfl <;> simp_all

theorem scans_word (hc : isWordStart c) (hcs : ∀ d ∈ cs, isWordPart d) (ht : IsApart tail) :
    Scans (.ofWord (String.ofList (c :: cs))) (c :: cs) tail :=
  ⟨c, cs, rfl, isBlank_eq_false_of hc ⟨rfl, rfl, rfl⟩,
    scan_word hc hcs (ht.stops ⟨rfl, rfl, rfl⟩)⟩

theorem scans_number {n : Int64} (hn : 0 ≤ n) (zeros : Nat) (ht : IsApart tail) :
    Scans (.number n) (List.replicate zeros '0' ++ Nat.toDigits 10 n.toInt.toNat) tail := by
  have hvalue : Nat.ofDigitChars 10
      (List.replicate zeros '0' ++ Nat.toDigits 10 n.toInt.toNat) 0 = n.toInt.toNat := by
    simp [Nat.ofDigitChars_append, Nat.ofDigitChars_replicate_zero]
  have hdigit : ∀ d ∈ List.replicate zeros '0' ++ Nat.toDigits 10 n.toInt.toNat, d.isDigit := by
    intro d hd
    rcases List.mem_append.1 hd with hd | hd
    · rw [List.eq_of_mem_replicate hd]
      rfl
    · exact Nat.isDigit_of_mem_toDigits (by decide) (by decide) hd
  have hne : List.replicate zeros '0' ++ Nat.toDigits 10 n.toInt.toNat ≠ [] :=
    List.append_ne_nil_of_right_ne_nil _ Nat.toDigits_ne_nil
  obtain ⟨c, cs, h⟩ := List.exists_cons_of_ne_nil hne
  rw [h] at hvalue hdigit ⊢
  obtain ⟨hc, hcs⟩ := List.forall_mem_cons.1 hdigit
  refine ⟨c, cs, rfl, isBlank_eq_false_of hc ⟨rfl, rfl, rfl⟩, ?_⟩
  rw [scan_digits hc hcs (ht.stops ⟨rfl, rfl, rfl⟩), number_of_nonneg hn hvalue]

theorem ofWord_of_isName {x : String} (h : IsName x) : ofWord x = .ident x := by
  have hnone : Keyword.ofSpelling? x = none := by
    simp only [Keyword.ofSpelling?, List.find?_eq_none, decide_eq_true_eq]
    exact fun k _ hk => h.2 k hk.symm
  rw [ofWord, hnone]

theorem scans_lexeme {t : Token} (h : Lexeme t u) (ht : t.Writable) (hcomment : ∀ s, t ≠ .comment s)
    (htail : IsApart tail) : Scans t u tail := by
  cases h with
  | number n zeros => exact scans_number ht zeros htail
  | string hs =>
    refine ⟨'"', _, rfl, rfl, ?_⟩
    simp [scan, quoted_of_spelling hs, Scan.behind]
  | ident x =>
    obtain ⟨c, cs, hx, hc, hcs⟩ := ht.1
    have hstart : isWordStart c := by simpa [isWordStart] using hc
    have hparts : ∀ d ∈ cs, isWordPart d := by simpa [isWordPart] using hcs
    have hword := scans_word hstart hparts htail
    rwa [← hx, String.ofList_toList, ofWord_of_isName ht] at hword
  | keyword k =>
    obtain ⟨c, cs, hk, hc, hcs⟩ : ∃ c cs, k.spelling.toList = c :: cs ∧ isWordStart c ∧
        ∀ d ∈ cs, isWordPart d := by
      cases k <;> exact ⟨_, _, rfl, rfl, List.all_eq_true.1 rfl⟩
    have hword := scans_word hc hcs htail
    rwa [← hk, String.ofList_toList, ofWord_spelling] at hword
  | symbol s => cases s <;> exact ⟨_, _, rfl, rfl, rfl⟩
  | comment text => exact absurd rfl (hcomment text)
  | newline => exact ⟨_, _, rfl, rfl, rfl⟩

theorem dropWhile_exact (hu : ∀ c ∈ u, p c) (ht : ∀ c ∈ tail.head?, p c = false) :
    (u ++ tail).dropWhile p = tail := by
  rw [List.dropWhile_append_of_pos hu]
  cases tail with
  | nil => rfl
  | cons c tail => simp [ht c rfl]

theorem trim_exact {lead text gap : List Char} (hlead : ∀ c ∈ lead, Text.isSpace c)
    (hgap : ∀ c ∈ gap, Text.isSpace c) (hhead : ∀ c ∈ text.head?, Text.isSpace c = false)
    (hlast : ∀ c ∈ text.getLast?, Text.isSpace c = false) :
    Text.trim (lead ++ (text ++ gap)) = text := by
  cases text with
  | nil =>
    have hall : ∀ c ∈ lead ++ gap, Text.isSpace c := by
      simpa [or_imp, forall_and] using ⟨hlead, hgap⟩
    have hdrop : (lead ++ gap ++ []).dropWhile Text.isSpace = [] :=
      dropWhile_exact hall (by simp)
    rw [List.append_nil] at hdrop
    rw [Text.trim, List.nil_append, hdrop]
    rfl
  | cons c text =>
    have hfront : (lead ++ (c :: text ++ gap)).dropWhile Text.isSpace = c :: text ++ gap :=
      dropWhile_exact hlead (by simpa using hhead)
    have hback : (gap.reverse ++ (c :: text).reverse).dropWhile Text.isSpace =
        (c :: text).reverse :=
      dropWhile_exact (by simpa using hgap) (by rw [List.head?_reverse]; exact hlast)
    rw [Text.trim, hfront, List.reverse_append, hback, List.reverse_reverse]

end Lexer

open Lexer Token

theorem IsGap.isBlank {gap : List Char} (h : IsGap gap) : ∀ c ∈ gap, Lexer.isBlank c := by
  intro c hc
  rcases h c hc with rfl | rfl | rfl <;> rfl

theorem IsGap.within_line {gap : List Char} (h : IsGap gap) :
    ∀ c ∈ gap, Text.isSpace c ∧ c ≠ '\n' := by
  intro c hc
  rcases h c hc with rfl | rfl | rfl <;> exact ⟨rfl, by decide⟩

theorem IsGap.isApart {gap tail : List Char} (h : IsGap gap) (hne : gap = [] → IsApart tail) :
    IsApart (gap ++ tail) := by
  cases gap with
  | nil => exact hne rfl
  | cons c gap => simpa [IsApart] using h c (by simp)

namespace Cursor

variable {p : Place} {u gap tail : List Char} {c : Char} {cs : List Char} {t : Token}

theorem skip_append {n : Nat} (h : n = u.length) :
    (Cursor.mk p (u ++ tail)).skip n = ⟨p.advance u, tail⟩ := by
  simp [skip, h]

theorem skipBlank_of_head (h : ∀ c ∈ tail.head?, isBlank c = false) :
    (Cursor.mk p tail).skipBlank = ⟨p, tail⟩ := by
  have : tail.takeWhile isBlank = [] := takeWhile_exact (u := []) (by simp) h
  simp [skipBlank, this]

theorem skipBlank_gap (hgap : IsGap gap) :
    (Cursor.mk p (gap ++ tail)).skipBlank = (Cursor.mk (p.advance gap) tail).skipBlank := by
  simp [skipBlank, skip, List.takeWhile_append_of_pos hgap.isBlank, List.take_length_add_append]

theorem tokens_gap (hgap : IsGap gap) :
    (Cursor.mk p (gap ++ tail)).tokens = (Cursor.mk (p.advance gap) tail).tokens :=
  tokens_congr (skipBlank_gap hgap)

theorem tokens_of_scans (h : Scans t u tail) :
    (Cursor.mk p (u ++ tail)).tokens =
      precede [⟨t, p⟩] (Cursor.mk (p.advance u) tail).tokens := by
  obtain ⟨c, cs, rfl, hc, hs⟩ := h
  have hskip : (Cursor.mk p (c :: cs ++ tail)).skipBlank = ⟨p, c :: cs ++ tail⟩ :=
    skipBlank_of_head (by simpa using hc)
  rw [tokens_of_found (by rw [hskip]; rfl) hs, hskip, skip_append rfl]

theorem scans_comment {text : String} {lead trail : List Char} (ht : IsRemark text)
    (hlead : ∀ c ∈ lead, Text.isSpace c ∧ c ≠ '\n')
    (htrail : ∀ c ∈ trail, Text.isSpace c ∧ c ≠ '\n') (htail : ∀ c ∈ tail.head?, c = '\n') :
    Scans (.comment text) ('-' :: '-' :: (lead ++ (text.toList ++ trail))) tail := by
  obtain ⟨hline, hhead, hlast⟩ := ht
  have hall : ∀ c ∈ lead ++ (text.toList ++ trail), decide (c ≠ '\n') := by
    simp only [List.mem_append, decide_eq_true_eq]
    rintro c (hc | hc | hc)
    · exact (hlead c hc).2
    · rintro rfl
      exact hline hc
    · exact (htrail c hc).2
  have htake : (lead ++ (text.toList ++ trail) ++ tail).takeWhile (· ≠ '\n') =
      lead ++ (text.toList ++ trail) :=
    takeWhile_exact hall (by simpa using htail)
  have htrim : Text.trim (lead ++ (text.toList ++ trail)) = text.toList :=
    trim_exact (fun c hc => (hlead c hc).1) (fun c hc => (htrail c hc).1) (by simpa using hhead)
      (by simpa using hlast)
  refine ⟨'-', _, rfl, rfl, ?_⟩
  simp only [scan, List.cons_append, List.head?_cons, List.tail_cons, htake, htrim,
    String.ofList_toList]
  simp

theorem tokens_lexeme (h : Lexeme t u) (ht : t.Writable) (hgap : IsGap gap)
    (hapart : IsApart (gap ++ tail)) (hline : (∃ s, t = .comment s) → ∀ c ∈ tail.head?, c = '\n') :
    (Cursor.mk p (u ++ (gap ++ tail))).tokens =
      precede [⟨t, p⟩] (Cursor.mk (p.advance (u ++ gap)) tail).tokens := by
  by_cases hcomment : ∃ s, t = .comment s
  · obtain ⟨s, rfl⟩ := hcomment
    cases h with
    | comment _ hlead =>
      have hs := scans_comment ht hlead hgap.within_line (hline ⟨s, rfl⟩)
      simpa using tokens_of_scans (p := p) hs
  · have hs := scans_lexeme h ht (fun s hs => hcomment ⟨s, hs⟩) hapart
    rw [tokens_of_scans hs, tokens_gap hgap, Place.advance_append]

theorem head?_of_mayFollow {ts : List Token} {v : List Char} (h : Written ts v)
    (hchain : (t :: ts).IsChain MayFollow) (ht : ∃ s, t = .comment s) (hnil : ts = [] → tail = []) :
    ∀ c ∈ (v ++ tail).head?, c = '\n' := by
  cases h with
  | nil => simp [hnil rfl]
  | cons hlex =>
    cases hchain with
    | cons_cons hfollow _ =>
      cases hfollow ht
      cases hlex
      simp

theorem tokens_written {ts : List Token} {text : List Char} (h : Written ts text)
    (hts : ∀ t ∈ ts, t.Writable) (hchain : ts.IsChain MayFollow)
    (hend : ∀ t ∈ ts.getLast?, IsApart tail ∧ ((∃ s, t = .comment s) → tail = [])) :
    ∃ ls : List Located, ls.map Located.token = ts ∧ (Cursor.mk p (text ++ tail)).tokens =
      precede ls (Cursor.mk (p.advance text) tail).tokens := by
  induction h generalizing p with
  | nil => exact ⟨[], rfl, by simp⟩
  | @cons t ts u gap v hlex hgap hne hv ih =>
    obtain ⟨ht, hts⟩ := List.forall_mem_cons.1 hts
    -- blanks, or `tail` itself, stand between the token and what is read after it
    have hapart : IsApart (gap ++ (v ++ tail)) := by
      refine hgap.isApart fun h => ?_
      cases hne h
      cases hv
      exact (hend t rfl).1
    have hline : (∃ s, t = .comment s) → ∀ c ∈ (v ++ tail).head?, c = '\n' := by
      refine fun hs => head?_of_mayFollow hv hchain hs ?_
      rintro rfl
      exact (hend t rfl).2 hs
    have hend' : ∀ t ∈ ts.getLast?, IsApart tail ∧ ((∃ s, t = .comment s) → tail = []) := by
      intro t' ht'
      apply hend
      cases ts with
      | nil => cases ht'
      | cons => exact ht'
    obtain ⟨ls, hls, hrun⟩ := ih (p := p.advance (u ++ gap)) hts hchain.tail hend'
    refine ⟨⟨t, p⟩ :: ls, by simp [hls], ?_⟩
    rw [List.append_assoc, List.append_assoc, tokens_lexeme hlex ht hgap hapart hline, hrun,
      precede_precede]
    simp

theorem tokens_at_end : (Cursor.mk p []).tokens = .ok [⟨.eof, p⟩] ⟨p, []⟩ := tokens_of_nil rfl

theorem tokens_large {digits rest : List Char} (hdigits : ∀ c ∈ digits, c.isDigit)
    (hlarge : 2 ^ 63 - 1 < Nat.ofDigitChars 10 digits 0)
    (hrest : ∀ c ∈ rest.head?, c.isDigit = false) :
    (Cursor.mk p (digits ++ rest)).tokens =
      .error ⟨.numberOutOfRange digits, p⟩ ⟨p.advance digits, rest⟩ := by
  cases digits with
  | nil => simp at hlarge
  | cons c cs =>
    obtain ⟨hc, hcs⟩ := List.forall_mem_cons.1 hdigits
    have hskip : (Cursor.mk p (c :: cs ++ rest)).skipBlank = ⟨p, c :: cs ++ rest⟩ :=
      skipBlank_of_head (by simpa using isBlank_eq_false_of hc ⟨rfl, rfl, rfl⟩)
    have hs : scan c (cs ++ rest) = .slip (.numberOutOfRange (c :: cs)) (c :: cs).length := by
      rw [scan_digits hc hcs hrest, number_of_large (by omega)]
    rw [tokens_of_slip (by rw [hskip]; rfl) hs, hskip, skip_append rfl]
    rfl

/-- Reading gives back the tokens that were written, and a run of digits that is too large for a
number is refused where it begins. -/
theorem tokens_of_spelled (p : Place) (ts : List Token) (text : List Char)
    (hts : ∀ t ∈ ts, t.Writable) (hchain : ts.IsChain MayFollow) (h : Written ts text) :
    (∃ ls stop, (Cursor.mk p text).tokens = .ok ls stop ∧
      ls.map Located.token = ts ++ [.eof]) ∧
    ∀ gap digits rest, IsGap gap → (gap = [] → ts = []) →
      (∀ s, .comment s ∉ ts.getLast?) →
      (∀ c ∈ digits, c.isDigit) → 2 ^ 63 - 1 < Nat.ofDigitChars 10 digits 0 →
      (∀ c ∈ rest.head?, c.isDigit = false) →
      (Cursor.mk p (text ++ (gap ++ (digits ++ rest)))).tokens =
        .error ⟨.numberOutOfRange digits, p.advance (text ++ gap)⟩
          ⟨p.advance (text ++ (gap ++ digits)), rest⟩ := by
  constructor
  · have hend : ∀ t ∈ ts.getLast?, IsApart [] ∧ ((∃ s, t = .comment s) → ([] : List Char) = []) :=
      fun t _ => ⟨by simp [IsApart], fun _ => rfl⟩
    obtain ⟨ls, hls, hrun⟩ := tokens_written (p := p) h hts hchain hend
    rw [List.append_nil, tokens_at_end] at hrun
    exact ⟨_, _, hrun, by simp [hls]⟩
  · intro gap digits rest hgap hne hlast hdigits hlarge hrest
    have hend : ∀ t ∈ ts.getLast?, IsApart (gap ++ (digits ++ rest)) ∧
        ((∃ s, t = .comment s) → gap ++ (digits ++ rest) = []) := by
      intro t ht
      refine ⟨hgap.isApart fun hg => ?_, ?_⟩
      · cases hne hg
        cases ht
      · rintro ⟨s, rfl⟩
        exact absurd ht (hlast s)
    obtain ⟨ls, -, hrun⟩ := tokens_written (p := p) h hts hchain hend
    rw [hrun, tokens_gap hgap, tokens_large hdigits hlarge hrest]
    simp [precede]

def mixed : List Token :=
  [.number 7, .string "\n\"\t", .keyword .localKw, .ident "local_", .symbol .notEq,
    .comment "a -- b", .newline]

def mixedText : String := "007 \"\\n\\\"\t\" local local_ ~= --  a -- b \r\n"

theorem tokens_of_spelled_mixed :
    (∃ ls stop, (Cursor.ofString mixedText).tokens = .ok ls stop ∧
      ls.map Located.token = mixed ++ [.eof]) ∧
    (Cursor.ofString (mixedText ++ " 9223372036854775808e")).tokens =
      .error ⟨.numberOutOfRange "9223372036854775808".toList, ⟨2, 2⟩⟩ ⟨⟨2, 21⟩, ['e']⟩ := by
  have hgap : IsGap [' '] := by simp [IsGap]
  have hgap' : IsGap [' ', '\r'] := by simp [IsGap]
  have hend : IsGap [] := by simp [IsGap]
  have hstring : StringSpelling "\n\"\t".toList ['\\', 'n', '\\', '"', '\t'] :=
    .cons .newline (.cons .quote (.cons (.raw (by decide) (by decide)) .nil))
  have hlead : ∀ c ∈ [' ', ' '], Text.isSpace c ∧ c ≠ '\n' := by simp [Text.isSpace]
  have h : Written mixed mixedText.toList :=
    .cons (.number 7 2) hgap (by simp) <| .cons (.string hstring) hgap (by simp) <|
    .cons (.keyword .localKw) hgap (by simp) <| .cons (.ident "local_") hgap (by simp) <|
    .cons (.symbol .notEq) hgap (by simp) <| .cons (.comment "a -- b" hlead) hgap' (by simp) <|
    .cons .newline hend (by simp) .nil
  have hname : IsName "local_" :=
    ⟨⟨'l', ['o', 'c', 'a', 'l', '_'], rfl, .inl rfl, by simp⟩, fun k => by cases k <;> decide⟩
  have hremark : IsRemark "a -- b" := by simp [IsRemark, Text.isSpace]
  have hnumber : (0 : Int64) ≤ 7 := by decide
  have hts : ∀ t ∈ mixed, t.Writable := by
    simp only [mixed, List.forall_mem_cons]
    exact ⟨hnumber, trivial, trivial, hname, trivial, hremark, trivial, by simp⟩
  have hchain : mixed.IsChain MayFollow := by simp [mixed, MayFollow]
  obtain ⟨hok, herror⟩ := tokens_of_spelled .start mixed mixedText.toList hts hchain h
  refine ⟨hok, ?_⟩
  exact herror [' '] "9223372036854775808".toList ['e'] hgap (by simp) (by simp [mixed])
    (List.all_eq_true.1 rfl) (by decide) (by simp)

end Cursor

end Scriptlet
