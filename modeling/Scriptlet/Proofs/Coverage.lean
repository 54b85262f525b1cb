import Mathlib
import Scriptlet.Proofs.Lexemes

/-! Reading accounts for every character of a text.  What stands before a cursor gives its
place, however many calls led to it and whether they failed.  The tokens of a call and the
blanks between them are the text from the cursor on, and each token is the longest one that
the text from its first character begins with. -/

namespace Scriptlet

namespace Place

variable {p : Place} {cs : List Char}

def behind (before : List Char) : Place :=
  ⟨1 + before.count '\n', 1 + (before.reverse.takeWhile (· ≠ '\n')).length⟩

theorem behind_concat (before : List Char) (c : Char) :
    behind (before ++ [c]) = (behind before).after c := by
  by_cases hc : c = '\n'
  · simp [behind, after, hc, Nat.add_assoc]
  · simp [behind, after, hc, Nat.add_assoc]

theorem behind_append (before cs : List Char) :
    behind (before ++ cs) = (behind before).advance cs := by
  induction cs generalizing before with
  | nil => simp
  | cons c cs ih =>
    rw [advance_cons, ← behind_concat, ← ih, List.append_assoc, List.singleton_append]

def Precedes (p q : Place) : Prop := p.line < q.line ∨ p.line = q.line ∧ p.col < q.col

theorem Precedes.trans {q r : Place} (h : p.Precedes q) (h' : q.Precedes r) : p.Precedes r := by
  simp only [Precedes] at *
  omega

theorem precedes_after (p : Place) (c : Char) : p.Precedes (p.after c) := by
  by_cases hc : c = '\n' <;> simp [Precedes, after, hc]

theorem precedes_advance (h : cs ≠ []) : p.Precedes (p.advance cs) := by
  induction cs generalizing p with
  | nil => exact absurd rfl h
  | cons c cs ih =>
    cases cs with
    | nil => exact precedes_after p c
    | cons d ds => exact (precedes_after p c).trans (ih (by simp))

end Place

namespace Token

/-- The token is written by exactly these characters.  To a comment belong also the blanks at
the end of its line. -/
inductive Occupies : Token → List Char → Prop
  | lexeme {t : Token} {u : List Char} : Lexeme t u → t.Writable → Occupies t u
  | comment {text : String} {u trail : List Char} : Lexeme (.comment text) u → IsRemark text →
    (∀ c ∈ trail, Text.isSpace c ∧ c ≠ '\n') → Occupies (.comment text) (u ++ trail)

def Stops : Token → List Char → Prop
  | number _, rest => ∀ c ∈ rest.head?, ¬ c.isDigit
  | ident _, rest | keyword _, rest => ∀ c ∈ rest.head?, ¬ (c.isAlphanum ∨ c = '_')
  | comment _, rest => ∀ c ∈ rest.head?, c = '\n'
  | _, _ => True

/-- `u` writes `t`, and no token takes more of the text `u ++ rest`. -/
structure Longest (t : Token) (u rest : List Char) : Prop where
  occupies : t.Occupies u
  stops : t.Stops rest
  length_le : ∀ t' u', Occupies t' u' → u' <+: u ++ rest → u'.length ≤ u.length

end Token

open Token

/-- The tokens `ls` and blanks make up the text that follows `before`. -/
inductive Covers : List Char → List Char → List Located → Prop
  | eof {before gap : List Char} : IsGap gap → Covers before gap [⟨.eof, .behind (before ++ gap)⟩]
  | cons {before gap u rest : List Char} {t : Token} {ls : List Located} : IsGap gap →
    Longest t u rest → Covers (before ++ gap ++ u) rest ls →
    Covers before (gap ++ (u ++ rest)) (⟨t, .behind (before ++ gap)⟩ :: ls)

namespace Lexer

variable {c : Char} {cs u rest : List Char} {t : Token} {n : Nat} {α β : Type}

def Scan.size : Scan α → Nat
  | .found _ n => n
  | .slip _ n => n

@[simp] theorem Scan.size_found (a : α) (n : Nat) : (Scan.found a n).size = n := rfl

@[simp] theorem Scan.size_slip (cause : LexCause) (n : Nat) :
    (Scan.slip cause n : Scan α).size = n := rfl

@[simp] theorem Scan.size_behind (s : Scan α) (n : Nat) (f : α → β) :
    (s.behind n f).size = s.size + n := by
  cases s <;> rfl

theorem size_quoted_le (cs : List Char) : (quoted cs).size ≤ cs.length := by
  fun_induction quoted cs <;> simp_all

@[simp] theorem size_number (digits : List Char) : (number digits).size = digits.length := by
  simp only [number]
  split <;> rfl

theorem size_scan_le (c : Char) (cs : List Char) : (scan c cs).size ≤ cs.length + 1 := by
  have htake (p : Char → Bool) (cs : List Char) : (cs.takeWhile p).length ≤ cs.length :=
    (List.takeWhile_sublist p).length_le
  unfold scan
  split
  · simp
  split
  · next h =>
    cases cs with
    | nil => cases h.2
    | cons d cs => simpa using htake (· ≠ '\n') cs
  split
  · simpa using size_quoted_le cs
  split
  · simpa using htake Char.isDigit (c :: cs)
  split
  · exact htake isWordPart (c :: cs)
  split
  · next h =>
    cases cs with
    | nil => cases h.2
    | cons d cs => simp
  split <;> simp

theorem head?_dropWhile (p : Char → Bool) (cs : List Char) :
    ∀ c ∈ (cs.dropWhile p).head?, p c = false := by
  intro c hc
  have h := List.head?_dropWhile_not p cs
  rwa [Option.mem_def.1 hc] at h

theorem Scan.behind_eq_found {s : Scan α} {f : α → β} {b : β} {n k : Nat} :
    s.behind n f = .found b k ↔ ∃ a j, s = .found a j ∧ f a = b ∧ j + n = k := by
  cases s <;> simp [Scan.behind]

theorem charSpelling_of_unescape {e c : Char} (h : unescape e = some c) :
    CharSpelling c ['\\', e] := by
  unfold unescape at h
  split at h <;> cases h <;> constructor

theorem spelling_of_quoted {s : List Char} (h : quoted cs = .found s n) :
    ∃ u rest, cs = u ++ '"' :: rest ∧ u.length + 1 = n ∧ StringSpelling s u := by
  fun_induction quoted cs generalizing s n with
  | case1 => cases h
  | case2 rest =>
    cases h
    exact ⟨[], rest, rfl, rfl, .nil⟩
  | case3 => cases h
  | case4 e cs c he ih =>
    obtain ⟨s, k, hq, rfl, rfl⟩ := Scan.behind_eq_found.1 h
    obtain ⟨u, rest, rfl, rfl, hu⟩ := ih hq
    exact ⟨'\\' :: e :: u, rest, rfl, rfl, .cons (charSpelling_of_unescape he) hu⟩
  | case5 => cases h
  | case6 c cs hquote hlast hescape ih =>
    obtain ⟨s, k, hq, rfl, rfl⟩ := Scan.behind_eq_found.1 h
    obtain ⟨u, rest, rfl, rfl, hu⟩ := ih hq
    -- a backslash with a character behind it is an escape
    have hslash : c ≠ '\\' := by
      intro hc
      cases u with
      | nil => exact hescape _ _ hc rfl
      | cons d u => exact hescape _ _ hc rfl
    exact ⟨c :: u, rest, rfl, rfl, .cons (.raw hquote hslash) hu⟩

theorem toDigits_digitValue (hc : c.isDigit) :
    Text.digitValue c < 10 ∧ Nat.toDigits 10 (Text.digitValue c) = [c] := by
  have hrange : 48 ≤ c.toNat ∧ c.toNat ≤ 57 := Char.isDigit_iff_toNat.1 hc
  have hlt : Text.digitValue c < 10 := by
    simp only [Text.digitValue, Char.reduceToNat]
    omega
  have hchar : Nat.digitChar (Text.digitValue c) = c := by
    apply Char.toNat_inj.1
    rw [Nat.toNat_digitChar_of_lt_ten hlt]
    simp only [Text.digitValue, Char.reduceToNat]
    omega
  exact ⟨hlt, by rw [Nat.toDigits_of_lt_base hlt, hchar]⟩

theorem exists_eq_zeros_append (hne : cs ≠ []) (hcs : ∀ c ∈ cs, c.isDigit) :
    ∃ zeros, cs = List.replicate zeros '0' ++ Nat.toDigits 10 (Text.ofDigits cs) := by
  induction cs using List.reverseRecOn with
  | nil => exact absurd rfl hne
  | append_singleton cs c ih =>
    obtain ⟨hlt, hlast⟩ := toDigits_digitValue (hcs c (by simp))
    have hvalue : Text.ofDigits (cs ++ [c]) = 10 * Text.ofDigits cs + Text.digitValue c := by
      simp [Text.ofDigits]
    rw [hvalue]
    by_cases hnil : cs = []
    · exact ⟨0, by simp [hnil, hlast]⟩
    obtain ⟨zeros, hz⟩ := ih hnil fun d hd => hcs d (by simp [hd])
    rcases Nat.eq_zero_or_pos (Text.ofDigits cs) with h | h
    · refine ⟨zeros + 1, ?_⟩
      rw [h, Nat.toDigits_zero, ← List.replicate_succ'] at hz
      rw [h, Nat.mul_zero, Nat.zero_add, hlast, ← hz]
    · refine ⟨zeros, ?_⟩
      rw [← Nat.toDigits_append_toDigits (by decide) h hlt, ← List.append_assoc, ← hz, hlast]

theorem trim_spec (cs : List Char) : ∃ lead trail, cs = lead ++ (Text.trim cs ++ trail) ∧
    (∀ c ∈ lead, Text.isSpace c) ∧ (∀ c ∈ trail, Text.isSpace c) ∧
    (∀ c ∈ (Text.trim cs).head?, Text.isSpace c = false) ∧
    ∀ c ∈ (Text.trim cs).getLast?, Text.isSpace c = false := by
  obtain ⟨trail, htrail, hdrop⟩ : ∃ trail, (∀ c ∈ trail, Text.isSpace c) ∧
      cs.dropWhile Text.isSpace = Text.trim cs ++ trail := by
    refine ⟨((cs.dropWhile Text.isSpace).reverse.takeWhile Text.isSpace).reverse, ?_, ?_⟩
    · exact fun c hc => List.mem_takeWhile_imp (List.mem_reverse.1 hc)
    · rw [Text.trim, ← List.reverse_append, List.takeWhile_append_dropWhile, List.reverse_reverse]
  refine ⟨cs.takeWhile Text.isSpace, trail, ?_, ?_, htrail, ?_, ?_⟩
  · rw [← hdrop, List.takeWhile_append_dropWhile]
  · exact fun c hc => List.mem_takeWhile_imp hc
  · intro c hc
    apply head?_dropWhile Text.isSpace cs
    rw [hdrop, List.head?_append, Option.mem_def.1 hc]
    rfl
  · rw [Text.trim, List.getLast?_reverse]
    exact head?_dropWhile _ _

theorem occupies_comment {line : List Char} (hline : '\n' ∉ line) :
    Occupies (.comment (String.ofList (Text.trim line))) ('-' :: '-' :: line) := by
  obtain ⟨lead, trail, hsplit, hlead, htrail, hhead, hlast⟩ := trim_spec line
  generalize Text.trim line = text at *
  subst hsplit
  simp only [List.mem_append, not_or] at hline
  have hremark : IsRemark (String.ofList text) := by
    simpa [IsRemark] using ⟨hline.2.1, hhead, hlast⟩
  have hlex : Lexeme (.comment (String.ofList text))
      ('-' :: '-' :: (lead ++ (String.ofList text).toList)) :=
    .comment _ fun c hc => ⟨hlead c hc, ne_of_mem_of_not_mem hc hline.1⟩
  have hocc : Occupies _ (_ ++ trail) :=
    .comment hlex hremark fun c hc => ⟨htrail c hc, ne_of_mem_of_not_mem hc hline.2.2⟩
  simpa using hocc

theorem occupies_word (hc : isWordStart c) (hcs : ∀ d ∈ cs, isWordPart d) :
    Occupies (.ofWord (String.ofList (c :: cs))) (c :: cs) := by
  cases hk : Keyword.ofSpelling? (String.ofList (c :: cs)) with
  | some k =>
    have hword : k.spelling = String.ofList (c :: cs) := by
      simpa using List.find?_some hk
    have hlex := Lexeme.keyword k
    rw [hword, String.toList_ofList] at hlex
    rw [ofWord, hk]
    exact .lexeme hlex trivial
  | none =>
    have hlex := Lexeme.ident (String.ofList (c :: cs))
    rw [String.toList_ofList] at hlex
    rw [ofWord, hk]
    refine .lexeme hlex ⟨⟨c, cs, String.toList_ofList, ?_, ?_⟩, ?_⟩
    · simpa [isWordStart] using hc
    · simpa [isWordPart] using hcs
    · intro k hword
      rw [hword, Keyword.ofSpelling?_spelling] at hk
      cases hk

theorem stops_word (w : String) (h : ∀ d ∈ rest.head?, isWordPart d = false) :
    (ofWord w).Stops rest := by
  have hnot : ∀ d ∈ rest.head?, ¬ (d.isAlphanum ∨ d = '_') := by
    intro d hd
    simpa [isWordPart] using h d hd
  unfold ofWord
  split <;> exact hnot

theorem spelling_of_ofChar? {s : Symbol} (h : Symbol.ofChar? c = some s) :
    s.spelling.toList = [c] := by
  unfold Symbol.ofChar? at h
  split at h <;> cases h <;> rfl

theorem number_eq_found {digits : List Char} (h : number digits = .found t n) :
    t = .number (Int64.ofNat (Text.ofDigits digits)) ∧ n = digits.length ∧
      Text.ofDigits digits < numberBound := by
  simp only [number] at h
  split at h
  · cases h
    exact ⟨rfl, rfl, ‹_›⟩
  · cases h

theorem occupies_number {digits : List Char} (hne : digits ≠ []) (hd : ∀ d ∈ digits, d.isDigit)
    (hlt : Text.ofDigits digits < numberBound) :
    Occupies (.number (Int64.ofNat (Text.ofDigits digits))) digits := by
  have hvalue : (Int64.ofNat (Text.ofDigits digits)).toInt = Text.ofDigits digits :=
    Int64.toInt_ofNat_of_lt hlt
  obtain ⟨zeros, hz⟩ := exists_eq_zeros_append hne hd
  have hlex := Lexeme.number (Int64.ofNat (Text.ofDigits digits)) zeros
  rw [hvalue, Int.toNat_natCast, ← hz] at hlex
  refine .lexeme hlex ?_
  show 0 ≤ _
  rw [Int64.le_iff_toInt_le, hvalue]
  simp

theorem occupies_of_scan (h : scan c cs = .found t n) :
    ∃ u rest, c :: cs = u ++ rest ∧ u.length = n ∧ Occupies t u ∧ Stops t rest := by
  unfold scan at h
  split at h
  case isTrue hc =>
    cases h
    cases hc
    exact ⟨['\n'], cs, rfl, rfl, .lexeme .newline trivial, trivial⟩
  split at h
  case isTrue hc =>
    obtain ⟨rfl, hcs⟩ := hc
    obtain ⟨cs, rfl⟩ := List.head?_eq_some_iff.1 hcs
    cases h
    refine ⟨'-' :: '-' :: cs.takeWhile (· ≠ '\n'), cs.dropWhile (· ≠ '\n'), ?_, rfl,
      occupies_comment ?_, ?_⟩
    · simp
    · intro hmem
      simpa using List.mem_takeWhile_imp hmem
    · intro d hd
      simpa using head?_dropWhile _ _ d hd
  split at h
  case isTrue hc =>
    cases hc
    obtain ⟨s, k, hq, rfl, rfl⟩ := Scan.behind_eq_found.1 h
    obtain ⟨u, rest, rfl, rfl, hu⟩ := spelling_of_quoted hq
    refine ⟨'"' :: (u ++ ['"']), rest, by simp, by simp, ?_, trivial⟩
    exact .lexeme (.string (by simpa using hu)) trivial
  split at h
  case isTrue hc =>
    obtain ⟨rfl, rfl, hlt⟩ := number_eq_found h
    refine ⟨_, (c :: cs).dropWhile Char.isDigit, List.takeWhile_append_dropWhile.symm, rfl,
      occupies_number ?_ ?_ hlt, ?_⟩
    · simp [hc]
    · exact fun d hd => List.mem_takeWhile_imp hd
    · intro d hd
      simp [head?_dropWhile _ _ d hd]
  split at h
  case isTrue hc =>
    cases h
    refine ⟨_, (c :: cs).dropWhile isWordPart, List.takeWhile_append_dropWhile.symm, rfl, ?_,
      stops_word _ (head?_dropWhile _ _)⟩
    rw [List.takeWhile_cons, if_pos (isWordPart_of_isWordStart hc)]
    exact occupies_word hc fun d hd => List.mem_takeWhile_imp hd
  split at h
  case isTrue hc =>
    obtain ⟨rfl, hcs⟩ := hc
    obtain ⟨cs, rfl⟩ := List.head?_eq_some_iff.1 hcs
    cases h
    exact ⟨['~', '='], cs, rfl, rfl, .lexeme (.symbol .notEq) trivial, trivial⟩
  split at h
  · next s hs =>
    cases h
    refine ⟨[c], cs, rfl, rfl, ?_, trivial⟩
    rw [← spelling_of_ofChar? hs]
    exact .lexeme (.symbol s) trivial
  · cases h

theorem length_takeWhile_append_le (p : Char → Bool) (cs tail : List Char) :
    (cs.takeWhile p).length ≤ ((cs ++ tail).takeWhile p).length := by
  rw [List.takeWhile_append]
  split
  · next h => simp [h]
  · exact Nat.le_refl _

theorem scan_of_isDigit (hc : c.isDigit) (cs : List Char) :
    scan c cs = number ((c :: cs).takeWhile Char.isDigit) := by
  have hcs : ∀ d ∈ cs.takeWhile Char.isDigit, d.isDigit := fun d hd => List.mem_takeWhile_imp hd
  have h := scan_digits hc hcs (head?_dropWhile Char.isDigit cs)
  rwa [List.takeWhile_append_dropWhile, ← List.takeWhile_cons_of_pos hc] at h

theorem scan_of_isWordStart (hc : isWordStart c) (cs : List Char) :
    scan c cs = .found (.ofWord (String.ofList ((c :: cs).takeWhile isWordPart)))
      ((c :: cs).takeWhile isWordPart).length := by
  have hcs : ∀ d ∈ cs.takeWhile isWordPart, isWordPart d := fun d hd => List.mem_takeWhile_imp hd
  have h := scan_word hc hcs (head?_dropWhile isWordPart cs)
  rwa [List.takeWhile_append_dropWhile, ← List.length_cons,
    ← List.takeWhile_cons_of_pos (isWordPart_of_isWordStart hc)] at h

theorem scan_append_le {t' : Token} {n' : Nat} {tail : List Char} (h : scan c cs = .found t n)
    (h' : scan c (cs ++ tail) = .found t' n') : n ≤ n' := by
  have hpos := scan_pos h'
  -- Comments, digits and words may go on in the tail; a string has its closing quote before it.
  unfold scan at h
  split at h
  case isTrue =>
    cases h
    exact hpos
  split at h
  case isTrue hc =>
    obtain ⟨rfl, hcs⟩ := hc
    obtain ⟨cs, rfl⟩ := List.head?_eq_some_iff.1 hcs
    cases h
    cases h'
    simpa using length_takeWhile_append_le (· ≠ '\n') cs tail
  split at h
  case isTrue hc =>
    cases hc
    obtain ⟨s, k, hq, rfl, rfl⟩ := Scan.behind_eq_found.1 h
    obtain ⟨u, rest, rfl, rfl, hu⟩ := spelling_of_quoted hq
    have hq' : quoted (u ++ '"' :: rest ++ tail) = .found s (u.length + 1) := by
      rw [List.append_assoc, List.cons_append, quoted_of_spelling hu]
    obtain ⟨s', k', hq'', rfl, rfl⟩ := Scan.behind_eq_found.1 h'
    cases hq'.symm.trans hq''
    exact Nat.le_refl _
  split at h
  case isTrue hc =>
    rw [scan_of_isDigit hc] at h'
    obtain ⟨-, rfl, -⟩ := number_eq_found h
    obtain ⟨-, rfl, -⟩ := number_eq_found h'
    exact length_takeWhile_append_le Char.isDigit (c :: cs) tail
  split at h
  case isTrue hc =>
    rw [scan_of_isWordStart hc] at h'
    cases h
    cases h'
    exact length_takeWhile_append_le isWordPart (c :: cs) tail
  split at h
  case isTrue hc =>
    obtain ⟨rfl, hcs⟩ := hc
    obtain ⟨cs, rfl⟩ := List.head?_eq_some_iff.1 hcs
    cases h
    cases h'
    exact Nat.le_refl _
  split at h
  · cases h
    exact hpos
  · cases h

theorem scans_of_occupies (h : Occupies t u) : Scans t u [] := by
  have hend : ∀ c ∈ ([] : List Char).head?, c = '\n' := by simp
  cases h with
  | lexeme hlex ht =>
    by_cases hcomment : ∃ text, t = .comment text
    · obtain ⟨text, rfl⟩ := hcomment
      cases hlex with
      | comment _ hlead =>
        have h := Cursor.scans_comment ht hlead (List.forall_mem_nil _) hend
        rwa [List.append_nil] at h
    · exact scans_lexeme hlex ht (fun text ht => hcomment ⟨text, ht⟩) (by simp [IsApart])
  | comment hlex ht htrail =>
    cases hlex with
    | comment _ hlead =>
      have h := Cursor.scans_comment ht hlead htrail hend
      rwa [← List.append_assoc] at h

theorem longest_of_scan (h : scan c cs = .found t n) :
    ∃ u rest, c :: cs = u ++ rest ∧ u.length = n ∧ Longest t u rest := by
  obtain ⟨u, rest, hu, rfl, hocc, hstops⟩ := occupies_of_scan h
  refine ⟨u, rest, hu, rfl, hocc, hstops, ?_⟩
  rintro t' u' hocc' ⟨tail, htail⟩
  obtain ⟨d, ds, rfl, -, hd⟩ := scans_of_occupies hocc'
  rw [← hu, List.cons_append] at htail
  obtain ⟨rfl, rfl⟩ := List.cons.inj htail
  rw [List.append_nil] at hd
  exact scan_append_le hd h

end Lexer

namespace Covers

variable {before text : List Char} {l : Located} {ls : List Located}

theorem place_eq (h : Covers before text ls) (hl : l ∈ ls) :
    ∃ between, l.place = .behind (before ++ between) := by
  induction h with
  | @eof before gap =>
    rw [List.mem_singleton.1 hl]
    exact ⟨gap, rfl⟩
  | @cons before gap u rest t ls _ _ _ ih =>
    rcases List.mem_cons.1 hl with rfl | hl
    · exact ⟨gap, rfl⟩
    · obtain ⟨between, h⟩ := ih hl
      exact ⟨gap ++ u ++ between, by simpa using h⟩

theorem pairwise_precedes (h : Covers before text ls) :
    ls.Pairwise fun l l' => l.place.Precedes l'.place := by
  induction h with
  | eof => exact List.pairwise_singleton _ _
  | @cons before gap u rest t ls _ hlongest hcovers ih =>
    refine List.pairwise_cons.2 ⟨fun l' hl' => ?_, ih⟩
    obtain ⟨between, hplace⟩ := hcovers.place_eq hl'
    obtain ⟨c, cs, rfl, -⟩ := Lexer.scans_of_occupies hlongest.occupies
    rw [hplace, List.append_assoc (before ++ gap), Place.behind_append (before ++ gap)]
    exact Place.precedes_advance (by simp)

end Covers

namespace Cursor

open Lexer

variable {cur stop : Cursor} {source before : List Char} {ls : List Located}

inductive Call
  | tokens
  | significantTokens

def stopOf : EStateM.Result LexError Cursor (List Located) → Cursor
  | .ok _ stop => stop
  | .error _ stop => stop

@[simp] theorem stopOf_precede (ls : List Located)
    (r : EStateM.Result LexError Cursor (List Located)) : stopOf (precede ls r) = stopOf r := by
  cases r <;> rfl

def afterCall (cur : Cursor) : Call → Cursor
  | .tokens => stopOf cur.tokens
  | .significantTokens => stopOf cur.significantTokens

def afterCalls (cur : Cursor) (calls : List Call) : Cursor := calls.foldl afterCall cur

theorem afterCall_eq (cur : Cursor) (call : Call) : cur.afterCall call = stopOf cur.tokens := by
  cases call with
  | tokens => rfl
  | significantTokens =>
    simp only [afterCall, significantTokens]
    cases cur.tokens <;> rfl

/-- Up to `stop`, with the number of characters that each round takes: blanks, and the token
or what there is of it. -/
inductive Rounds : Cursor → List Nat → Cursor → Prop
  | eof {cur : Cursor} : cur.skipBlank.rest = [] →
    Rounds cur [(cur.rest.takeWhile isBlank).length] cur.skipBlank
  | slip {cur : Cursor} {c : Char} {cs : List Char} {cause : LexCause} {n : Nat} :
    cur.skipBlank.rest = c :: cs → scan c cs = .slip cause n →
    Rounds cur [(cur.rest.takeWhile isBlank).length + n] (cur.skipBlank.skip n)
  | found {cur stop : Cursor} {c : Char} {cs : List Char} {t : Token} {n : Nat} {sizes : List Nat} :
    cur.skipBlank.rest = c :: cs → scan c cs = .found t n →
    Rounds (cur.skipBlank.skip n) sizes stop →
    Rounds cur (((cur.rest.takeWhile isBlank).length + n) :: sizes) stop

theorem exists_rounds (cur : Cursor) : ∃ sizes, Rounds cur sizes (stopOf cur.tokens) := by
  induction cur using tokens.induct with
  | case1 cur hr =>
    rw [tokens_of_nil hr]
    exact ⟨_, .eof hr⟩
  | case2 cur c cs hr cause n hs =>
    rw [tokens_of_slip hr hs]
    exact ⟨_, .slip hr hs⟩
  | case3 cur c cs hr t n hs _ us stop hok ih =>
    obtain ⟨sizes, h⟩ := ih
    rw [tokens_of_found hr hs, stopOf_precede]
    exact ⟨_, .found hr hs h⟩
  | case4 cur c cs hr t n hs _ e stop herror ih =>
    obtain ⟨sizes, h⟩ := ih
    rw [tokens_of_found hr hs, stopOf_precede]
    exact ⟨_, .found hr hs h⟩

theorem take_length_takeWhile (p : Char → Bool) (cs : List Char) :
    cs.take (cs.takeWhile p).length = cs.takeWhile p :=
  (List.prefix_iff_eq_take.1 (List.takeWhile_prefix p)).symm

theorem takeWhile_append_rest_skipBlank (cur : Cursor) :
    cur.rest.takeWhile isBlank ++ cur.skipBlank.rest = cur.rest := by
  have h := List.take_append_drop (cur.rest.takeWhile isBlank).length cur.rest
  rwa [take_length_takeWhile] at h

theorem length_takeWhile_add (cur : Cursor) :
    (cur.rest.takeWhile isBlank).length + cur.skipBlank.rest.length = cur.rest.length := by
  rw [← List.length_append, takeWhile_append_rest_skipBlank]

theorem add_length_rest_skip {c : Char} {cs : List Char} (h : cur.skipBlank.rest = c :: cs) :
    (scan c cs).size + (cur.skipBlank.skip (scan c cs).size).rest.length =
      cur.skipBlank.rest.length := by
  have hle := size_scan_le c cs
  rw [rest_skip, h, List.length_drop, List.length_cons]
  omega

theorem Rounds.sum_add {sizes : List Nat} (h : Rounds cur sizes stop) :
    sizes.sum + stop.rest.length = cur.rest.length := by
  induction h with
  | @eof cur => simpa using cur.length_takeWhile_add
  | @slip cur _ _ _ n hr hs =>
    have hblank := cur.length_takeWhile_add
    have hsize := add_length_rest_skip hr
    simp only [hs, Scan.size_slip] at hsize
    simp only [List.sum_singleton]
    omega
  | @found cur stop _ _ _ n sizes hr hs _ ih =>
    have hblank := cur.length_takeWhile_add
    have hsize := add_length_rest_skip hr
    simp only [hs, Scan.size_found] at hsize
    simp only [List.sum_cons]
    omega

theorem Rounds.length_le {sizes : List Nat} (h : Rounds cur sizes stop) :
    sizes.length ≤ cur.rest.length + 1 := by
  induction h with
  | eof => simp
  | slip => simp
  | found hr hs _ ih =>
    have hlt := length_rest_skip_lt hr hs
    rw [List.length_cons]
    omega

structure Stands (source before : List Char) (cur : Cursor) : Prop where
  text : before ++ cur.rest = source
  place : cur.place = .behind before

theorem stands_ofString (s : String) : Stands s.toList [] (ofString s) := ⟨rfl, rfl⟩

theorem Stands.skip (h : Stands source before cur) (n : Nat) :
    Stands source (before ++ cur.rest.take n) (cur.skip n) := by
  constructor
  · rw [rest_skip, List.append_assoc, List.take_append_drop, h.text]
  · rw [Place.behind_append, ← h.place]
    rfl

theorem Stands.skipBlank (h : Stands source before cur) :
    Stands source (before ++ cur.rest.takeWhile isBlank) cur.skipBlank := by
  have hskip := h.skip (cur.rest.takeWhile isBlank).length
  rwa [take_length_takeWhile] at hskip

theorem Rounds.stands {sizes : List Nat} (h : Rounds cur sizes stop)
    (hcur : Stands source before cur) : ∃ before', Stands source before' stop := by
  induction h generalizing before with
  | eof => exact ⟨_, hcur.skipBlank⟩
  | slip => exact ⟨_, hcur.skipBlank.skip _⟩
  | found _ _ _ ih => exact ih (hcur.skipBlank.skip _)

theorem Stands.afterCalls (h : Stands source before cur) (calls : List Call) :
    ∃ before', Stands source before' (cur.afterCalls calls) := by
  induction calls generalizing cur before with
  | nil => exact ⟨before, h⟩
  | cons call calls ih =>
    obtain ⟨sizes, hrounds⟩ := cur.exists_rounds
    rw [← afterCall_eq cur call] at hrounds
    obtain ⟨before', h'⟩ := hrounds.stands h
    exact ih h'

theorem isGap_takeWhile (cs : List Char) : IsGap (cs.takeWhile isBlank) := by
  intro c hc
  have h := List.mem_takeWhile_imp hc
  simpa [isBlank, or_assoc] using h

theorem Stands.covers (h : Stands source before cur) (hok : cur.tokens = .ok ls stop) :
    Covers before cur.rest ls := by
  induction cur using tokens.induct generalizing before ls with
  | case1 cur hr =>
    rw [tokens_of_nil hr] at hok
    cases hok
    have hrest := cur.takeWhile_append_rest_skipBlank
    rw [hr, List.append_nil] at hrest
    rw [h.skipBlank.place, hrest]
    exact .eof (hrest ▸ isGap_takeWhile cur.rest)
  | case2 cur c cs hr cause n hs =>
    rw [tokens_of_slip hr hs] at hok
    cases hok
  | case3 cur c cs hr t n hs _ us stop' hus ih =>
    rw [tokens_of_found hr hs, hus] at hok
    cases hok
    obtain ⟨u, rest, hu, rfl, hlongest⟩ := longest_of_scan hs
    have hnext := h.skipBlank.skip u.length
    rw [hr, hu, List.take_left] at hnext
    have hcovers := ih hnext hus
    rw [rest_skip, hr, hu, List.drop_left] at hcovers
    rw [← cur.takeWhile_append_rest_skipBlank, hr, hu, h.skipBlank.place]
    exact .cons (isGap_takeWhile cur.rest) hlongest hcovers
  | case4 cur c cs hr t n hs _ e stop' herror =>
    rw [tokens_of_found hr hs, herror] at hok
    cases hok

/-- However many calls were made on a text, and whether or not they failed, the cursor is where
the characters before it put it.  The next call ends after at most one round for each character
that is left and one more, and takes no more characters than are left.  If it gives tokens, these
are the text from the cursor on, each in its place and as long as can be, with blanks between them
and with `eof` at the end only. -/
theorem tokens_cover (source : String) (calls : List Call) (cur : Cursor)
    (hcur : (ofString source).afterCalls calls = cur) :
    ∃ before, Stands source.toList before cur ∧
      (∀ call, ∃ sizes, Rounds cur sizes (cur.afterCall call) ∧
        sizes.length ≤ cur.rest.length + 1 ∧
        sizes.sum + (cur.afterCall call).rest.length = cur.rest.length) ∧
      ∀ ls stop, cur.tokens = .ok ls stop →
        Covers before cur.rest ls ∧ ls.Pairwise (fun l l' => l.place.Precedes l'.place) ∧
        ∃ body place, ls = body ++ [⟨.eof, place⟩] ∧ ∀ l ∈ body, l.token ≠ .eof := by
  obtain ⟨before, h⟩ := (stands_ofString source).afterCalls calls
  rw [hcur] at h
  refine ⟨before, h, fun call => ?_, fun ls stop hok => ?_⟩
  · obtain ⟨sizes, hrounds⟩ := cur.exists_rounds
    rw [← cur.afterCall_eq call] at hrounds
    exact ⟨sizes, hrounds, hrounds.length_le, hrounds.sum_add⟩
  · have hcovers := h.covers hok
    exact ⟨hcovers, hcovers.pairwise_precedes, tokens_ends hok⟩

def slipped : String := "\"a\n\\q12_ 12q\t-- b \r\n\"\n\\n\""

theorem tokens_cover_slipped :
    (ofString slipped).afterCalls [.significantTokens] = ⟨⟨2, 2⟩, slipped.toList.drop 4⟩ ∧
    Covers (slipped.toList.take 4) (slipped.toList.drop 4)
      [⟨.ident "q12_", ⟨2, 2⟩⟩, ⟨.number 12, ⟨2, 7⟩⟩, ⟨.ident "q", ⟨2, 9⟩⟩, ⟨.comment "b", ⟨2, 11⟩⟩,
        ⟨.newline, ⟨2, 17⟩⟩, ⟨.string "\n\n", ⟨3, 1⟩⟩, ⟨.eof, ⟨4, 4⟩⟩] := by
  have hcur : (ofString slipped).afterCalls [.significantTokens] =
      ⟨⟨2, 2⟩, slipped.toList.drop 4⟩ := by cbv
  obtain ⟨before, hstands, -, hcovers⟩ := tokens_cover slipped [.significantTokens] _ hcur
  have hbefore : before = slipped.toList.take 4 :=
    List.append_cancel_right (hstands.text.trans (List.take_append_drop 4 _).symm)
  rw [← hbefore]
  exact ⟨hcur, (hcovers _ ⟨⟨4, 4⟩, []⟩ (by cbv)).1⟩

end Cursor

end Scriptlet
