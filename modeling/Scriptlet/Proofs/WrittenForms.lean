import Mathlib
import Scriptlet.Text.Quoted

/-! The written forms of numbers and texts.  Each can be told apart from the others of its kind,
and none goes over the end of a line. -/

namespace Scriptlet.Text

/-- The lines of a text; behind a newline at its end there is an empty one. -/
def lines (s : String) : List String := (s.toList.splitOn '\n').map String.ofList

def InLine (s : String) : Prop := '\n' ∉ s.toList

instance (s : String) : Decidable (InLine s) := inferInstanceAs (Decidable ('\n' ∉ s.toList))

theorem InLine.append {s t : String} (hs : InLine s) (ht : InLine t) : InLine (s ++ t) := by
  rw [InLine, String.toList_append, List.mem_append]
  exact not_or.2 ⟨hs, ht⟩

theorem splitOn_flatMap_concat [BEq α] [LawfulBEq α] {a : α} {pieces : List (List α)}
    (h : ∀ l ∈ pieces, a ∉ l) (rest : List α) :
    (pieces.flatMap (· ++ [a]) ++ rest).splitOn a = pieces ++ rest.splitOn a := by
  induction pieces with
  | nil => rfl
  | cons l pieces ih =>
    obtain ⟨hl, hpieces⟩ := List.forall_mem_cons.1 h
    rw [List.flatMap_cons, List.append_assoc, List.append_assoc, List.singleton_append,
      List.splitOn_append_cons_self, List.splitOn_eq_singleton hl, ih hpieces]
    rfl

theorem append_cons_inj [BEq α] [LawfulBEq α] {a : α} {us vs rest rest' : List α} (hu : a ∉ us)
    (hv : a ∉ vs) (h : us ++ a :: rest = vs ++ a :: rest') : us = vs ∧ rest = rest' := by
  have hsplit := congrArg (List.splitOn a) h
  rw [List.splitOn_append_cons_self, List.splitOn_append_cons_self, List.splitOn_eq_singleton hu,
    List.splitOn_eq_singleton hv] at hsplit
  obtain ⟨rfl, -⟩ := List.cons.inj hsplit
  exact ⟨rfl, (List.cons.inj (List.append_cancel_left h)).2⟩

theorem exists_splitOn_append [BEq α] [LawfulBEq α] {a : α} {us : List α} (h : a ∉ us)
    (vs : List α) : ∃ v rest, (us ++ vs).splitOn a = (us ++ v) :: rest := by
  induction us with
  | nil => exact List.exists_cons_of_ne_nil (List.splitOn_ne_nil a vs)
  | cons u us ih =>
    obtain ⟨hu, hus⟩ := not_or.1 (mt List.mem_cons.2 h)
    obtain ⟨v, rest, hsplit⟩ := ih hus
    refine ⟨v, rest, ?_⟩
    rw [List.cons_append, List.splitOn_cons_eq_if_modifyHead, hsplit]
    simp [Ne.symm hu]

theorem lines_of_inLine {s : String} (h : InLine s) : lines s = [s] := by
  rw [lines, List.splitOn_eq_singleton h, List.map_singleton, String.ofList_toList]

theorem lines_append_newline (s t : String) : lines (s ++ "\n" ++ t) = lines s ++ lines t := by
  have htext : (s ++ "\n" ++ t).toList = s.toList ++ '\n' :: t.toList := by simp
  rw [lines, htext, List.splitOn_append_cons_self, List.map_append, lines, lines]

theorem exists_head?_lines_append {s : String} (hs : InLine s) (t : String) :
    ∃ l, (lines (s ++ t)).head? = some (s ++ l) := by
  obtain ⟨v, rest, hsplit⟩ := exists_splitOn_append hs t.toList
  refine ⟨String.ofList v, ?_⟩
  rw [lines, String.toList_append, hsplit, List.map_cons, List.head?_cons, String.ofList_append,
    String.ofList_toList]

theorem length_lines (s : String) : (lines s).length = s.toList.count '\n' + 1 := by
  rw [lines, List.length_map]
  induction s.toList with
  | nil => rfl
  | cons c cs ih =>
    rw [List.splitOn_cons_eq_if_modifyHead, List.count_cons]
    split <;> simp [ih]

theorem lines_join_flatMap (ls : List String) :
    lines (String.join (ls.map (· ++ "\n"))) = ls.flatMap lines ++ [""] := by
  induction ls with
  | nil => rfl
  | cons l ls ih =>
    rw [List.map_cons, String.join_cons, lines_append_newline, ih, List.flatMap_cons,
      List.append_assoc]

theorem lines_join {ls : List String} (h : ∀ l ∈ ls, InLine l) :
    lines (String.join (ls.map (· ++ "\n"))) = ls ++ [""] := by
  rw [lines_join_flatMap, List.flatMap_congr fun l hl => lines_of_inLine (h l hl),
    List.flatMap_singleton']

theorem digitChar_inj : ∀ d < 16, ∀ e < 16, Nat.digitChar d = Nat.digitChar e → d = e := by
  decide

theorem toDigits_inj {b : Nat} (hb : 1 < b) (hb' : b ≤ 16) {m n : Nat}
    (h : Nat.toDigits b m = Nat.toDigits b n) : m = n := by
  induction m using Nat.strongRecOn generalizing n with
  | ind m ih =>
    have hlt (k : Nat) : k % b < 16 := Nat.lt_of_lt_of_le (Nat.mod_lt k (by omega)) hb'
    rcases Nat.lt_or_ge m b with hm | hm <;> rcases Nat.lt_or_ge n b with hn | hn
    · rw [Nat.toDigits_of_lt_base hm, Nat.toDigits_of_lt_base hn] at h
      exact digitChar_inj m (by omega) n (by omega) (List.head_eq_of_cons_eq h)
    · rw [Nat.toDigits_of_lt_base hm, Nat.toDigits_of_base_le hb hn] at h
      exact absurd (List.append_eq_singleton_iff.1 h.symm) (by simp [Nat.toDigits_ne_nil])
    · rw [Nat.toDigits_of_base_le hb hm, Nat.toDigits_of_lt_base hn] at h
      exact absurd (List.append_eq_singleton_iff.1 h) (by simp [Nat.toDigits_ne_nil])
    · rw [Nat.toDigits_of_base_le hb hm, Nat.toDigits_of_base_le hb hn] at h
      obtain ⟨hdiv, hmod⟩ := List.append_inj' h rfl
      have hdiv := ih (m / b) (Nat.div_lt_self (by omega) hb) hdiv
      have hmod := digitChar_inj _ (hlt m) _ (hlt n) (List.head_eq_of_cons_eq hmod)
      rw [← Nat.div_add_mod m b, ← Nat.div_add_mod n b, hdiv, hmod]

theorem mem_toDigits {b : Nat} (hb : 1 < b) {n : Nat} {c : Char} (h : c ∈ Nat.toDigits b n) :
    ∃ d < b, c = Nat.digitChar d := by
  induction n using Nat.strongRecOn with
  | ind n ih =>
    rcases Nat.lt_or_ge n b with hn | hn
    · rw [Nat.toDigits_of_lt_base hn, List.mem_singleton] at h
      exact ⟨n, hn, h⟩
    · rw [Nat.toDigits_of_base_le hb hn, List.mem_append, List.mem_singleton] at h
      rcases h with h | h
      · exact ih (n / b) (Nat.div_lt_self (by omega) hb) h
      · exact ⟨n % b, Nat.mod_lt n (by omega), h⟩

theorem inLine_repr (n : Nat) : InLine (Nat.repr n) := by
  rw [InLine, Nat.toList_repr]
  intro h
  have := Nat.isDigit_of_mem_toDigits (by decide) (by decide) h
  revert this
  decide

theorem inLine_decimal (z : Int) : InLine (decimal z) := by
  cases z with
  | ofNat n => exact inLine_repr n
  | negSucc n => exact InLine.append (by decide) (inLine_repr (n + 1))

theorem decimal_inj {z w : Int} (h : decimal z = decimal w) : z = w := by
  have hminus (m n : Nat) : Nat.repr m ≠ "-" ++ Nat.repr n := by
    intro h
    have hmem : '-' ∈ (Nat.repr m).toList := by simp [h]
    rw [Nat.toList_repr] at hmem
    have := Nat.isDigit_of_mem_toDigits (by decide) (by decide) hmem
    revert this
    decide
  cases z with
  | ofNat m =>
    cases w with
    | ofNat n => rw [Nat.repr_injective h]
    | negSucc n => exact absurd h (hminus m (n + 1))
  | negSucc m =>
    cases w with
    | ofNat n => exact absurd h.symm (hminus n (m + 1))
    | negSucc n =>
      have := Nat.repr_injective ((String.append_right_inj _).1 h)
      rw [Nat.succ_injective this]

theorem toList_zeroPad (width n : Nat) : (zeroPad width n).toList =
    List.replicate (width - (Nat.toDigits 10 n).length) '0' ++ Nat.toDigits 10 n := by
  rw [zeroPad, String.toList_ofList]

theorem isDigit_of_mem_zeroPad {width n : Nat} {c : Char} (h : c ∈ (zeroPad width n).toList) :
    c.isDigit := by
  rw [toList_zeroPad, List.mem_append] at h
  rcases h with h | h
  · rw [(List.mem_replicate.1 h).2]
    rfl
  · exact Nat.isDigit_of_mem_toDigits (by decide) (by decide) h

theorem inLine_zeroPad (width n : Nat) : InLine (zeroPad width n) := by
  intro h
  have := isDigit_of_mem_zeroPad h
  revert this
  decide

theorem ofDigitChars_zeroPad (width n : Nat) :
    Nat.ofDigitChars 10 (zeroPad width n).toList 0 = n := by
  rw [toList_zeroPad, Nat.ofDigitChars_append, Nat.ofDigitChars_replicate_zero, Nat.mul_zero,
    Nat.ofDigitChars_toDigits (by decide) (by decide)]

theorem zeroPad_inj {width m n : Nat} (h : zeroPad width m = zeroPad width n) : m = n := by
  rw [← ofDigitChars_zeroPad width m, h, ofDigitChars_zeroPad]

theorem le_length_zeroPad (width n : Nat) : width ≤ (zeroPad width n).toList.length := by
  rw [toList_zeroPad, List.length_append, List.length_replicate]
  omega

theorem inLine_padRight {width : Nat} {s : String} (h : InLine s) : InLine (padRight width s) := by
  refine h.append ?_
  rw [InLine, String.toList_ofList]
  exact fun hmem => absurd (List.eq_of_mem_replicate hmem) (by decide)

def shortEscapes : List (Char × Char) :=
  [('\x00', '0'), ('\t', 't'), ('\r', 'r'), ('\n', 'n'), ('"', '"'), ('\\', '\\')]

/-- What is written for a character between quotes. -/
inductive Escaped : Char → List Char → Prop
  | short {c k : Char} : (c, k) ∈ shortEscapes → Escaped c ['\\', k]
  | hidden (c : Char) : Escaped c ('\\' :: 'u' :: '\x7b' :: (Nat.toDigits 16 c.toNat ++ ['\x7d']))
  | plain {c : Char} : c ∉ shortEscapes.map Prod.fst → Escaped c [c]

theorem escaped_escape (c : Char) : Escaped c (escape c).toList := by
  by_cases hc : c ∈ shortEscapes.map Prod.fst
  · simp only [shortEscapes, List.map_cons, List.map_nil, List.mem_cons, List.not_mem_nil,
      or_false] at hc
    rcases hc with rfl | rfl | rfl | rfl | rfl | rfl <;> exact .short (by decide)
  · unfold escape
    split
    case h_7 =>
      split
      · simpa [hex] using Escaped.hidden c
      · simpa using Escaped.plain hc
    all_goals exact absurd (by decide) hc

theorem shortEscapes_inj :
    ∀ p ∈ shortEscapes, ∀ q ∈ shortEscapes, p.2 = q.2 → p.1 = q.1 := by
  decide

theorem ne_of_mem_shortEscapes : ∀ p ∈ shortEscapes, p.2 ≠ 'u' ∧ p.2 ≠ '\n' := by
  decide

theorem notMem_toDigits {c : Char} (hc : ∀ d < 16, c ≠ Nat.digitChar d) (n : Nat) :
    c ∉ Nat.toDigits 16 n := by
  intro h
  obtain ⟨d, hd, rfl⟩ := mem_toDigits (by decide) h
  exact hc d hd rfl

theorem Escaped.unique {c d : Char} {us vs rest rest' : List Char} (hc : Escaped c us)
    (hd : Escaped d vs) (h : us ++ rest = vs ++ rest') : c = d ∧ rest = rest' := by
  -- a backslash begins the escapes, and none stands for itself
  have hplain {e : Char} {ws rest : List Char} (he : e ∉ shortEscapes.map Prod.fst) :
      [e] ++ rest ≠ '\\' :: ws := by
    intro h
    cases h
    exact he (by decide)
  cases hc with
  | short hk =>
    cases hd with
    | short hk' =>
      simp only [List.cons_append, List.nil_append, List.cons.injEq, true_and] at h
      exact ⟨shortEscapes_inj _ hk _ hk' h.1, h.2⟩
    | hidden =>
      simp only [List.cons_append, List.cons.injEq, true_and] at h
      exact absurd h.1 (ne_of_mem_shortEscapes _ hk).1
    | plain hd => exact absurd h.symm (hplain hd)
  | hidden =>
    cases hd with
    | short hk' =>
      simp only [List.cons_append, List.cons.injEq, true_and] at h
      exact absurd h.1.symm (ne_of_mem_shortEscapes _ hk').1
    | hidden =>
      have hbrace (e : Char) : '\x7d' ∉ Nat.toDigits 16 e.toNat := notMem_toDigits (by decide) _
      simp only [List.cons_append, List.append_assoc, List.cons.injEq, true_and,
        List.nil_append] at h
      obtain ⟨hdigits, hrest⟩ := append_cons_inj (hbrace c) (hbrace d) h
      exact ⟨Char.toNat_inj.1 (toDigits_inj (by decide) (by decide) hdigits), hrest⟩
    | plain hd => exact absurd h.symm (hplain hd)
  | plain hc =>
    cases hd with
    | short => exact absurd h (hplain hc)
    | hidden => exact absurd h (hplain hc)
    | plain => exact ⟨(List.cons.inj h).1, (List.cons.inj h).2⟩

theorem Escaped.newline_notMem {c : Char} {us : List Char} (h : Escaped c us) : '\n' ∉ us := by
  cases h with
  | short hk => simp [(ne_of_mem_shortEscapes _ hk).2.symm]
  | hidden =>
    have hdigits : '\n' ∉ Nat.toDigits 16 c.toNat := notMem_toDigits (by decide) _
    simp [hdigits]
  | plain hc =>
    intro h
    cases List.mem_singleton.1 h
    exact hc (by decide)

theorem toList_quote (s : String) :
    (quote s).toList = '"' :: (s.toList.flatMap fun c => (escape c).toList) ++ ['"'] := by
  simp [quote, String.toList_append, String.toList_join, List.flatMap_map]

theorem inLine_quote (s : String) : InLine (quote s) := by
  rw [InLine, toList_quote]
  simp only [List.cons_append, List.mem_cons, List.mem_append, List.mem_flatMap, List.not_mem_nil,
    or_false, not_or, not_exists, not_and]
  exact ⟨by decide, fun c _ => (escaped_escape c).newline_notMem, by decide⟩

theorem Escaped.ne_nil {c : Char} {us : List Char} (h : Escaped c us) : us ≠ [] := by
  cases h <;> simp

theorem flatMap_escape_inj {cs ds : List Char}
    (h : (cs.flatMap fun c => (escape c).toList) = ds.flatMap fun c => (escape c).toList) :
    cs = ds := by
  induction cs generalizing ds with
  | nil =>
    cases ds with
    | nil => rfl
    | cons d ds => exact absurd (List.append_eq_nil_iff.1 h.symm).1 (escaped_escape d).ne_nil
  | cons c cs ih =>
    cases ds with
    | nil => exact absurd (List.append_eq_nil_iff.1 h).1 (escaped_escape c).ne_nil
    | cons d ds =>
      rw [List.flatMap_cons, List.flatMap_cons] at h
      obtain ⟨rfl, hrest⟩ := (escaped_escape c).unique (escaped_escape d) h
      rw [ih hrest]

theorem quote_inj {s t : String} (h : quote s = quote t) : s = t := by
  have h := congrArg String.toList h
  rw [toList_quote, toList_quote] at h
  exact String.toList_inj.1 (flatMap_escape_inj (List.append_cancel_right (List.cons.inj h).2))

end Scriptlet.Text
