import Scriptlet.Proofs.Lexemes
import Scriptlet.Proofs.Recognition

/-! Syntax errors stand where the input goes wrong.  The tokens before the one that an error
names begin some script that parses, and with that token they begin none. -/

namespace Scriptlet

open Grammar

def Token.isWord (t : Token) : Bool := t ≠ .eof && !t.isTrivia

@[simp] theorem Token.isWord_ident (x : String) : (ident x).isWord := rfl

@[simp] theorem Token.isWord_keyword (k : Keyword) : (keyword k).isWord := rfl

@[simp] theorem Token.isWord_symbol (s : Symbol) : (symbol s).isWord := rfl

theorem Literal.all_isWord_words (l : Literal) : l.words.all Token.isWord := by
  cases l with
  | boolean b => cases b <;> rfl
  | _ => rfl

theorem Grammar.Listed.all_isWord_ident {xs : List String} {u : List Token}
    (h : Listed Grammar.ident xs u) : u.all Token.isWord := by
  induction h with
  | nil => rfl
  | one hx =>
    cases hx
    rfl
  | cons hx _ ih =>
    cases hx
    simpa using ih

mutual

theorem Node.Spelling.all_isWord {n : Node} {u : List Token} :
    n.Spelling u → u.all Token.isWord
  | .value l => l.all_isWord_words
  | .notEqual hl hr => by simp [hl.all_isWord, hr.all_isWord]
  | .call _ h => by simp [Grammar.Listed.all_isWord h]
  | .method _ _ _ h => by simp [Grammar.Listed.all_isWord h]
  | .index _ h => by simp [h.all_isWord]
  | .assign ht he => by simp [ht.all_isWord, he.all_isWord]
  | .assignLocal ht he => by simp [ht.all_isWord, he.all_isWord]
  | .ifThen hc hb => by simp [hc.all_isWord, Grammar.Joined.all_isWord hb]
  | .forLoop hi he hb => by
    have hi := hi.all_isWord
    rw [List.all_cons] at hi
    simp [(Bool.and_eq_true_iff.1 hi).2, he.all_isWord, Grammar.Joined.all_isWord hb]
  | .function _ hp hb => by
    simp [hp.all_isWord_ident, Grammar.Joined.all_isWord hb]
  | .ret h => by simp [h.all_isWord]

theorem Grammar.Listed.all_isWord {ns : List Node} {u : List Token} :
    Listed Node.Spelling ns u → u.all Token.isWord
  | .nil => rfl
  | .one h => h.all_isWord
  | .cons h hs => by simp [h.all_isWord, Grammar.Listed.all_isWord hs]

theorem Grammar.Joined.all_isWord {ns : List Node} {u : List Token} :
    Joined Node.Spelling ns u → u.all Token.isWord
  | .nil => rfl
  | .cons h hs => by simp [h.all_isWord, Grammar.Joined.all_isWord hs]

end

namespace Parser

theorem program_eq_error {us : List Located} {f : Failure} (h : program us = .error f) :
    ∃ ls, us = ls ++ f.rest ∧
      (∃ ns vs, (∀ n ∈ ns, n.Statement) ∧ Joined Node.Spelling ns (words ls ++ vs)) ∧
      ∀ rs, (words rs).head? = (words f.rest).head? → ∀ ns, program (ls ++ rs) ≠ .ok ns := by
  obtain ⟨ls, rs, out, rfl, hsettle, hout, hd⟩ :=
    recognizes_script.cases_of (Nat.lt_succ_self us.length)
  have hscript : script (ls ++ rs) = .error f.cause f.rest := by rw [script, h]
  rw [hscript] at hsettle
  cases out with
  | ok ns => cases hsettle
  | error e =>
    cases hsettle
    obtain ⟨ns, vs, hns⟩ := hout
    refine ⟨ls, rfl, ⟨ns, vs, hns.unzip⟩, fun rs hrs ns hok => ?_⟩
    have herror := hd ls rs rfl hrs
    rw [script_eq_ok.2 hok] at herror
    cases herror

end Parser

namespace TokenStream

variable {ls ts : List Located}

def Viable (ts : List Located) : Prop := ∃ us ns s, (ofTokens (ts ++ us)).parse = .ok ns s

theorem viable_iff : Viable ts ↔ ∃ us ns, Parser.program (ofTokens (ts ++ us)).unread = .ok ns := by
  simp only [Viable, exists_parse_iff]

theorem unread_ofTokens_append (h : (Parser.words ls).all Token.isWord) :
    (ofTokens (ls ++ ts)).unread = ls ++ (ofTokens ts).unread := by
  rw [Parser.words, List.all_map, List.all_eq_true] at h
  have heof : ∀ l ∈ ls, decide (l.token ≠ .eof) := fun l hl => (Bool.and_eq_true_iff.1 (h l hl)).1
  have htrivia : Located.significant ls = ls :=
    List.filter_eq_self.2 fun l hl => (Bool.and_eq_true_iff.1 (h l hl)).2
  rw [unread_ofTokens, unread_ofTokens, List.takeWhile_append_of_pos heof, Located.significant,
    List.filter_append]
  exact congrArg (· ++ _) htrivia

theorem unread_ofTokens_eof {place : Place} : (ofTokens (⟨.eof, place⟩ :: ts)).unread = [] := by
  simp [unread_ofTokens, Located.significant]

theorem ofTokens_tokens {cur stop : Cursor} (h : cur.tokens = .ok ts stop) :
    ∃ us place, Located.significant ts = us ++ [⟨.eof, place⟩] ∧ ofTokens ts = ⟨us, place⟩ ∧
      (Parser.words us).all Token.isWord := by
  obtain ⟨body, place, rfl, hbody⟩ := Cursor.tokens_ends h
  have hkept : Located.significant (body ++ [⟨.eof, place⟩]) =
      Located.significant body ++ [⟨.eof, place⟩] := by
    simp [Located.significant, Token.isTrivia]
  have heof : ∀ l ∈ Located.significant body, decide (l.token ≠ .eof) :=
    fun l hl => decide_eq_true (hbody l (List.mem_of_mem_filter hl))
  refine ⟨_, place, hkept, ?_, ?_⟩
  · rw [ofTokens, hkept, List.takeWhile_append_of_pos heof]
    simp
  · rw [Parser.words, List.all_map, List.all_eq_true]
    exact fun l hl => Bool.and_eq_true_iff.2 ⟨heof l hl, (List.mem_filter.1 hl).2⟩

theorem viable_of_joined {ns : List Node} {vs : List Token} (hns : ∀ n ∈ ns, n.Statement)
    (h : Joined Node.Spelling ns (Parser.words ls ++ vs)) : Viable ls := by
  rw [← Parser.words_unplaced vs, ← Parser.words_append] at h
  refine viable_iff.2 ⟨Parser.unplaced vs, ns, ?_⟩
  rw [← List.append_nil (ls ++ _), unread_ofTokens_append h.all_isWord]
  exact Parser.program_eq_ok_iff.2 ⟨hns, by simpa [unread_ofTokens, Located.significant] using h⟩

theorem exists_next (place : Place) {us : List Located} (h : (Parser.words us).all Token.isWord) :
    ∃ l rs, us ++ [⟨.eof, place⟩] = l :: rs ∧ (TokenStream.mk us place).place = l.place ∧
      (TokenStream.mk us place).found = l.token ∧
      ∀ vs, (Parser.words (ofTokens (l :: vs)).unread).head? = (Parser.words us).head? := by
  cases us with
  | nil => exact ⟨⟨.eof, place⟩, [], rfl, rfl, rfl, fun vs => by rw [unread_ofTokens_eof]⟩
  | cons l us =>
    refine ⟨l, us ++ [⟨.eof, place⟩], rfl, rfl, rfl, fun vs => ?_⟩
    have hl : (Parser.words [l]).all Token.isWord := by
      rw [Parser.words, List.map_cons, List.all_cons, Bool.and_eq_true_iff] at h
      simpa [Parser.words] using h.1
    rw [← List.singleton_append, unread_ofTokens_append hl]
    rfl

/-- An error names the first token with which the tokens no longer begin a script. -/
theorem parse_error_exact {cur stop : Cursor} {e : SyntaxError} {s : TokenStream}
    (hts : cur.tokens = .ok ts stop) (hparse : (ofTokens ts).parse = .error e s) :
    ∃ k l, (Located.significant ts)[k]? = some l ∧ e.place = l.place ∧ e.found = l.token ∧
      Viable ((Located.significant ts).take k) ∧
      ¬ Viable ((Located.significant ts).take (k + 1)) := by
  obtain ⟨us, place, hkept, hstream, hwords⟩ := ofTokens_tokens hts
  rw [parse, hstream] at hparse
  cases hf : Parser.program us with
  | ok ns => simp [hf] at hparse
  | error f =>
    simp only [hf] at hparse
    cases hparse
    obtain ⟨ls, rfl, ⟨ns, vs, hns, hspelling⟩, hfail⟩ := Parser.program_eq_error hf
    rw [Parser.words_append, List.all_append, Bool.and_eq_true_iff] at hwords
    obtain ⟨l, rs, hl, hplace, hfound, hnext⟩ := exists_next place hwords.2
    rw [hkept, List.append_assoc, hl]
    refine ⟨ls.length, l, by simp, hplace, hfound, ?_, ?_⟩
    · rw [List.take_left]
      exact viable_of_joined hns hspelling
    · rw [List.take_length_add_append, viable_iff]
      rintro ⟨us, ms, hok⟩
      rw [List.append_assoc, unread_ofTokens_append hwords.1] at hok
      exact hfail _ (hnext us) ms hok

def straySign : List Located :=
  [⟨.keyword .ifKw, ⟨1, 1⟩⟩, ⟨.ident "a", ⟨1, 4⟩⟩, ⟨.newline, ⟨1, 5⟩⟩, ⟨.keyword .thenKw, ⟨2, 1⟩⟩,
    ⟨.comment "b", ⟨2, 6⟩⟩, ⟨.newline, ⟨2, 10⟩⟩, ⟨.ident "c", ⟨3, 1⟩⟩, ⟨.symbol .assign, ⟨3, 3⟩⟩,
    ⟨.symbol .assign, ⟨3, 5⟩⟩, ⟨.ident "d", ⟨3, 7⟩⟩, ⟨.eof, ⟨3, 8⟩⟩]

theorem parse_error_exact_straySign :
    (Cursor.ofString "if a\nthen -- b\nc = = d").tokens = .ok straySign ⟨⟨3, 8⟩, []⟩ ∧
      (ofTokens straySign).parse = .error ⟨.noExpression, .symbol .assign, ⟨3, 5⟩⟩
        ⟨(straySign.drop 8).take 2, ⟨3, 8⟩⟩ ∧
      ∃ k l, (Located.significant straySign)[k]? = some l ∧ ⟨3, 5⟩ = l.place ∧
        .symbol .assign = l.token ∧ Viable ((Located.significant straySign).take k) ∧
        ¬ Viable ((Located.significant straySign).take (k + 1)) := by
  have hts : (Cursor.ofString "if a\nthen -- b\nc = = d").tokens =
      .ok straySign ⟨⟨3, 8⟩, []⟩ := by cbv
  have hparse : (ofTokens straySign).parse = .error ⟨.noExpression, .symbol .assign, ⟨3, 5⟩⟩
      ⟨(straySign.drop 8).take 2, ⟨3, 8⟩⟩ := by cbv
  exact ⟨hts, hparse, parse_error_exact hts hparse⟩

end TokenStream

end Scriptlet
