import Scriptlet.Proofs.Spelling

/-! The parser recognizes its grammar.  On any tokens it either builds the tree that they
spell, or stops at a token where no tree can go on. -/

namespace Scriptlet

namespace Grammar

def operand : Grammar Node := fun n u => n.Postfixed ∧ n.Spelling u

def expression : Grammar Node := fun n u => n.Expression ∧ n.Spelling u

def statement : Grammar Node := fun n u => n.Statement ∧ n.Spelling u

theorem expression_ne_nil {n : Node} {u : List Token} (h : expression n u) : u ≠ [] := by
  obtain ⟨x, v, rfl, -⟩ := h.1.exists_start h.2
  simp

theorem statement_ne_nil {n : Node} {u : List Token} (h : statement n u) : u ≠ [] := by
  obtain ⟨x, v, rfl, -⟩ := h.1.exists_start h.2
  simp

end Grammar

namespace Parser

open Node Grammar

variable {α : Type} {k : Nat}

theorem decides_primary_error {t : Option Token}
    (h : ∀ x, t = some x → x.startsExpression = false) :
    Decides (reader primary) [] t (.error .noExpression) := by
  apply Decides.of_nothing
  intro rs hr
  rw [reader, primary.eq_def]
  split
  case h_7 => rfl
  all_goals cases h _ hr.symm

theorem decides_primary_brace {t : Option Token} (h : t ≠ some (.symbol .rbrace)) :
    Decides (reader primary) [.symbol .lbrace] t (.error .tableNotEmpty) := by
  intro ls rs hl hr
  obtain ⟨place, ls, rfl, hls⟩ := exists_of_words_cons hl
  obtain rfl := words_eq_nil.1 hls
  simp only [List.cons_append, List.nil_append, reader, primary, accept?_of_head?_ne (hr ▸ h)]
  rfl

theorem recognizes_primary : Recognizes k (reader primary) fun l u => u = l.words := by
  refine ⟨⟨.table, _, rfl⟩, fun ws _ => ?_⟩
  have hstop (h : ∀ x, ws.head? = some x → x.startsExpression = false) :
      ∃ us rs out, ws = us ++ rs ∧ Decides (reader primary) us rs.head? out ∧
        Fits (fun (l : Literal) u => u = l.words) us out :=
    ⟨[], ws, _, rfl, decides_primary_error h, .table, _, rfl⟩
  have htake (l : Literal) (rs : List Token) (h : ws = l.words ++ rs) :
      ∃ us rs out, ws = us ++ rs ∧ Decides (reader primary) us rs.head? out ∧
        Fits (fun (l : Literal) u => u = l.words) us out :=
    ⟨l.words, rs, .ok l, h, decides_primary l, rfl⟩
  cases ws with
  | nil => exact hstop (by simp)
  | cons x ws =>
    cases x with
    | number n => exact htake (.number n) ws rfl
    | string s => exact htake (.string s) ws rfl
    | ident y => exact htake (.variable y) ws rfl
    | keyword k =>
      cases k with
      | trueKw => exact htake (.boolean true) ws rfl
      | falseKw => exact htake (.boolean false) ws rfl
      | _ => exact hstop (by rintro x ⟨⟩; rfl)
    | symbol s =>
      cases s with
      | lbrace =>
        by_cases h : ws.head? = some (.symbol .rbrace)
        · obtain ⟨ws, rfl⟩ := List.head?_eq_some_iff.1 h
          exact htake .table ws rfl
        · exact ⟨[.symbol .lbrace], ws, _, rfl, decides_primary_brace h, .table, _, rfl⟩
      | _ => exact hstop (by rintro x ⟨⟩; rfl)
    | _ => exact hstop (by rintro x ⟨⟩; rfl)

theorem recognizes_listed {item : Reader α} {more : Reader (List α)} {what : Expectation}
    (hmore : more = listed item what more) {G : Grammar α} (hne : ∀ a u, G a u → u ≠ [])
    (hitem : Recognizes k item G) :
    Recognizes k more fun as w => as ≠ [] ∧ closedBy (.symbol .rparen) (Listed G) as w := by
  induction k with
  | zero =>
    obtain ⟨a, u, ha⟩ := hitem.productive
    exact ⟨⟨[a], _, by simp, u, rfl, .one ha⟩, by simp⟩
  | succ k ih =>
    rw [hmore]
    refine hitem.bind fun a u ha => ?_
    have hu : 0 < u.length := List.length_pos_iff.2 (hne a u ha)
    refine .ifNext ?_ (.word_bind (.pure ⟨by simp, u, by simp, .one ha⟩))
    refine .bind ((ih (hitem.mono (by omega))).mono (by omega)) fun as v hv => .pure ?_
    obtain ⟨has, w, rfl, hw⟩ := hv
    cases as with
    | nil => exact absurd rfl has
    | cons b bs => exact ⟨by simp, u ++ .symbol .comma :: w, by simp, .cons ha hw⟩

theorem recognizes_enclosed {item : Reader α} {more : Reader (List α)} {what : Expectation}
    (hmore : more = listed item what more) {G : Grammar α} (hne : ∀ a u, G a u → u ≠ [])
    (hitem : Recognizes k item G) :
    Recognizes k (ifNext (.symbol .rparen) (return []) more)
      (closedBy (.symbol .rparen) (Listed G)) :=
  .ifNext (.pure ⟨[], rfl, .nil⟩) ((recognizes_listed hmore hne hitem).weaken fun _ _ h => h.2)

theorem recognizes_arguments (he : Recognizes k (reader expression) Grammar.expression) :
    Recognizes k (reader arguments) (closedBy (.symbol .rparen) (Listed Grammar.expression)) := by
  rw [reader_arguments]
  exact recognizes_enclosed reader_moreArguments (fun _ _ => expression_ne_nil) he

theorem recognizes_method (he : Recognizes k (reader expression) Grammar.expression) {x : String}
    {mark : Symbol} (hmark : mark = .dot ∨ mark = .colon) :
    Recognizes k (method x) (operand.after [.ident x, .symbol mark]) := by
  refine .ident_bind fun f => .word_bind ?_
  refine .bind ((recognizes_arguments he).mono (by omega)) fun args u hu => .pure ?_
  obtain ⟨v, rfl, hv⟩ := hu
  obtain ⟨hargs, hspelling⟩ := hv.unzip
  refine ⟨.call (some x) f hargs, ?_⟩
  simpa using .method x f hmark hspelling

theorem recognizes_suffix (he : Recognizes k (reader expression) Grammar.expression) (x : String) :
    Recognizes k (suffix x) (operand.after [.ident x]) := by
  refine .ifNext ?_ (.ifNext ?_ (.ifNext ?_ (.ifNext ?_ (.pure ⟨.value _, .value _⟩))))
  · refine .bind ((recognizes_arguments he).mono (by omega)) fun args u hu => .pure ?_
    obtain ⟨v, rfl, hv⟩ := hu
    obtain ⟨hargs, hspelling⟩ := hv.unzip
    refine ⟨.call none x hargs, ?_⟩
    simpa using .call x hspelling
  · exact (recognizes_method he (.inl rfl)).mono (by omega)
  · exact (recognizes_method he (.inr rfl)).mono (by omega)
  · refine .bind (he.mono (by omega)) fun key u hu => .word_bind (.pure ?_)
    refine ⟨.index x hu.1, ?_⟩
    simpa using .index x hu.2

theorem recognizes_postfixed (he : Recognizes k (reader expression) Grammar.expression) :
    Recognizes (k + 1) (reader postfixed) operand := by
  rw [reader_postfixed]
  refine recognizes_primary.bind ?_
  rintro l u rfl
  cases l with
  | «variable» x => exact recognizes_suffix he x
  | _ =>
    refine .pure ⟨.value _, ?_⟩
    rw [List.append_nil]
    exact .value _

theorem recognizes_expression : Recognizes k (reader expression) Grammar.expression := by
  induction k with
  | zero => exact ⟨⟨_, _, .postfixed (.value .table), .value .table⟩, by simp⟩
  | succ k ih =>
    rw [reader_expression]
    refine (recognizes_postfixed ih).bind fun lhs u hu => ?_
    refine .ifNext ?_ (.pure ⟨.postfixed hu.1, by simpa using hu.2⟩)
    refine .bind ((recognizes_postfixed ih).mono (by omega)) fun rhs v hv => ?_
    refine .refuse_bind (.pure ⟨.notEqual hu.1 hv.1, ?_⟩)
    simpa using .notEqual hu.2 hv.2

theorem recognizes_parameters :
    Recognizes k (reader parameters) (closedBy (.symbol .rparen) (Listed Grammar.ident)) := by
  rw [reader_parameters]
  refine recognizes_enclosed reader_moreParameters ?_ ?_
  · rintro x u rfl
    simp
  · rw [← bind_pure (reader _)]
    exact .ident_bind fun x => .pure rfl

theorem recognizes_initializer {x : String} {what : Expectation} :
    Recognizes k (reader (initializer x what)) fun n u =>
      ∃ e v, n = .assign true (.value (.variable x)) e ∧ u = .symbol .assign :: v ∧
        Grammar.expression e v := by
  rw [reader_initializer]
  refine .word_bind (.bind recognizes_expression fun e v hv => .pure ⟨e, v, rfl, ?_, hv⟩)
  simp

theorem recognizes_assignment {e : Node} {u : List Token} (hu : Grammar.expression e u) :
    Recognizes k (assignment e) (Grammar.statement.after u) := by
  have hnothing : Grammar.statement.after u e [] := by
    refine ⟨.expression hu.1, ?_⟩
    rw [List.append_nil]
    exact hu.2
  rw [assignment]
  split
  · next ht =>
    refine .ifNext (.bind recognizes_expression fun v w hw => .pure ?_) (.pure hnothing)
    refine ⟨assignment_sound ht hu.1 hw.1, ?_⟩
    simpa using .assign hu.2 hw.2
  · exact .refuse_bind (.pure hnothing)

theorem recognizes_statement (hblock : ∀ c, Recognizes k (reader (block c))
      (closedBy (.keyword .endKw) (Joined Grammar.statement))) :
    Recognizes (k + 1) (reader statement) Grammar.statement := by
  rw [reader_statement]
  refine .ifNext ?_ (.ifNext ?_ (.ifNext ?_ (.ifNext ?_ (.ifNext ?_ ?_))))
  · refine .ident_bind fun x => recognizes_initializer.weaken ?_
    rintro n u ⟨e, v, rfl, rfl, he⟩
    exact ⟨.assign true x he.1, .assignLocal (.value _) he.2⟩
  · refine .ident_bind fun x => .bind recognizes_initializer ?_
    rintro initial u ⟨e, w, rfl, rfl, he⟩
    refine .word_bind (.bind recognizes_expression fun bound v hv => .word_bind ?_)
    refine .bind ((hblock _).mono (by omega)) fun body z hz => .pure ?_
    obtain ⟨z, rfl, hz⟩ := hz
    obtain ⟨hbody, hspelling⟩ := hz.unzip
    refine ⟨.forLoop x he.1 hv.1 hbody, ?_⟩
    simpa using .forLoop (.assignLocal (.value (.variable x)) he.2) hv.2 hspelling
  · refine .ident_bind fun f => .word_bind (.bind recognizes_parameters fun params u hu => ?_)
    refine .bind ((hblock _).mono (by omega)) fun body v hv => .pure ?_
    obtain ⟨u, rfl, hu⟩ := hu
    obtain ⟨v, rfl, hv⟩ := hv
    obtain ⟨hbody, hspelling⟩ := hv.unzip
    refine ⟨.function f params hbody, ?_⟩
    simpa using .function f hu hspelling
  · refine .bind recognizes_expression fun e u hu => .pure ⟨.ret hu.1, ?_⟩
    simpa using .ret hu.2
  · refine .bind recognizes_expression fun condition u hu => .word_bind ?_
    refine .bind ((hblock _).mono (by omega)) fun body v hv => .pure ?_
    obtain ⟨v, rfl, hv⟩ := hv
    obtain ⟨hbody, hspelling⟩ := hv.unzip
    refine ⟨.ifThen hu.1 hbody, ?_⟩
    simpa using .ifThen hu.2 hspelling
  · exact recognizes_expression.bind fun e u hu => recognizes_assignment hu

theorem recognizes_block : ∀ c, Recognizes k (reader (block c))
    (closedBy (.keyword .endKw) (Joined Grammar.statement)) := by
  have hempty : closedBy (.keyword .endKw) (Joined Grammar.statement) [] [.keyword .endKw] :=
    ⟨[], rfl, .nil⟩
  induction k with
  | zero => exact fun c => ⟨⟨[], _, hempty⟩, by simp⟩
  | succ k ih =>
    intro c
    rw [reader_block]
    refine .atEnd ⟨.error (.unclosed c), .of_nothing fun _ _ => rfl, [], _, hempty⟩ ?_
    refine .ifNext (.pure hempty) (.bind (recognizes_statement ih) fun n u hu => ?_)
    have hpos : 0 < u.length := List.length_pos_iff.2 (statement_ne_nil hu)
    refine .bind ((ih c).mono (by omega)) fun ns v hv => .pure ?_
    obtain ⟨v, rfl, hv⟩ := hv
    exact ⟨u ++ v, by simp, .cons hu hv⟩

theorem recognizes_script : Recognizes k script (Joined Grammar.statement) := by
  induction k with
  | zero => exact ⟨⟨[], _, .nil⟩, by simp⟩
  | succ k ih =>
    rw [script_eq]
    refine .atEnd ⟨_, .pure, .nil⟩ (.bind (recognizes_statement recognizes_block) fun n u hu => ?_)
    have hpos : 0 < u.length := List.length_pos_iff.2 (statement_ne_nil hu)
    refine .bind (ih.mono (by omega)) fun ns v hv => .pure ?_
    rw [← List.append_nil v] at hv
    exact .cons hu hv

theorem script_eq_ok {us : List Located} {ns : List Node} :
    script us = .ok ns [] ↔ program us = .ok ns := by
  rw [script]
  cases program us <;> simp

theorem program_eq_ok_iff {us : List Located} {ns : List Node} :
    program us = .ok ns ↔ (∀ n ∈ ns, n.Statement) ∧ Joined Spelling ns (words us) := by
  rw [← script_eq_ok]
  constructor
  · intro h
    obtain ⟨ls, rs, out, rfl, hsettle, hout, -⟩ :=
      recognizes_script.cases_of (Nat.lt_succ_self us.length)
    rw [h] at hsettle
    cases out with
    | error e => cases hsettle
    | ok ms =>
      cases hsettle
      rw [List.append_nil]
      exact Joined.unzip hout
  · intro ⟨hns, hu⟩
    have h := decides_script hns hu us [] rfl rfl
    rwa [List.append_nil] at h

end Parser

def Located.content (ts : List Located) : List Token :=
  Parser.words (significant (ts.takeWhile (·.token ≠ .eof)))

namespace TokenStream

open Grammar

theorem unread_ofTokens (ts : List Located) :
    (ofTokens ts).unread = Located.significant (ts.takeWhile (·.token ≠ .eof)) := by
  simp only [ofTokens, Located.significant]
  induction ts with
  | nil => rfl
  | cons l ts ih =>
    by_cases heof : l.token = .eof
    · simp [heof, Token.isTrivia]
    · cases htrivia : l.token.isTrivia <;> simp_all

theorem exists_parse_iff {s : TokenStream} {ns : List Node} :
    (∃ s', s.parse = .ok ns s') ↔ Parser.program s.unread = .ok ns := by
  rw [parse]
  cases Parser.program s.unread <;> simp

theorem exists_parse_ofTokens_iff {ts : List Located} {ns : List Node} :
    (∃ s, (ofTokens ts).parse = .ok ns s) ↔
      (∀ n ∈ ns, n.Statement) ∧ Joined Node.Spelling ns (Located.content ts) := by
  rw [exists_parse_iff, Parser.program_eq_ok_iff, unread_ofTokens]
  rfl

/-- The parser builds a list of nodes just if it is one of statements and the tokens spell it;
it reads back what is written, and no two scripts are written alike. -/
theorem parse_exact :
    (∀ (ts : List Located) (ns : List Node), (∃ s, (ofTokens ts).parse = .ok ns s) ↔
      (∀ n ∈ ns, n.Statement) ∧ Joined Node.Spelling ns (Located.content ts)) ∧
    (∀ (ts : List Located) (ns : List Node), (∀ n ∈ ns, n.Statement) →
      Located.content ts = Node.wordsOfBlock ns → ∃ s, (ofTokens ts).parse = .ok ns s) ∧
    ∀ (ns ms : List Node) (u : List Token), (∀ n ∈ ns, n.Statement) → (∀ n ∈ ms, n.Statement) →
      Joined Node.Spelling ns u → Joined Node.Spelling ms u → ns = ms := by
  refine ⟨fun ts ns => exists_parse_ofTokens_iff, ?_, ?_⟩
  · intro ts ns hns hts
    rw [exists_parse_ofTokens_iff, hts]
    exact ⟨hns, Node.joined_wordsOfBlock fun n hn => (hns n hn).spelling_words⟩
  · intro ns ms u hns hms hnu hmu
    rw [← Parser.words_unplaced u] at hnu hmu
    have hn := Parser.program_eq_ok_iff.2 ⟨hns, hnu⟩
    have hm := Parser.program_eq_ok_iff.2 ⟨hms, hmu⟩
    exact Except.ok.inj (hn.symm.trans hm)

/-- A colon, a comment and newlines, no mark between the statements, and tokens behind `eof`. -/
def colonCall : List Located := Parser.unplaced
  [.ident "t", .symbol .colon, .ident "f", .symbol .lparen, .ident "x", .symbol .comma, .newline,
    .number 1, .symbol .rparen, .comment "done", .ident "y", .symbol .assign, .symbol .lbrace,
    .symbol .rbrace, .newline, .eof, .keyword .endKw]

def colonCallTree : List Node :=
  [.call (some "t") "f" [.value (.variable "x"), .value (.number 1)],
    .assign false (.value (.variable "y")) (.value .table)]

theorem parse_exact_colonCall :
    (∃ s, (ofTokens colonCall).parse = .ok colonCallTree s) ∧
    (∃ s, (ofTokens (Parser.unplaced (Node.wordsOfBlock colonCallTree))).parse =
      .ok colonCallTree s) := by
  obtain ⟨hexact, hundo, -⟩ := parse_exact
  have hns : ∀ n ∈ colonCallTree, n.Statement := by
    simp only [colonCallTree, List.forall_mem_cons]
    refine ⟨.expression (.postfixed (.call _ _ ?_)), .assign false "y" (.postfixed (.value _)), ?_⟩
    · simpa using ⟨.postfixed (.value (.variable "x")), .postfixed (.value (.number 1))⟩
    · simp
  have hspelling : Joined Node.Spelling colonCallTree (Located.content colonCall) :=
    .cons (Node.Spelling.method "t" "f" (.inr rfl)
        (.cons (.value (.variable "x")) (.one (.value (.number 1)))))
      (.cons (Node.Spelling.assign (.value (.variable "y")) (.value .table)) .nil)
  exact ⟨(hexact _ _).2 ⟨hns, hspelling⟩, hundo _ _ hns (by cbv)⟩

end TokenStream

end Scriptlet
