import Scriptlet.Proofs.Grammar
import Scriptlet.Proofs.Lookahead

/-! How trees are written.  A spelling of a node is a row of tokens; a node has more than one
only because the name of a method may stand behind a dot or behind a colon.  Statements follow
each other without a separator: no token that begins a statement can go on with an expression.
So the parser finds the one tree that the tokens spell, or there is none. -/

namespace Scriptlet

def Literal.words : Literal → List Token
  | number n => [.number n]
  | string s => [.string s]
  | boolean true => [.keyword .trueKw]
  | boolean false => [.keyword .falseKw]
  | «variable» x => [.ident x]
  | table => [.symbol .lbrace, .symbol .rbrace]

namespace Node

open Grammar

/-- The initializer of a loop is written like a local assignment, but without `local`. -/
inductive Spelling : Node → List Token → Prop
  | value (l : Literal) : Spelling (.value l) l.words
  | notEqual {lhs rhs : Node} {u v : List Token} : Spelling lhs u → Spelling rhs v →
    Spelling (.notEqual lhs rhs) (u ++ .symbol .notEq :: v)
  | call (f : String) {args : List Node} {u : List Token} : Listed Spelling args u →
    Spelling (.call none f args) (.ident f :: .symbol .lparen :: (u ++ [.symbol .rparen]))
  | method (x f : String) {args : List Node} {mark : Symbol} {u : List Token} :
    mark = .dot ∨ mark = .colon → Listed Spelling args u →
    Spelling (.call (some x) f args)
      (.ident x :: .symbol mark :: .ident f :: .symbol .lparen :: (u ++ [.symbol .rparen]))
  | index (b : String) {key : Node} {u : List Token} : Spelling key u →
    Spelling (.index b key) (.ident b :: .symbol .lbracket :: (u ++ [.symbol .rbracket]))
  | assign {target e : Node} {u v : List Token} : Spelling target u → Spelling e v →
    Spelling (.assign false target e) (u ++ .symbol .assign :: v)
  | assignLocal {target e : Node} {u v : List Token} : Spelling target u → Spelling e v →
    Spelling (.assign true target e) (.keyword .localKw :: (u ++ .symbol .assign :: v))
  | ifThen {condition : Node} {body : List Node} {u v : List Token} : Spelling condition u →
    Joined Spelling body v →
    Spelling (.ifThen condition body)
      (.keyword .ifKw :: (u ++ .keyword .thenKw :: (v ++ [.keyword .endKw])))
  | forLoop {initial bound : Node} {body : List Node} {u v w : List Token} :
    Spelling initial (.keyword .localKw :: u) → Spelling bound v → Joined Spelling body w →
    Spelling (.forLoop initial bound body)
      (.keyword .forKw :: (u ++ .symbol .comma ::
        (v ++ .keyword .doKw :: (w ++ [.keyword .endKw]))))
  | function (f : String) {params : List String} {body : List Node} {u v : List Token} :
    Listed Grammar.ident params u → Joined Spelling body v →
    Spelling (.function f params body)
      (.keyword .functionKw :: .ident f :: .symbol .lparen ::
        (u ++ .symbol .rparen :: (v ++ [.keyword .endKw])))
  | ret {e : Node} {u : List Token} : Spelling e u →
    Spelling (.ret e) (.keyword .returnKw :: u)

mutual

def words : Node → List Token
  | .value l => l.words
  | .notEqual lhs rhs => words lhs ++ .symbol .notEq :: words rhs
  | .call none f args => .ident f :: .symbol .lparen :: (wordsOfArguments args ++ [.symbol .rparen])
  | .call (some x) f args =>
    .ident x :: .symbol .dot :: .ident f :: .symbol .lparen ::
      (wordsOfArguments args ++ [.symbol .rparen])
  | .index b key => .ident b :: .symbol .lbracket :: (words key ++ [.symbol .rbracket])
  | .assign false target e => words target ++ .symbol .assign :: words e
  | .assign true target e => .keyword .localKw :: (words target ++ .symbol .assign :: words e)
  | .ifThen condition body =>
    .keyword .ifKw :: (words condition ++ .keyword .thenKw ::
      (wordsOfBlock body ++ [.keyword .endKw]))
  | .forLoop initial bound body =>
    .keyword .forKw :: ((words initial).tail ++ .symbol .comma ::
      (words bound ++ .keyword .doKw :: (wordsOfBlock body ++ [.keyword .endKw])))
  | .function f params body =>
    .keyword .functionKw :: .ident f :: .symbol .lparen ::
      ((params.map Token.ident).intersperse (.symbol .comma) ++ .symbol .rparen ::
        (wordsOfBlock body ++ [.keyword .endKw]))
  | .ret e => .keyword .returnKw :: words e

def wordsOfArguments : List Node → List Token
  | [] => []
  | [n] => words n
  | n :: m :: ns => words n ++ .symbol .comma :: wordsOfArguments (m :: ns)

def wordsOfBlock : List Node → List Token
  | [] => []
  | n :: ns => words n ++ wordsOfBlock ns

end

theorem listed_wordsOfArguments {args : List Node} (h : ∀ n ∈ args, Spelling n n.words) :
    Listed Spelling args (wordsOfArguments args) := by
  induction args with
  | nil => exact .nil
  | cons n ns ih =>
    rw [List.forall_mem_cons] at h
    cases ns with
    | nil => exact .one h.1
    | cons m ms => exact .cons h.1 (ih h.2)

theorem joined_wordsOfBlock {body : List Node} (h : ∀ n ∈ body, Spelling n n.words) :
    Joined Spelling body (wordsOfBlock body) := by
  induction body with
  | nil => exact .nil
  | cons n ns ih =>
    rw [List.forall_mem_cons] at h
    exact .cons h.1 (ih h.2)

theorem listed_parameters (params : List String) :
    Listed Grammar.ident params
      ((params.map Token.ident).intersperse (.symbol .comma)) := by
  induction params with
  | nil => exact .nil
  | cons x xs ih =>
    have hx : Grammar.ident x [.ident x] := rfl
    cases xs with
    | nil => exact .one hx
    | cons y ys => exact .cons hx ih

mutual

theorem Postfixed.spelling_words {n : Node} : Postfixed n → Spelling n n.words
  | .value l => .value l
  | .call none f h => .call f (listed_wordsOfArguments fun n hn => (h n hn).spelling_words)
  | .call (some x) f h =>
    .method x f (.inl rfl) (listed_wordsOfArguments fun n hn => (h n hn).spelling_words)
  | .index b h => .index b h.spelling_words

theorem Expression.spelling_words {n : Node} : Expression n → Spelling n n.words
  | .postfixed h => h.spelling_words
  | .notEqual hl hr => .notEqual hl.spelling_words hr.spelling_words

end

theorem Statement.spelling_words {n : Node} (h : Statement n) : Spelling n n.words := by
  induction h with
  | expression h => exact h.spelling_words
  | assign isLocal x hv =>
    cases isLocal with
    | false => exact .assign (.value _) hv.spelling_words
    | true => exact .assignLocal (.value _) hv.spelling_words
  | assignIndex b hk hv => exact .assign (.index b hk.spelling_words) hv.spelling_words
  | ifThen hc _ ih => exact .ifThen hc.spelling_words (joined_wordsOfBlock ih)
  | forLoop x hv hb _ ih =>
    exact .forLoop (.assignLocal (.value _) hv.spelling_words) hb.spelling_words
      (joined_wordsOfBlock ih)
  | function f params _ ih => exact .function f (listed_parameters params) (joined_wordsOfBlock ih)
  | ret h => exact .ret h.spelling_words

end Node

def Token.startsExpression : Token → Bool
  | number _ | string _ | ident _ | keyword .trueKw | keyword .falseKw | symbol .lbrace => true
  | _ => false

def Token.startsStatement : Token → Bool
  | keyword .localKw | keyword .forKw | keyword .functionKw | keyword .returnKw
  | keyword .ifKw => true
  | t => t.startsExpression

namespace Parser

open Node Grammar

def suffixMarks : List Token :=
  [.symbol .lparen, .symbol .dot, .symbol .colon, .symbol .lbracket]

def operandMarks : List Token := .symbol .notEq :: suffixMarks

def statementMarks : List Token := .symbol .assign :: operandMarks

def Stops (marks : List Token) (t : Option Token) : Prop := ∀ x ∈ marks, t ≠ some x

instance (marks : List Token) (t : Option Token) : Decidable (Stops marks t) :=
  inferInstanceAs (Decidable (∀ x ∈ marks, t ≠ some x))

theorem Stops.tail {marks : List Token} {x : Token} {t : Option Token}
    (h : Stops (x :: marks) t) : Stops marks t := fun y hy => h y (.tail x hy)

theorem stops_of_startsStatement {x : Token} (h : x.startsStatement) :
    Stops statementMarks (some x) := by
  have hmarks : ∀ y ∈ statementMarks, y.startsStatement = false := by decide
  rintro y hy ⟨⟩
  cases h.symm.trans (hmarks x hy)

end Parser

namespace Node

theorem startsStatement_of_startsExpression {x : Token} (h : x.startsExpression) :
    x.startsStatement := by
  rw [Token.startsStatement.eq_def]
  split
  case h_6 => exact h
  all_goals rfl

theorem Postfixed.exists_start {n : Node} {u : List Token} (h : Postfixed n)
    (hs : Spelling n u) : ∃ x v, u = x :: v ∧ x.startsExpression := by
  cases hs with
  | value l =>
    cases l with
    | boolean b => cases b <;> exact ⟨_, _, rfl, rfl⟩
    | _ => exact ⟨_, _, rfl, rfl⟩
  | call => exact ⟨_, _, rfl, rfl⟩
  | method => exact ⟨_, _, rfl, rfl⟩
  | index => exact ⟨_, _, rfl, rfl⟩
  | _ => cases h

theorem Expression.exists_start {n : Node} {u : List Token} (h : Expression n)
    (hs : Spelling n u) : ∃ x v, u = x :: v ∧ x.startsExpression := by
  cases h with
  | postfixed h => exact h.exists_start hs
  | notEqual hl hr =>
    cases hs with
    | notEqual hu hv =>
      obtain ⟨x, v, rfl, hx⟩ := hl.exists_start hu
      exact ⟨x, _, rfl, hx⟩

theorem Statement.exists_start {n : Node} {u : List Token} (h : Statement n)
    (hs : Spelling n u) : ∃ x v, u = x :: v ∧ x.startsStatement := by
  have hexpr {e : Node} {w : List Token} (he : Expression e) (hw : Spelling e w) :
      ∃ x v, w = x :: v ∧ x.startsStatement := by
    obtain ⟨x, v, hv, hx⟩ := he.exists_start hw
    exact ⟨x, v, hv, startsStatement_of_startsExpression hx⟩
  cases h with
  | expression h => exact hexpr h hs
  | assign isLocal x hv =>
    cases hs with
    | assign hx _ =>
      obtain ⟨y, v, rfl, hy⟩ := hexpr (.postfixed (.value _)) hx
      exact ⟨y, _, rfl, hy⟩
    | assignLocal => exact ⟨_, _, rfl, rfl⟩
  | assignIndex b hk hv =>
    cases hs with
    | assign hx _ =>
      obtain ⟨y, v, rfl, hy⟩ := hexpr (.postfixed (.index b hk)) hx
      exact ⟨y, _, rfl, hy⟩
  | ifThen => cases hs; exact ⟨_, _, rfl, rfl⟩
  | forLoop => cases hs; exact ⟨_, _, rfl, rfl⟩
  | function => cases hs; exact ⟨_, _, rfl, rfl⟩
  | ret => cases hs; exact ⟨_, _, rfl, rfl⟩

end Node

namespace Parser

open Node Grammar

variable {α : Type} {t : Option Token} {u : List Token}

theorem decides_primary (l : Literal) : Decides (reader primary) l.words t (.ok l) := by
  intro ls rs hl _
  cases l with
  | boolean b =>
    cases b <;>
    · obtain ⟨place, ls, rfl, hls⟩ := exists_of_words_cons hl
      rw [words_eq_nil.1 hls]
      rfl
  | table =>
    obtain ⟨place, ls, rfl, hr⟩ := exists_of_words_cons hl
    obtain ⟨place', ls, rfl, hls⟩ := exists_of_words_cons hr
    rw [words_eq_nil.1 hls]
    rfl
  | _ =>
    obtain ⟨place, ls, rfl, hls⟩ := exists_of_words_cons hl
    rw [words_eq_nil.1 hls]
    rfl

theorem decides_listed {item : Reader α} {more : Reader (List α)} {what : Expectation}
    (hmore : more = listed item what more) {G : Grammar α} {as : List α} (has : as ≠ [])
    (hitem : ∀ a ∈ as, ∀ u x, G a u → x = .symbol .comma ∨ x = .symbol .rparen →
      Decides item u (some x) (.ok a))
    (hu : Listed G as u) : Decides more (u ++ [.symbol .rparen]) t (.ok as) := by
  induction hu with
  | nil => exact absurd rfl has
  | one ha =>
    rw [hmore]
    exact (hitem _ (.head _) _ _ ha (.inr rfl)).bind_cons
      (.ifNext_else (.word_bind .pure) (by simp))
  | cons ha _ ih =>
    rw [List.append_assoc, hmore]
    refine (hitem _ (.head _) _ _ ha (.inl rfl)).bind_cons (.ifNext_next ?_)
    refine .bind_nothing (ih (by simp) ?_) .pure
    exact fun a h => hitem a (.tail _ h)

theorem decides_enclosed {item : Reader α} {more : Reader (List α)} {what : Expectation}
    (hmore : more = listed item what more) {G : Grammar α} {as : List α}
    (hitem : ∀ a ∈ as, ∀ u x, G a u → x = .symbol .comma ∨ x = .symbol .rparen →
      Decides item u (some x) (.ok a))
    (hstart : ∀ a ∈ as, ∀ u, G a u → ∃ x v, u = x :: v ∧ x ≠ .symbol .rparen)
    (hu : Listed G as u) :
    Decides (ifNext (.symbol .rparen) (return []) more) (u ++ [.symbol .rparen]) t (.ok as) := by
  cases as with
  | nil =>
    cases hu
    exact .ifNext_next .pure
  | cons a as =>
    refine .ifNext_else (decides_listed hmore (by simp) hitem hu) ?_
    have hhead : ∃ x v, u = x :: v ∧ x ≠ .symbol .rparen := by
      cases hu with
      | one ha => exact hstart a (.head _) u ha
      | cons ha _ =>
        obtain ⟨x, v, rfl, hx⟩ := hstart a (.head _) _ ha
        exact ⟨x, _, rfl, hx⟩
    obtain ⟨x, v, rfl, hx⟩ := hhead
    simpa using hx

theorem decides_arguments {args : List Node} (h : ∀ n ∈ args, Expression n)
    (hdecides : ∀ n ∈ args, ∀ u t, Spelling n u → Stops operandMarks t →
      Decides (reader expression) u t (.ok n))
    (hu : Listed Spelling args u) :
    Decides (reader arguments) (u ++ [.symbol .rparen]) t (.ok args) := by
  rw [reader_arguments]
  refine decides_enclosed reader_moreArguments ?_ ?_ hu
  · intro n hn w x hw hx
    apply hdecides n hn w _ hw
    rcases hx with rfl | rfl <;> decide
  · intro n hn w hw
    obtain ⟨x, v, rfl, hx⟩ := (h n hn).exists_start hw
    exact ⟨x, v, rfl, by rintro rfl; cases hx⟩

theorem decides_suffix_nothing {x : String} (ht : Stops suffixMarks t) :
    Decides (suffix x) [] t (.ok (.value (.variable x))) := by
  simp only [Stops, suffixMarks, List.forall_mem_cons] at ht
  obtain ⟨h₁, h₂, h₃, h₄, -⟩ := ht
  exact .ifNext_else (.ifNext_else (.ifNext_else (.ifNext_else .pure h₄) h₃) h₂) h₁

end Parser

namespace Node

open Scriptlet.Parser Grammar

mutual

theorem Postfixed.decides {n : Node} {t : Option Token} {u : List Token} (h : Postfixed n)
    (hs : Spelling n u) (ht : Stops suffixMarks t) :
    Decides (reader postfixed) u t (.ok n) := by
  rw [reader_postfixed]
  cases h with
  | value l =>
    cases hs
    cases l with
    | «variable» x => exact .bind_nothing (decides_primary _) (decides_suffix_nothing ht)
    | _ => exact .bind_nothing (decides_primary _) .pure
  | @call receiver f args hargs =>
    have hdecides {v : List Token} (hv : Listed Spelling args v) :
        Decides (reader arguments) (v ++ [.symbol .rparen]) t (.ok args) :=
      decides_arguments hargs (fun n hn _ _ => (hargs n hn).decides) hv
    cases hs with
    | call _ hv =>
      exact (decides_primary (.variable f)).bind_cons
        (.ifNext_next (.bind_nothing (hdecides hv) .pure))
    | method x _ hmark hv =>
      have hmethod : Decides (method x) _ t (.ok (.call (some x) f _)) :=
        .ident_bind (.word_bind (.bind_nothing (hdecides hv) .pure))
      refine (decides_primary (.variable x)).bind_cons (.ifNext_else ?_ ?_)
      · rcases hmark with rfl | rfl
        · exact .ifNext_next hmethod
        · exact .ifNext_else (.ifNext_next hmethod) (by simp)
      · rcases hmark with rfl | rfl <;> simp
  | index b hkey =>
    cases hs with
    | index _ hv =>
      refine (decides_primary (.variable b)).bind_cons ?_
      refine .ifNext_else (.ifNext_else (.ifNext_else (.ifNext_next ?_) ?_) ?_) ?_
      · exact (hkey.decides hv (by decide)).bind_cons (.word_bind .pure)
      all_goals simp

theorem Expression.decides {n : Node} {t : Option Token} {u : List Token} (h : Expression n)
    (hs : Spelling n u) (ht : Stops operandMarks t) :
    Decides (reader expression) u t (.ok n) := by
  rw [reader_expression]
  have hne : t ≠ some (.symbol .notEq) := ht _ (.head _)
  cases h with
  | postfixed h => exact .bind_nothing (h.decides hs ht.tail) (.ifNext_else .pure hne)
  | notEqual hl hr =>
    cases hs with
    | notEqual hu hv =>
      refine (hl.decides hu (by decide)).bind_cons (.ifNext_next ?_)
      exact .bind_nothing (hr.decides hv ht.tail) (.bind_nothing (.refuse_else hne) .pure)

end

end Node

namespace Parser

open Node Grammar

variable {t : Option Token} {u : List Token}

theorem decides_parameters {params : List String} (hu : Listed Grammar.ident params u) :
    Decides (reader parameters) (u ++ [.symbol .rparen]) t (.ok params) := by
  rw [reader_parameters]
  refine decides_enclosed reader_moreParameters ?_ ?_ hu
  · rintro x - w y rfl -
    exact .ident
  · rintro x - w rfl
    exact ⟨.ident x, [], rfl, by simp⟩

theorem decides_initializer {x : String} {what : Expectation} {e : Node} (he : Expression e)
    (hu : Spelling e u) (ht : Stops operandMarks t) :
    Decides (reader (initializer x what)) (.symbol .assign :: u) t
      (.ok (.assign true (.value (.variable x)) e)) := by
  rw [reader_initializer]
  exact .word_bind (.bind_nothing (he.decides hu ht) .pure)

theorem decides_assignment_nothing {e : Node} (ht : Stops statementMarks t) :
    Decides (assignment e) [] t (.ok e) := by
  have hne : t ≠ some (.symbol .assign) := ht _ (.head _)
  rw [assignment]
  split
  · exact .ifNext_else .pure hne
  · exact .bind_nothing (.refuse_else hne) .pure

theorem decides_assignment {target e : Node} (hn : target.isTarget) (he : Expression e)
    (hu : Spelling e u) (ht : Stops operandMarks t) :
    Decides (assignment target) (.symbol .assign :: u) t (.ok (.assign false target e)) := by
  rw [assignment, if_pos hn]
  exact .ifNext_next (.bind_nothing (he.decides hu ht) .pure)

theorem decides_statement_of_expression {x : Token} {out : Except SyntaxCause Node}
    (hx : x.startsExpression)
    (h : Decides (reader expression >>= assignment) (x :: u) t out) :
    Decides (reader statement) (x :: u) t out := by
  have hne {k : Keyword} (hk : (Token.keyword k).startsExpression = false) :
      (x :: u).head?.or t ≠ some (.keyword k) := by
    rintro hxk
    cases hxk
    cases hx.symm.trans hk
  rw [reader_statement]
  exact .ifNext_else (.ifNext_else (.ifNext_else (.ifNext_else (.ifNext_else h
    (hne rfl)) (hne rfl)) (hne rfl)) (hne rfl)) (hne rfl)

theorem decides_statement_of_assign {target e : Node} {v : List Token} (hn : target.isTarget)
    (htarget : Expression target) (he : Expression e) (hu : Spelling target u)
    (hv : Spelling e v) (ht : Stops operandMarks t) :
    Decides (reader statement) (u ++ .symbol .assign :: v) t (.ok (.assign false target e)) := by
  have hd : Decides (reader expression >>= assignment) (u ++ .symbol .assign :: v) t _ :=
    (htarget.decides hu (by decide)).bind_cons (decides_assignment hn he hv ht)
  obtain ⟨x, w, rfl, hx⟩ := htarget.exists_start hu
  exact decides_statement_of_expression hx hd

theorem stops_of_joined {body : List Node} (h : ∀ n ∈ body, Statement n)
    (hu : Joined Spelling body u) (ht : Stops statementMarks t) :
    Stops statementMarks (u.head?.or t) := by
  cases hu with
  | nil => exact ht
  | cons hn _ =>
    obtain ⟨x, v, rfl, hx⟩ := (h _ (.head _)).exists_start hn
    exact stops_of_startsStatement hx

theorem decides_block {c : Construct} {body : List Node} (h : ∀ n ∈ body, Statement n)
    (hdecides : ∀ n ∈ body, ∀ u t, Spelling n u → Stops statementMarks t →
      Decides (reader statement) u t (.ok n))
    (hu : Joined Spelling body u) :
    Decides (reader (block c)) (u ++ [.keyword .endKw]) t (.ok body) := by
  induction hu with
  | nil =>
    rw [reader_block]
    exact .atEnd_else (.ifNext_next .pure) (by simp)
  | @cons n ns u v hn hns ih =>
    rw [List.forall_mem_cons] at h hdecides
    obtain ⟨x, w, rfl, hx⟩ := h.1.exists_start hn
    rw [reader_block, List.append_assoc]
    refine .atEnd_else (.ifNext_else ?_ ?_) (by simp)
    · refine (hdecides.1 _ _ hn ?_).bind (.bind_nothing (ih h.2 hdecides.2) .pure)
      rw [List.head?_append, Option.or_assoc]
      have hend : Stops statementMarks (some (.keyword .endKw)) := by decide
      exact stops_of_joined h.2 hns hend
    · rintro hend
      cases hend
      cases hx

end Parser

namespace Node

open Scriptlet.Parser Grammar

theorem Statement.decides {n : Node} {t : Option Token} {u : List Token} (h : Statement n)
    (hs : Spelling n u) (ht : Stops statementMarks t) :
    Decides (reader statement) u t (.ok n) := by
  induction h generalizing u t with
  | expression he =>
    obtain ⟨x, v, rfl, hx⟩ := he.exists_start hs
    exact decides_statement_of_expression hx
      (.bind_nothing (he.decides hs ht.tail) (decides_assignment_nothing ht))
  | assign isLocal x he =>
    cases hs with
    | assign hx hv =>
      exact decides_statement_of_assign rfl (.postfixed (.value _)) he hx hv ht.tail
    | assignLocal hx hv =>
      cases hx
      rw [reader_statement]
      exact .ifNext_next (.ident_bind (decides_initializer he hv ht.tail))
  | assignIndex b hkey he =>
    cases hs with
    | assign hx hv =>
      exact decides_statement_of_assign rfl (.postfixed (.index b hkey)) he hx hv ht.tail
  | ifThen hc hbody ih =>
    cases hs with
    | ifThen hu hv =>
      rw [reader_statement]
      refine .ifNext_else (.ifNext_else (.ifNext_else (.ifNext_else (.ifNext_next ?_)
        ?_) ?_) ?_) ?_
      · exact (hc.decides hu (by decide)).bind_cons (.word_bind (.bind_nothing
          (decides_block hbody (fun n hn _ _ => ih n hn) hv) .pure))
      all_goals simp
  | forLoop x he hb hbody ih =>
    cases hs with
    | forLoop hi hv hw =>
      cases hi with
      | assignLocal hx hi =>
      cases hx
      rw [reader_statement]
      refine .ifNext_else (.ifNext_next (.ident_bind ?_)) (by simp)
      exact (decides_initializer he hi (by decide)).bind_cons (.word_bind
        ((hb.decides hv (by decide)).bind_cons (.word_bind (.bind_nothing
          (decides_block hbody (fun n hn _ _ => ih n hn) hw) .pure))))
  | function f params hbody ih =>
    cases hs with
    | function _ hu hv =>
      rw [reader_statement, List.append_cons]
      refine .ifNext_else (.ifNext_else (.ifNext_next ?_) (by simp)) (by simp)
      exact .ident_bind (.word_bind ((decides_parameters hu).bind (.bind_nothing
        (decides_block hbody (fun n hn _ _ => ih n hn) hv) .pure)))
  | ret he =>
    cases hs with
    | ret hu =>
      rw [reader_statement]
      refine .ifNext_else (.ifNext_else (.ifNext_else (.ifNext_next ?_) ?_) ?_) ?_
      · exact .bind_nothing (he.decides hu ht.tail) .pure
      all_goals simp

end Node

namespace Parser

open Node Grammar

theorem decides_script {ns : List Node} {u : List Token} (h : ∀ n ∈ ns, Statement n)
    (hu : Joined Spelling ns u) : Decides script u none (.ok ns) := by
  induction hu with
  | nil =>
    rw [script_eq]
    exact .atEnd_end .pure
  | @cons n ns u v hn hns ih =>
    rw [List.forall_mem_cons] at h
    obtain ⟨x, w, rfl, hx⟩ := h.1.exists_start hn
    rw [script_eq]
    refine .atEnd_else ?_ (by simp)
    refine (h.1.decides hn ?_).bind (.bind_nothing (ih h.2) .pure)
    exact stops_of_joined h.2 hns (by decide)

end Parser

end Scriptlet
