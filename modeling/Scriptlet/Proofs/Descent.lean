import Mathlib
import Scriptlet.Node.Parser

/-! The parsers as readers.  A parser carries the proof that it takes a token; a reader is an
action on the tokens that are left, and forgets it.  Each parser is, as a reader, the obvious
program over a handful of steps: take a given word, look whether a word is next, look whether
the tokens are at their end. -/

namespace Scriptlet

namespace Parser

abbrev Reader (α : Type) := EStateM SyntaxCause (List Located) α

def Parsed.result {ts : List Located} :
    Parsed α ts → EStateM.Result SyntaxCause (List Located) α
  | .ok (a, r) => .ok a r.val
  | .error f => .error f.cause f.rest

def reader (p : (ts : List Located) → Parsed α ts) : Reader α := fun ts => (p ts).result

def word (t : Token) (what : Expectation) : Reader Unit := fun ts =>
  match accept? t ts with
  | some r => .ok () r.val
  | none => .error (.expected what) ts

def ifNext (t : Token) (p q : Reader α) : Reader α := fun ts =>
  match accept? t ts with
  | some r => p r.val
  | none => q ts

def refuse (t : Token) (e : SyntaxCause) : Reader Unit := fun ts =>
  if (accept? t ts).isSome then .error e ts else .ok () ts

def atEnd (p q : Reader α) : Reader α
  | [] => p []
  | t :: ts => q (t :: ts)

section

variable {ts us : List Located} {α β : Type}

theorem result_bind {p : (ts : List Located) → Parsed α ts} {f : α × Rest us → Parsed β ts}
    {g : α → Reader β} (h : ∀ a r, (f (a, r)).result = g a r.val) :
    Parsed.result (p us >>= f) = (reader p >>= g) us := by
  simp only [bind, EStateM.bind, reader]
  cases p us with
  | error f => rfl
  | ok x => exact h x.1 x.2

theorem result_expect_bind {t : Token} {what : Expectation} {f : Rest us → Parsed β ts}
    {g : Reader β} (h : ∀ r, (f r).result = g r.val) :
    Parsed.result (expect t what us >>= f) = (word t what >>= fun _ => g) us := by
  simp only [bind, EStateM.bind, word, expect]
  cases accept? t us with
  | none => rfl
  | some r => exact h r

theorem accept?_eq_none {t : Token} (h : ∀ q rs, ts ≠ ⟨t, q⟩ :: rs) : accept? t ts = none := by
  cases ts with
  | nil => rfl
  | cons l rs =>
    rw [accept?, if_neg]
    intro hl
    exact h l.place rs (by rw [← hl])

end

def method (x : String) : Reader Node := do
  let f ← reader (expectIdent .methodName)
  word (.symbol .lparen) .methodParen
  return .call (some x) f (← reader arguments)

def suffix (x : String) : Reader Node :=
  ifNext (.symbol .lparen) (return .call none x (← reader arguments)) <|
    ifNext (.symbol .dot) (method x) <| ifNext (.symbol .colon) (method x) <|
      ifNext (.symbol .lbracket)
        (do
          let key ← reader expression
          word (.symbol .rbracket) .indexEnd
          return .index x key)
        (return .value (.variable x))

theorem reader_postfixed : reader postfixed = (do
    match ← reader primary with
    | .variable x => suffix x
    | l => return .value l) := by
  funext ts
  rw [reader, postfixed]
  apply result_bind
  intro l r
  cases l with
  | «variable» x =>
    simp only [suffix, ifNext]
    cases accept? (.symbol .lparen) r.val with
    | some r₁ =>
      apply result_bind
      intro args r₂
      rfl
    | none =>
      cases accept? (.symbol .dot) r.val with
      | some r₁ =>
        apply result_bind
        intro f r₂
        apply result_expect_bind
        intro r₃
        apply result_bind
        intro args r₄
        rfl
      | none =>
        cases accept? (.symbol .colon) r.val with
        | some r₁ =>
          apply result_bind
          intro f r₂
          apply result_expect_bind
          intro r₃
          apply result_bind
          intro args r₄
          rfl
        | none =>
          cases accept? (.symbol .lbracket) r.val with
          | some r₁ =>
            apply result_bind
            intro key r₂
            apply result_expect_bind
            intro r₃
            rfl
          | none => rfl
  | _ => rfl

def comparison (lhs : Node) : Reader Node :=
  ifNext (.symbol .notEq)
    (do
      let rhs ← reader postfixed
      refuse (.symbol .notEq) .chainedComparison
      return .notEqual lhs rhs)
    (return lhs)

theorem reader_expression : reader expression = reader postfixed >>= comparison := by
  funext ts
  rw [reader, expression]
  apply result_bind
  intro lhs r
  simp only [comparison, ifNext]
  cases accept? (.symbol .notEq) r.val with
  | none => rfl
  | some r₁ =>
    apply result_bind
    intro rhs r₂
    simp only [bind, EStateM.bind, refuse]
    cases accept? (.symbol .notEq) r₂.val <;> rfl

def listed (item : Reader α) (what : Expectation) (more : Reader (List α)) : Reader (List α) := do
  let a ← item
  ifNext (.symbol .comma) (return a :: (← more))
    (do
      word (.symbol .rparen) what
      return [a])

theorem reader_listed {item : (ts : List Located) → Parsed α ts}
    {more : (ts : List Located) → Parsed (List α) ts} {what : Expectation}
    (h : ∀ ts, more ts = do
      let (a, r) ← item ts
      match accept? (.symbol .comma) r.val with
      | some r₁ =>
        let (as, r₂) ← more r₁.val
        return (a :: as, r.within (r₁.within r₂))
      | none =>
        let r₁ ← expect (.symbol .rparen) what r.val
        return ([a], r.within r₁)) :
    reader more = listed (reader item) what (reader more) := by
  funext ts
  rw [reader, h]
  apply result_bind
  intro a r
  simp only [ifNext]
  cases accept? (.symbol .comma) r.val with
  | none =>
    apply result_expect_bind
    intro r₁
    rfl
  | some r₁ =>
    apply result_bind
    intro as r₂
    rfl

theorem reader_moreArguments :
    reader moreArguments = listed (reader expression) .argumentsEnd (reader moreArguments) := by
  apply reader_listed
  intro ts
  exact moreArguments.eq_def ts

theorem reader_arguments :
    reader arguments = ifNext (.symbol .rparen) (return []) (reader moreArguments) := by
  funext ts
  rw [reader, arguments, ifNext]
  cases accept? (.symbol .rparen) ts <;> rfl

theorem reader_moreParameters : reader moreParameters =
    listed (reader (expectIdent .parameter)) .parametersEnd (reader moreParameters) := by
  apply reader_listed
  intro ts
  exact moreParameters.eq_def ts

theorem reader_parameters :
    reader parameters = ifNext (.symbol .rparen) (return []) (reader moreParameters) := by
  funext ts
  rw [reader, parameters, ifNext]
  cases accept? (.symbol .rparen) ts <;> rfl

theorem reader_initializer (x : String) (what : Expectation) :
    reader (initializer x what) = (do
      word (.symbol .assign) what
      return .assign true (.value (.variable x)) (← reader expression)) := by
  funext ts
  rw [reader, initializer]
  apply result_expect_bind
  intro r
  apply result_bind
  intro v r₁
  rfl

def localAssignment : Reader Node := do
  let x ← reader (expectIdent .localName)
  reader (initializer x .localAssign)

def loop : Reader Node := do
  let x ← reader (expectIdent .loopVariable)
  let initial ← reader (initializer x .assign)
  word (.symbol .comma) .loopComma
  let bound ← reader expression
  word (.keyword .doKw) .loopDo
  return .forLoop initial bound (← reader (block .forLoop))

def declaration : Reader Node := do
  let f ← reader (expectIdent .functionName)
  word (.symbol .lparen) .functionParen
  let params ← reader parameters
  return .function f params (← reader (block .function))

def conditional : Reader Node := do
  let condition ← reader expression
  word (.keyword .thenKw) .thenWord
  return .ifThen condition (← reader (block .ifThen))

def assignment (e : Node) : Reader Node :=
  if e.isTarget then
    ifNext (.symbol .assign) (return .assign false e (← reader expression)) (return e)
  else do
    refuse (.symbol .assign) (.notAssignable e.kind)
    return e

theorem reader_statement : reader statement =
    (ifNext (.keyword .localKw) localAssignment <|
      ifNext (.keyword .forKw) loop <|
      ifNext (.keyword .functionKw) declaration <|
      ifNext (.keyword .returnKw) (return .ret (← reader expression)) <|
      ifNext (.keyword .ifKw) conditional (reader expression >>= assignment)) := by
  funext ts
  rw [reader, statement.eq_def]
  split
  · apply result_bind
    intro x r
    simp only [reader]
    cases initializer x .localAssign r.val <;> rfl
  · apply result_bind
    intro x r
    apply result_bind
    intro initial r₁
    apply result_expect_bind
    intro r₂
    apply result_bind
    intro bound r₃
    apply result_expect_bind
    intro r₄
    apply result_bind
    intro body r₅
    rfl
  · apply result_bind
    intro f r
    apply result_expect_bind
    intro r₁
    apply result_bind
    intro params r₂
    apply result_bind
    intro body r₃
    rfl
  · apply result_bind
    intro v r
    rfl
  · apply result_bind
    intro condition r
    apply result_expect_bind
    intro r₁
    apply result_bind
    intro body r₂
    rfl
  · next h₁ h₂ h₃ h₄ h₅ =>
    simp only [ifNext, accept?_eq_none h₁, accept?_eq_none h₂, accept?_eq_none h₃,
      accept?_eq_none h₄, accept?_eq_none h₅]
    apply result_bind
    intro e r
    -- the parser looks for the sign first and at the expression then
    cases ht : e.isTarget with
    | true =>
      simp only [assignment, ht, if_true, ifNext]
      cases accept? (.symbol .assign) r.val with
      | none => rfl
      | some r₁ =>
        apply result_bind
        intro v r₂
        rfl
    | false =>
      simp only [assignment, ht, Bool.false_eq_true, if_false, refuse, bind, EStateM.bind]
      cases accept? (.symbol .assign) r.val <;> rfl

theorem reader_block (c : Construct) : reader (block c) =
    atEnd (throw (.unclosed c)) (ifNext (.keyword .endKw) (return []) (do
      let n ← reader statement
      return n :: (← reader (block c)))) := by
  funext ts
  rw [reader, block.eq_def]
  split
  · rfl
  · rfl
  · next t ts h =>
    rw [atEnd, ifNext, accept?_eq_none (by simpa using h)]
    apply result_bind
    intro n r
    apply result_bind
    intro ns r₁
    rfl

def script : Reader (List Node) := fun ts =>
  match program ts with
  | .ok ns => .ok ns []
  | .error f => .error f.cause f.rest

theorem script_eq : script = atEnd (return []) (do
    let n ← reader statement
    return n :: (← script)) := by
  funext ts
  rw [script, program.eq_def]
  cases ts with
  | nil => rfl
  | cons t ts =>
    simp only [atEnd, bind, EStateM.bind, Except.bind, reader]
    cases statement (t :: ts) with
    | error f => rfl
    | ok x =>
      simp only [Parsed.result, script]
      cases program x.2.val <;> rfl

end Parser

end Scriptlet
