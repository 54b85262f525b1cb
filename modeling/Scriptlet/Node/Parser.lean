import Scriptlet.Node
import Scriptlet.Token

/-! Reading the tree of a script from its tokens by recursive descent.  A parser hands back
what it built and the tokens after it, with a proof that it took at least one.  Where it
fails it hands back the tokens from the one that does not fit, and that token's place is the
place of the error. -/

namespace Scriptlet

inductive Expectation
  | localName | localAssign | assign | loopVariable | loopComma | loopDo
  | functionName | functionParen | parameter | parametersEnd | thenWord
  | methodName | methodParen | indexEnd | argumentsEnd
  deriving DecidableEq

def Expectation.text : Expectation → String
  | localName => "variable name after 'local'"
  | localAssign => "'=' after local variable name"
  | assign => "'='"
  | loopVariable => "loop variable after 'for'"
  | loopComma => "',' after loop start value"
  | loopDo => "'do' after loop bound"
  | functionName => "function name after 'function'"
  | functionParen => "'(' after function name"
  | parameter => "parameter name"
  | parametersEnd => "')' after parameter list"
  | thenWord => "'then' after if condition"
  | methodName => "method name"
  | methodParen => "'(' after method name"
  | indexEnd => "']' after index"
  | argumentsEnd => "')' after arguments"

inductive Construct
  | forLoop | function | ifThen
  deriving DecidableEq

def Construct.keyword : Construct → Keyword
  | forLoop => .forKw
  | function => .functionKw
  | ifThen => .ifKw

inductive SyntaxCause
  | expected (what : Expectation)
  | unclosed (construct : Construct)
  | notAssignable (kind : NodeKind)
  | chainedComparison
  | tableNotEmpty
  | noExpression
  deriving DecidableEq

def SyntaxCause.message (found : Token) : SyntaxCause → String
  | expected what => "expected " ++ what.text ++ ", found " ++ found.caption
  | unclosed c => "unexpected EOF, expected 'end' to close '" ++ c.keyword.spelling ++ "'"
  | notAssignable kind => "cannot assign to " ++ kind.text
  | chainedComparison => "comparison operators cannot be chained"
  | tableNotEmpty => "table constructors must be empty: expected '\x7d'"
  | noExpression =>
    if found = .eof then "unexpected EOF, expected expression"
    else "unexpected token: " ++ found.caption ++ ", expected expression"

structure SyntaxError where
  cause : SyntaxCause
  found : Token
  place : Place
  deriving DecidableEq

def SyntaxError.message (e : SyntaxError) : String :=
  e.place.text ++ ": " ++ e.cause.message e.found

namespace Parser

abbrev Rest (ts : List Located) := { rs : List Located // rs.length < ts.length }

def Rest.within {ts : List Located} (r : Rest ts) (s : Rest r.val) : Rest ts :=
  ⟨s.val, Nat.lt_trans s.property r.property⟩

def Rest.behind (t : Located) {ts : List Located} (r : Rest ts) : Rest (t :: ts) :=
  ⟨r.val, Nat.lt_succ_of_lt r.property⟩

@[simp] theorem Rest.val_within {ts : List Located} (r : Rest ts) (s : Rest r.val) :
    (r.within s).val = s.val := rfl

@[simp] theorem Rest.val_behind (t : Located) {ts : List Located} (r : Rest ts) :
    (r.behind t).val = r.val := rfl

structure Failure where
  cause : SyntaxCause
  rest : List Located
  deriving DecidableEq

abbrev Parsed (α : Type) (ts : List Located) := Except Failure (α × Rest ts)

def accept? (t : Token) : (ts : List Located) → Option (Rest ts)
  | [] => none
  | l :: rs => if l.token = t then some ⟨rs, Nat.lt_succ_self _⟩ else none

def expect (t : Token) (what : Expectation) (ts : List Located) : Except Failure (Rest ts) :=
  match accept? t ts with
  | some r => .ok r
  | none => .error ⟨.expected what, ts⟩

def expectIdent (what : Expectation) : (ts : List Located) → Parsed String ts
  | ⟨.ident x, _⟩ :: rs => .ok (x, ⟨rs, Nat.lt_succ_self _⟩)
  | ts => .error ⟨.expected what, ts⟩

def primary : (ts : List Located) → Parsed Literal ts
  | ⟨.number n, _⟩ :: rs => .ok (.number n, ⟨rs, Nat.lt_succ_self _⟩)
  | ⟨.string s, _⟩ :: rs => .ok (.string s, ⟨rs, Nat.lt_succ_self _⟩)
  | ⟨.ident x, _⟩ :: rs => .ok (.variable x, ⟨rs, Nat.lt_succ_self _⟩)
  | ⟨.keyword .trueKw, _⟩ :: rs => .ok (.boolean true, ⟨rs, Nat.lt_succ_self _⟩)
  | ⟨.keyword .falseKw, _⟩ :: rs => .ok (.boolean false, ⟨rs, Nat.lt_succ_self _⟩)
  | t@⟨.symbol .lbrace, _⟩ :: rs =>
    match accept? (.symbol .rbrace) rs with
    | some r => .ok (.table, r.behind t)
    | none => .error ⟨.tableNotEmpty, rs⟩
  | ts => .error ⟨.noExpression, ts⟩

mutual

def postfixed (ts : List Located) : Parsed Node ts := do
  match ← primary ts with
  | (.variable x, r) =>
    if let some r₁ := accept? (.symbol .lparen) r.val then
      let (args, r₂) ← arguments r₁.val
      return (.call none x args, r.within (r₁.within r₂))
    if let some r₁ := accept? (.symbol .dot) r.val <|> accept? (.symbol .colon) r.val then
      let (f, r₂) ← expectIdent .methodName r₁.val
      let r₃ ← expect (.symbol .lparen) .methodParen r₂.val
      let (args, r₄) ← arguments r₃.val
      return (.call (some x) f args, r.within (r₁.within (r₂.within (r₃.within r₄))))
    if let some r₁ := accept? (.symbol .lbracket) r.val then
      let (key, r₂) ← expression r₁.val
      let r₃ ← expect (.symbol .rbracket) .indexEnd r₂.val
      return (.index x key, r.within (r₁.within (r₂.within r₃)))
    return (.value (.variable x), r)
  | (literal, r) => return (.value literal, r)
termination_by (ts.length, 0)

def expression (ts : List Located) : Parsed Node ts := do
  let (lhs, r) ← postfixed ts
  match accept? (.symbol .notEq) r.val with
  | none => return (lhs, r)
  | some r₁ =>
    let (rhs, r₂) ← postfixed r₁.val
    if (accept? (.symbol .notEq) r₂.val).isSome then
      throw ⟨.chainedComparison, r₂.val⟩
    return (.notEqual lhs rhs, r.within (r₁.within r₂))
termination_by (ts.length, 1)

def arguments (ts : List Located) : Parsed (List Node) ts :=
  match accept? (.symbol .rparen) ts with
  | some r => .ok ([], r)
  | none => moreArguments ts
termination_by (ts.length, 3)

def moreArguments (ts : List Located) : Parsed (List Node) ts := do
  let (e, r) ← expression ts
  match accept? (.symbol .comma) r.val with
  | some r₁ =>
    let (es, r₂) ← moreArguments r₁.val
    return (e :: es, r.within (r₁.within r₂))
  | none =>
    let r₁ ← expect (.symbol .rparen) .argumentsEnd r.val
    return ([e], r.within r₁)
termination_by (ts.length, 2)

end

def moreParameters (ts : List Located) : Parsed (List String) ts := do
  let (x, r) ← expectIdent .parameter ts
  match accept? (.symbol .comma) r.val with
  | some r₁ =>
    let (xs, r₂) ← moreParameters r₁.val
    return (x :: xs, r.within (r₁.within r₂))
  | none =>
    let r₁ ← expect (.symbol .rparen) .parametersEnd r.val
    return ([x], r.within r₁)
termination_by ts.length

def parameters (ts : List Located) : Parsed (List String) ts :=
  match accept? (.symbol .rparen) ts with
  | some r => .ok ([], r)
  | none => moreParameters ts

def initializer (x : String) (what : Expectation) (ts : List Located) : Parsed Node ts := do
  let r ← expect (.symbol .assign) what ts
  let (v, r₁) ← expression r.val
  return (.assign true (.value (.variable x)) v, r.within r₁)

mutual

def statement : (ts : List Located) → Parsed Node ts
  | t@⟨.keyword .localKw, _⟩ :: ts => do
    let (x, r) ← expectIdent .localName ts
    let (n, r₁) ← initializer x .localAssign r.val
    return (n, (r.within r₁).behind t)
  | t@⟨.keyword .forKw, _⟩ :: ts => do
    let (x, r) ← expectIdent .loopVariable ts
    let (initial, r₁) ← initializer x .assign r.val
    let r₂ ← expect (.symbol .comma) .loopComma r₁.val
    let (bound, r₃) ← expression r₂.val
    let r₄ ← expect (.keyword .doKw) .loopDo r₃.val
    let (body, r₅) ← block .forLoop r₄.val
    return (.forLoop initial bound body,
      (r.within (r₁.within (r₂.within (r₃.within (r₄.within r₅))))).behind t)
  | t@⟨.keyword .functionKw, _⟩ :: ts => do
    let (f, r) ← expectIdent .functionName ts
    let r₁ ← expect (.symbol .lparen) .functionParen r.val
    let (params, r₂) ← parameters r₁.val
    let (body, r₃) ← block .function r₂.val
    return (.function f params body, (r.within (r₁.within (r₂.within r₃))).behind t)
  | t@⟨.keyword .returnKw, _⟩ :: ts => do
    let (v, r) ← expression ts
    return (.ret v, r.behind t)
  | t@⟨.keyword .ifKw, _⟩ :: ts => do
    let (condition, r) ← expression ts
    let r₁ ← expect (.keyword .thenKw) .thenWord r.val
    let (body, r₂) ← block .ifThen r₁.val
    return (.ifThen condition body, (r.within (r₁.within r₂)).behind t)
  | ts => do
    let (e, r) ← expression ts
    match accept? (.symbol .assign) r.val with
    | none => return (e, r)
    | some r₁ =>
      if e.isTarget then
        let (v, r₂) ← expression r₁.val
        return (.assign false e v, r.within (r₁.within r₂))
      else throw ⟨.notAssignable e.kind, r.val⟩
termination_by ts => (ts.length, 0)

def block (c : Construct) : (ts : List Located) → Parsed (List Node) ts
  | [] => .error ⟨.unclosed c, []⟩
  | ⟨.keyword .endKw, _⟩ :: rs => .ok ([], ⟨rs, Nat.lt_succ_self _⟩)
  | t :: ts => do
    let (n, r) ← statement (t :: ts)
    have := r.property
    let (ns, r₁) ← block c r.val
    return (n :: ns, r.within r₁)
termination_by ts => (ts.length, 1)

end

def program : List Located → Except Failure (List Node)
  | [] => .ok []
  | t :: ts => do
    let (n, r) ← statement (t :: ts)
    return n :: (← program r.val)
termination_by ts => ts.length
decreasing_by exact r.property

end Parser

/-- The tokens before the first `eof` that are not read yet, comments and newlines left out,
and the place where they end. -/
structure TokenStream where
  unread : List Located
  stop : Place
  deriving DecidableEq

namespace TokenStream

def ofTokens (ts : List Located) : TokenStream :=
  let kept := Located.significant ts
  let body := kept.takeWhile (·.token ≠ .eof)
  let stop := (kept.drop body.length).head? <|> body.getLast?
  ⟨body, (stop.map Located.place).getD .start⟩

def found (s : TokenStream) : Token := (s.unread.head?.map Located.token).getD .eof

def place (s : TokenStream) : Place := (s.unread.head?.map Located.place).getD s.stop

def syntaxError (s : TokenStream) (cause : SyntaxCause) : SyntaxError :=
  ⟨cause, s.found, s.place⟩

/-- The statements of the whole stream.  After an error the stream stands at the token that
did not fit. -/
def parse (s : TokenStream) : EStateM.Result SyntaxError TokenStream (List Node) :=
  match Parser.program s.unread with
  | .ok ns => .ok ns { s with unread := [] }
  | .error f =>
    let stopped := { s with unread := f.rest }
    .error (stopped.syntaxError f.cause) stopped

end TokenStream

end Scriptlet
