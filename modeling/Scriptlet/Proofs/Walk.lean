import Scriptlet.Proofs.Recognition

/-! The parser as a walk.  The tokens stay where they are, and a position moves over them: a walk
looks at the token there, or goes one token further.  Each procedure has a budget for the calls
that it makes one inside the other, where a round of a loop is a call too.  A walk that uses up
its budget, or that goes further where no token is left, has no outcome.  A walk follows a reader
if it takes the same tokens and comes to the same, and so has an outcome wherever it starts. -/

namespace Scriptlet

namespace Parser

def tokenAt (kept : List Located) (pos : Nat) : Token := (kept[pos]?.map Located.token).getD .eof

def ahead (kept : List Located) (pos : Nat) : List Located :=
  (kept.drop pos).takeWhile (·.token ≠ .eof)

section

variable {kept taken rs : List Located} {l : Located} {pos : Nat}

theorem ahead_of_lt (h : pos < kept.length) : ahead kept pos =
    if kept[pos].token = .eof then [] else kept[pos] :: ahead kept (pos + 1) := by
  rw [ahead, List.drop_eq_getElem_cons h, List.takeWhile_cons, ahead]
  simp

theorem ahead_of_le (h : kept.length ≤ pos) : ahead kept pos = [] := by
  rw [ahead, List.drop_eq_nil_of_le h, List.takeWhile_nil]

theorem ahead_eq_cons (h : ahead kept pos = l :: rs) :
    pos < kept.length ∧ tokenAt kept pos = l.token ∧ ahead kept (pos + 1) = rs := by
  rcases Nat.lt_or_ge pos kept.length with hlt | hle
  · rw [ahead_of_lt hlt] at h
    split at h
    · cases h
    · obtain ⟨rfl, hrs⟩ := List.cons.inj h
      exact ⟨hlt, by simp [tokenAt, hlt], hrs⟩
  · rw [ahead_of_le hle] at h
    cases h

theorem ahead_eq_nil_iff : ahead kept pos = [] ↔ tokenAt kept pos = .eof := by
  rcases Nat.lt_or_ge pos kept.length with hlt | hle
  · rw [ahead_of_lt hlt]
    split <;> simp_all [tokenAt]
  · simp [ahead_of_le hle, tokenAt, hle]

theorem ahead_add (h : ahead kept pos = taken ++ rs) : ahead kept (pos + taken.length) = rs := by
  induction taken generalizing pos with
  | nil => exact h
  | cons l taken ih =>
    obtain ⟨-, -, hnext⟩ := ahead_eq_cons h
    rw [List.length_cons, Nat.add_comm taken.length, ← Nat.add_assoc]
    exact ih hnext

theorem exists_ahead_eq_cons (h : tokenAt kept pos ≠ .eof) :
    ∃ place rs, ahead kept pos = ⟨tokenAt kept pos, place⟩ :: rs ∧ pos < kept.length := by
  obtain ⟨l, rs, hl⟩ := List.exists_cons_of_ne_nil (mt ahead_eq_nil_iff.1 h)
  obtain ⟨hpos, htoken, -⟩ := ahead_eq_cons hl
  exact ⟨l.place, rs, htoken ▸ hl, hpos⟩

theorem accept?_ahead {t : Token} (h : tokenAt kept pos ≠ t) :
    accept? t (ahead kept pos) = none := by
  apply accept?_eq_none
  intro place rs hl
  exact h (ahead_eq_cons hl).2.1

theorem length_ahead_le (kept : List Located) (pos : Nat) :
    (ahead kept pos).length ≤ kept.length - pos := by
  rw [← List.length_drop]
  exact (List.takeWhile_sublist _).length_le

end

theorem settle_inj {α : Type} {rs rs' : List Located} {out out' : Except SyntaxCause α}
    (h : settle rs out = settle rs' out') : rs = rs' ∧ out = out' := by
  cases out <;> cases out' <;> cases h <;> exact ⟨rfl, rfl⟩

theorem length_lt_of_reader {α : Type} {parser : (ts : List Located) → Parsed α ts}
    {ts rs : List Located} {a : α} (h : reader parser ts = .ok a rs) : rs.length < ts.length := by
  rw [reader] at h
  cases hp : parser ts with
  | error f =>
    rw [hp] at h
    cases h
  | ok x =>
    rw [hp] at h
    cases h
    exact x.2.property

abbrev Walk (α : Type) := ReaderT (List Located) (ExceptT SyntaxCause (StateT Nat Option)) α

namespace Walk

variable {α β : Type}

def stuck : Walk α := fun _ _ => none

def peek : Walk Token := fun kept pos => some (.ok (tokenAt kept pos), pos)

def advance : Walk Unit := fun kept pos =>
  if pos < kept.length then some (.ok (), pos + 1) else none

def ifNext (t : Token) (p q : Walk α) : Walk α := do
  if (← peek) = t then
    advance
    p
  else q

def word (t : Token) (what : Expectation) : Walk Unit :=
  ifNext t (return ()) (throw (.expected what))

def refuse (t : Token) (e : SyntaxCause) : Walk Unit := do
  if (← peek) = t then throw e

def atEnd (p q : Walk α) : Walk α := do
  if (← peek) = .eof then p else q

def ident (what : Expectation) : Walk String := do
  match ← peek with
  | .ident x =>
    advance
    return x
  | _ => throw (.expected what)

def literal (l : Literal) : Walk Literal := do
  advance
  return l

def primary : Walk Literal := do
  match ← peek with
  | .number n => literal (.number n)
  | .string s => literal (.string s)
  | .ident x => literal (.variable x)
  | .keyword .trueKw => literal (.boolean true)
  | .keyword .falseKw => literal (.boolean false)
  | .symbol .lbrace =>
    advance
    ifNext (.symbol .rbrace) (return .table) (throw .tableNotEmpty)
  | _ => throw .noExpression

def method (arguments : Walk (List Node)) (x : String) : Walk Node := do
  let f ← ident .methodName
  word (.symbol .lparen) .methodParen
  return .call (some x) f (← arguments)

def suffix (arguments : Walk (List Node)) (expression : Walk Node) (x : String) : Walk Node :=
  ifNext (.symbol .lparen) (return .call none x (← arguments)) <|
    ifNext (.symbol .dot) (method arguments x) <| ifNext (.symbol .colon) (method arguments x) <|
      ifNext (.symbol .lbracket)
        (do
          let key ← expression
          word (.symbol .rbracket) .indexEnd
          return .index x key)
        (return .value (.variable x))

def comparison (postfixed : Walk Node) (lhs : Node) : Walk Node :=
  ifNext (.symbol .notEq)
    (do
      let rhs ← postfixed
      refuse (.symbol .notEq) .chainedComparison
      return .notEqual lhs rhs)
    (return lhs)

def listed (item : Walk α) (what : Expectation) (more : Walk (List α)) : Walk (List α) := do
  let a ← item
  ifNext (.symbol .comma) (return a :: (← more))
    (do
      word (.symbol .rparen) what
      return [a])

mutual

def postfixed : Nat → Walk Node
  | 0 => stuck
  | k + 1 => do
    match ← primary with
    | .variable x => suffix (arguments k) (expression k) x
    | l => return .value l

def expression : Nat → Walk Node
  | 0 => stuck
  | k + 1 => do comparison (postfixed k) (← postfixed k)

def arguments : Nat → Walk (List Node)
  | 0 => stuck
  | k + 1 => ifNext (.symbol .rparen) (return []) (moreArguments k)

def moreArguments : Nat → Walk (List Node)
  | 0 => stuck
  | k + 1 => listed (expression k) .argumentsEnd (moreArguments k)

end

def moreParameters : Nat → Walk (List String)
  | 0 => stuck
  | k + 1 => listed (ident .parameter) .parametersEnd (moreParameters k)

def parameters (k : Nat) : Walk (List String) :=
  ifNext (.symbol .rparen) (return []) (moreParameters k)

def initializer (k : Nat) (x : String) (what : Expectation) : Walk Node := do
  word (.symbol .assign) what
  return .assign true (.value (.variable x)) (← expression k)

def localAssignment (k : Nat) : Walk Node := do
  let x ← ident .localName
  initializer k x .localAssign

def loop (k : Nat) (body : Walk (List Node)) : Walk Node := do
  let x ← ident .loopVariable
  let initial ← initializer k x .assign
  word (.symbol .comma) .loopComma
  let bound ← expression k
  word (.keyword .doKw) .loopDo
  return .forLoop initial bound (← body)

def declaration (k : Nat) (body : Walk (List Node)) : Walk Node := do
  let f ← ident .functionName
  word (.symbol .lparen) .functionParen
  let params ← parameters k
  return .function f params (← body)

def conditional (k : Nat) (body : Walk (List Node)) : Walk Node := do
  let condition ← expression k
  word (.keyword .thenKw) .thenWord
  return .ifThen condition (← body)

def assignment (k : Nat) (e : Node) : Walk Node :=
  if e.isTarget then
    ifNext (.symbol .assign) (return .assign false e (← expression k)) (return e)
  else do
    refuse (.symbol .assign) (.notAssignable e.kind)
    return e

mutual

def statement : Nat → Walk Node
  | 0 => stuck
  | k + 1 =>
    ifNext (.keyword .localKw) (localAssignment k) <|
      ifNext (.keyword .forKw) (loop k (block .forLoop k)) <|
      ifNext (.keyword .functionKw) (declaration k (block .function k)) <|
      ifNext (.keyword .returnKw) (return .ret (← expression k)) <|
      ifNext (.keyword .ifKw) (conditional k (block .ifThen k)) (expression k >>= assignment k)

def block (c : Construct) : Nat → Walk (List Node)
  | 0 => stuck
  | k + 1 => atEnd (throw (.unclosed c)) (ifNext (.keyword .endKw) (return []) (do
      let n ← statement k
      return n :: (← block c k)))

end

def script : Nat → Walk (List Node)
  | 0 => stuck
  | k + 1 => atEnd (return []) (do
      let n ← statement k
      return n :: (← script k))

theorem bind_of_ok {w : Walk α} {g : α → Walk β} {kept : List Located} {pos stop : Nat} {a : α}
    (h : w kept pos = some (.ok a, stop)) : (w >>= g) kept pos = g a kept stop := by
  simp only [Bind.bind, ReaderT.bind, ExceptT.bind, ExceptT.mk, StateT.bind, h]
  rfl

theorem bind_of_error {w : Walk α} {g : α → Walk β} {kept : List Located} {pos stop : Nat}
    {e : SyntaxCause} (h : w kept pos = some (.error e, stop)) :
    (w >>= g) kept pos = some (.error e, stop) := by
  simp only [Bind.bind, ReaderT.bind, ExceptT.bind, ExceptT.mk, StateT.bind, h]
  rfl

theorem peek_bind (g : Token → Walk β) (kept : List Located) (pos : Nat) :
    (peek >>= g) kept pos = g (tokenAt kept pos) kept pos := bind_of_ok rfl

theorem advance_bind (g : Unit → Walk β) {kept : List Located} {pos : Nat}
    (h : pos < kept.length) : (advance >>= g) kept pos = g () kept (pos + 1) :=
  bind_of_ok (if_pos h)

def Meets (kept : List Located) (pos : Nat) (r : EStateM.Result SyntaxCause (List Located) α)
    (arrival : Option (Except SyntaxCause α × Nat)) : Prop :=
  ∃ taken rs out, ahead kept pos = taken ++ rs ∧ r = settle rs out ∧
    arrival = some (out, pos + taken.length)

/-- Where fewer than `n` tokens are ahead, the walk takes what the reader takes and comes to the
same. -/
def Follows (n : Nat) (w : Walk α) (p : Reader α) : Prop :=
  ∀ kept pos, (ahead kept pos).length < n → Meets kept pos (p (ahead kept pos)) (w kept pos)

namespace Follows

variable {n m : Nat} {w v : Walk α} {g : α → Walk β} {p q : Reader α} {f : α → Reader β}
  {t : Token} {e : SyntaxCause} {what : Expectation}

theorem zero : Follows 0 w p := fun _ _ h => absurd h (Nat.not_lt_zero _)

theorem mono (h : Follows n w p) (hm : m ≤ n) : Follows m w p :=
  fun kept pos hlt => h kept pos (Nat.lt_of_lt_of_le hlt hm)

theorem of_nothing {out : Except SyntaxCause α} (hw : ∀ kept pos, w kept pos = some (out, pos))
    (hp : ∀ ts, p ts = settle ts out) : Follows n w p :=
  fun kept pos _ => ⟨[], ahead kept pos, out, rfl, hp _, hw kept pos⟩

protected theorem pure (a : α) : Follows n (pure a) (pure a) :=
  of_nothing (fun _ _ => rfl) fun _ => rfl

protected theorem throw (e : SyntaxCause) : Follows n (throw e : Walk α) (throw e) :=
  of_nothing (fun _ _ => rfl) fun _ => rfl

theorem bind_taken (hw : Follows n w p) (hg : ∀ a taken rs, p (taken ++ rs) = .ok a rs →
      Follows (n - taken.length) (g a) (f a)) : Follows n (w >>= g) (p >>= f) := by
  intro kept pos hn
  obtain ⟨taken, rs, out, hahead, hp, hout⟩ := hw kept pos hn
  cases out with
  | error e =>
    refine ⟨taken, rs, .error e, hahead, ?_, bind_of_error hout⟩
    simp only [Bind.bind, EStateM.bind, hp, settle]
  | ok a =>
    have hrs := ahead_add hahead
    have hlt : (ahead kept (pos + taken.length)).length < n - taken.length := by
      rw [hrs]
      rw [hahead, List.length_append] at hn
      omega
    obtain ⟨taken', rs', out, hahead', hf, hout'⟩ := hg a taken rs (hahead ▸ hp) kept _ hlt
    rw [hrs] at hahead' hf
    refine ⟨taken ++ taken', rs', out, ?_, ?_, ?_⟩
    · rw [hahead, hahead', List.append_assoc]
    · simp only [Bind.bind, EStateM.bind, hp, settle]
      exact hf
    · rw [bind_of_ok hout, hout', List.length_append, Nat.add_assoc]

theorem bind (hw : Follows n w p) (hg : ∀ a, Follows n (g a) (f a)) :
    Follows n (w >>= g) (p >>= f) := by
  apply hw.bind_taken
  intro a taken rs _
  exact (hg a).mono (Nat.sub_le _ _)

theorem bind_reader {parser : (ts : List Located) → Parsed α ts} (hw : Follows n w (reader parser))
    (hg : ∀ a, Follows (n - 1) (g a) (f a)) : Follows n (w >>= g) (reader parser >>= f) := by
  apply hw.bind_taken
  intro a taken rs hp
  have hlt := length_lt_of_reader hp
  rw [List.length_append] at hlt
  exact (hg a).mono (by omega)

theorem behind (h : Follows (n - 1) w p) {kept rs : List Located} {l : Located} {pos : Nat}
    (hahead : ahead kept pos = l :: rs) (hn : (ahead kept pos).length < n) :
    Meets kept pos (p rs) (w kept (pos + 1)) := by
  obtain ⟨-, -, hrs⟩ := ahead_eq_cons hahead
  rw [hahead, List.length_cons] at hn
  obtain ⟨taken, rs', out, htaken, hout, hend⟩ := h kept (pos + 1) (by rw [hrs]; omega)
  rw [hrs] at htaken hout
  refine ⟨l :: taken, rs', out, by rw [hahead, htaken]; rfl, hout, ?_⟩
  rw [hend, List.length_cons, Nat.add_comm taken.length, Nat.add_assoc]

theorem ifNext (ht : t ≠ .eof) (hp : Follows (n - 1) w p) (hq : Follows n v q) :
    Follows n (Walk.ifNext t w v) (Parser.ifNext t p q) := by
  intro kept pos hn
  rw [Walk.ifNext, peek_bind]
  by_cases h : tokenAt kept pos = t
  · obtain ⟨place, rs, hahead, hpos⟩ := exists_ahead_eq_cons (h ▸ ht)
    have hread : Parser.ifNext t p q (ahead kept pos) = p rs := by
      rw [hahead, Parser.ifNext, accept?, if_pos h]
    rw [if_pos h, advance_bind _ hpos, hread]
    exact hp.behind hahead hn
  · rw [if_neg h, Parser.ifNext, accept?_ahead h]
    exact hq kept pos hn

protected theorem word (ht : t ≠ .eof) : Follows n (Walk.word t what) (Parser.word t what) := by
  have h : Parser.word t what = Parser.ifNext t (pure ()) (throw (.expected what)) := by
    funext ts
    rw [Parser.word, Parser.ifNext]
    cases accept? t ts <;> rfl
  rw [h]
  exact .ifNext ht (.pure ()) (.throw _)

protected theorem refuse (ht : t ≠ .eof) : Follows n (Walk.refuse t e) (Parser.refuse t e) := by
  intro kept pos _
  rw [Walk.refuse, peek_bind]
  by_cases h : tokenAt kept pos = t
  · obtain ⟨place, rs, hahead, -⟩ := exists_ahead_eq_cons (h ▸ ht)
    refine ⟨[], ahead kept pos, .error e, rfl, ?_, by rw [if_pos h]; rfl⟩
    rw [hahead, Parser.refuse, accept?, if_pos h]
    rfl
  · refine ⟨[], ahead kept pos, .ok (), rfl, ?_, by rw [if_neg h]; rfl⟩
    rw [Parser.refuse, accept?_ahead h]
    rfl

theorem atEnd (hp : Follows n w p) (hq : Follows n v q) :
    Follows n (Walk.atEnd w v) (Parser.atEnd p q) := by
  intro kept pos hn
  rw [Walk.atEnd, peek_bind]
  by_cases h : tokenAt kept pos = .eof
  · have hend := hp kept pos hn
    rw [ahead_eq_nil_iff.2 h] at hend ⊢
    rw [if_pos h]
    exact hend
  · have hnext := hq kept pos hn
    obtain ⟨place, rs, hahead, -⟩ := exists_ahead_eq_cons h
    rw [hahead] at hnext ⊢
    rw [if_neg h]
    exact hnext

protected theorem ident : Follows n (Walk.ident what) (reader (expectIdent what)) := by
  intro kept pos _
  rw [Walk.ident, peek_bind]
  cases hahead : ahead kept pos with
  | nil =>
    rw [ahead_eq_nil_iff.1 hahead]
    exact ⟨[], [], .error (.expected what), hahead, rfl, rfl⟩
  | cons l rs =>
    obtain ⟨hpos, htoken, -⟩ := ahead_eq_cons hahead
    obtain ⟨t, place⟩ := l
    rw [htoken]
    cases t with
    | ident x => exact ⟨[_], rs, .ok x, hahead, rfl, advance_bind _ hpos⟩
    | _ => exact ⟨[], _, .error (.expected what), hahead, rfl, rfl⟩

protected theorem primary : Follows n Walk.primary (reader Parser.primary) := by
  intro kept pos hn
  rw [Walk.primary, peek_bind]
  cases hahead : ahead kept pos with
  | nil =>
    rw [ahead_eq_nil_iff.1 hahead]
    exact ⟨[], [], .error .noExpression, hahead, rfl, rfl⟩
  | cons l rs =>
    obtain ⟨hpos, htoken, -⟩ := ahead_eq_cons hahead
    obtain ⟨t, place⟩ := l
    rw [htoken]
    cases t with
    | number m => exact ⟨[_], rs, .ok (.number m), hahead, rfl, advance_bind _ hpos⟩
    | string s => exact ⟨[_], rs, .ok (.string s), hahead, rfl, advance_bind _ hpos⟩
    | ident x => exact ⟨[_], rs, .ok (.variable x), hahead, rfl, advance_bind _ hpos⟩
    | keyword k =>
      cases k with
      | trueKw => exact ⟨[_], rs, .ok (.boolean true), hahead, rfl, advance_bind _ hpos⟩
      | falseKw => exact ⟨[_], rs, .ok (.boolean false), hahead, rfl, advance_bind _ hpos⟩
      | _ => exact ⟨[], _, .error .noExpression, hahead, rfl, rfl⟩
    | symbol s =>
      cases s with
      | lbrace =>
        have hread : reader Parser.primary (ahead kept pos) =
            Parser.ifNext (.symbol .rbrace) (pure .table) (throw .tableNotEmpty) rs := by
          rw [hahead, reader, Parser.primary, Parser.ifNext]
          cases accept? (.symbol .rbrace) rs <;> rfl
        rw [← hahead, hread]
        dsimp only
        rw [advance_bind _ hpos]
        exact (Follows.ifNext (by simp) (.pure _) (.throw _)).behind hahead hn
      | _ => exact ⟨[], _, .error .noExpression, hahead, rfl, rfl⟩
    | _ => exact ⟨[], _, .error .noExpression, hahead, rfl, rfl⟩

end Follows

end Walk

end Parser

end Scriptlet
