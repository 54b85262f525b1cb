import Scriptlet.Proofs.Walk

/-! The parser comes to an end.  With a budget of a few calls for each token that is ahead, the walk
of each procedure follows its reader.  So it ends, without going further than the tokens do, and
behind at least one token if it has built something.  A call that fails stops where it failed, and
the next one goes on from there; a call that does not fail leaves the position at the end, where
every later one stays. -/

namespace Scriptlet

namespace Parser

namespace Walk

variable {α : Type} {n k : Nat}

theorem follows_method {arguments : Walk (List Node)} (x : String)
    (h : Follows n arguments (reader Parser.arguments)) :
    Follows n (method arguments x) (Parser.method x) := by
  apply Follows.bind .ident
  intro f
  apply Follows.bind (.word (by simp))
  intro _
  apply h.bind
  intro args
  exact .pure _

theorem follows_suffix {arguments : Walk (List Node)} {expression : Walk Node} (x : String)
    (ha : Follows (n - 1) arguments (reader Parser.arguments))
    (he : Follows (n - 1) expression (reader Parser.expression)) :
    Follows n (suffix arguments expression x) (Parser.suffix x) := by
  apply Follows.ifNext (by simp)
  · apply ha.bind
    intro args
    exact .pure _
  apply Follows.ifNext (by simp) (follows_method x ha)
  apply Follows.ifNext (by simp) (follows_method x ha)
  apply Follows.ifNext (by simp) _ (.pure _)
  apply he.bind
  intro key
  apply Follows.bind (.word (by simp))
  intro _
  exact .pure _

theorem follows_comparison {postfixed : Walk Node} (lhs : Node)
    (h : Follows (n - 1) postfixed (reader Parser.postfixed)) :
    Follows n (comparison postfixed lhs) (Parser.comparison lhs) := by
  apply Follows.ifNext (by simp) _ (.pure _)
  apply h.bind
  intro rhs
  apply Follows.bind (.refuse (by simp))
  intro _
  exact .pure _

theorem follows_listed {item : Walk α} {more : Walk (List α)} {p : Reader α}
    {q : Reader (List α)} (what : Expectation) (hi : Follows n item p)
    (hm : Follows (n - 1) more q) :
    Follows n (listed item what more) (Parser.listed p what q) := by
  apply hi.bind
  intro a
  apply Follows.ifNext (by simp)
  · apply hm.bind
    intro as
    exact .pure _
  · apply Follows.bind (.word (by simp))
    intro _
    exact .pure _

/-- What a budget of `k` is enough for.  Of the four calls that may be made before a token is
taken, each procedure has its own left to make. -/
structure FollowsExpressions (k : Nat) : Prop where
  postfixed : ∀ n, 4 * n ≤ k + 3 → Follows n (postfixed k) (reader Parser.postfixed)
  expression : ∀ n, 4 * n ≤ k + 2 → Follows n (expression k) (reader Parser.expression)
  moreArguments : ∀ n, 4 * n ≤ k + 1 → Follows n (moreArguments k) (reader Parser.moreArguments)
  arguments : ∀ n, 4 * n ≤ k → Follows n (arguments k) (reader Parser.arguments)

theorem followsExpressions (k : Nat) : FollowsExpressions k := by
  induction k with
  | zero =>
    have hzero (n : Nat) (hn : 4 * n ≤ 3) : n = 0 := by omega
    constructor <;> intro n hn <;> rw [hzero n (by omega)] <;> exact .zero
  | succ k ih =>
    constructor
    · intro n hn
      rw [postfixed, reader_postfixed]
      apply Follows.bind .primary
      intro l
      cases l with
      | «variable» x =>
        exact follows_suffix x (ih.arguments _ (by omega)) (ih.expression _ (by omega))
      | _ => exact .pure _
    · intro n hn
      rw [expression, reader_expression]
      apply (ih.postfixed n (by omega)).bind
      intro lhs
      exact follows_comparison lhs (ih.postfixed _ (by omega))
    · intro n hn
      rw [moreArguments, reader_moreArguments]
      exact follows_listed _ (ih.expression n (by omega)) (ih.moreArguments _ (by omega))
    · intro n hn
      rw [arguments, reader_arguments]
      exact .ifNext (by simp) (.pure _) (ih.moreArguments n (by omega))

theorem follows_moreParameters (hn : n ≤ k) :
    Follows n (moreParameters k) (reader Parser.moreParameters) := by
  induction k generalizing n with
  | zero =>
    rw [Nat.le_zero.1 hn]
    exact .zero
  | succ k ih =>
    rw [moreParameters, reader_moreParameters]
    exact follows_listed _ .ident (ih (by omega))

theorem follows_parameters (hn : n ≤ k) :
    Follows n (parameters k) (reader Parser.parameters) := by
  rw [parameters, reader_parameters]
  exact .ifNext (by simp) (.pure _) (follows_moreParameters hn)

theorem follows_expression (hn : 4 * n ≤ k + 2) :
    Follows n (expression k) (reader Parser.expression) := (followsExpressions k).expression n hn

theorem follows_initializer (x : String) (what : Expectation) (hn : 4 * n ≤ k + 2) :
    Follows n (initializer k x what) (reader (Parser.initializer x what)) := by
  rw [initializer, reader_initializer]
  apply Follows.bind (.word (by simp))
  intro _
  apply (follows_expression hn).bind
  intro v
  exact .pure _

theorem follows_localAssignment (hn : 4 * n ≤ k + 2) :
    Follows n (localAssignment k) Parser.localAssignment := by
  apply Follows.bind .ident
  intro x
  exact follows_initializer x _ hn

theorem follows_loop {body : Walk (List Node)} (hn : 4 * n ≤ k + 2)
    (hb : Follows n body (reader (Parser.block .forLoop))) :
    Follows n (loop k body) Parser.loop := by
  apply Follows.bind .ident
  intro x
  apply (follows_initializer x _ hn).bind
  intro initial
  apply Follows.bind (.word (by simp))
  intro _
  apply (follows_expression hn).bind
  intro bound
  apply Follows.bind (.word (by simp))
  intro _
  apply hb.bind
  intro ns
  exact .pure _

theorem follows_declaration {body : Walk (List Node)} (hn : n ≤ k)
    (hb : Follows n body (reader (Parser.block .function))) :
    Follows n (declaration k body) Parser.declaration := by
  apply Follows.bind .ident
  intro f
  apply Follows.bind (.word (by simp))
  intro _
  apply (follows_parameters hn).bind
  intro params
  apply hb.bind
  intro ns
  exact .pure _

theorem follows_conditional {body : Walk (List Node)} (hn : 4 * n ≤ k + 2)
    (hb : Follows n body (reader (Parser.block .ifThen))) :
    Follows n (conditional k body) Parser.conditional := by
  apply (follows_expression hn).bind
  intro condition
  apply Follows.bind (.word (by simp))
  intro _
  apply hb.bind
  intro ns
  exact .pure _

theorem follows_assignment (e : Node) (hn : 4 * n ≤ k + 2) :
    Follows n (assignment k e) (Parser.assignment e) := by
  rw [assignment, Parser.assignment]
  split
  · apply Follows.ifNext (by simp) _ (.pure _)
    apply (follows_expression (by omega)).bind
    intro v
    exact .pure _
  · apply Follows.bind (.refuse (by simp))
    intro _
    exact .pure _

structure FollowsStatements (k : Nat) : Prop where
  statement : ∀ n, 4 * n ≤ k + 1 → Follows n (statement k) (reader Parser.statement)
  block : ∀ c n, 4 * n ≤ k → Follows n (block c k) (reader (Parser.block c))

theorem followsStatements (k : Nat) : FollowsStatements k := by
  induction k with
  | zero =>
    have hzero (n : Nat) (hn : 4 * n ≤ 1) : n = 0 := by omega
    constructor
    · intro n hn
      rw [hzero n hn]
      exact .zero
    · intro c n hn
      rw [hzero n (by omega)]
      exact .zero
  | succ k ih =>
    constructor
    · intro n hn
      have hbody (c : Construct) := ih.block c (n - 1) (by omega)
      rw [statement, reader_statement]
      apply Follows.ifNext (by simp) (follows_localAssignment (by omega))
      apply Follows.ifNext (by simp) (follows_loop (by omega) (hbody _))
      apply Follows.ifNext (by simp) (follows_declaration (by omega) (hbody _))
      apply Follows.ifNext (by simp)
      · apply (follows_expression (by omega)).bind
        intro v
        exact .pure _
      apply Follows.ifNext (by simp) (follows_conditional (by omega) (hbody _))
      apply (follows_expression (by omega)).bind
      intro e
      exact follows_assignment e (by omega)
    · intro c n hn
      rw [block, reader_block]
      apply Follows.atEnd (.throw _)
      apply Follows.ifNext (by simp) (.pure _)
      -- a round leads on to the next only behind the token that a statement takes
      apply (ih.statement n (by omega)).bind_reader
      intro s
      apply (ih.block c (n - 1) (by omega)).bind
      intro ns
      exact .pure _

theorem follows_script (hn : 4 * n ≤ k) : Follows n (script k) Parser.script := by
  induction k generalizing n with
  | zero =>
    have hzero : n = 0 := by omega
    rw [hzero]
    exact .zero
  | succ k ih =>
    rw [script, script_eq]
    apply Follows.atEnd (.pure _)
    apply ((followsStatements k).statement n (by omega)).bind_reader
    intro s
    apply (ih (by omega)).bind
    intro ns
    exact .pure _

/-- From the position on, the walk ends no further than the tokens go, and behind the position if
it has built something.  It comes to what the parser makes of the tokens ahead. -/
def Ends (w : Walk α) (p : (ts : List Located) → Parsed α ts) (kept : List Located) (pos : Nat) :
    Prop :=
  ∃ out stop, w kept pos = some (out, stop) ∧ pos ≤ stop ∧ stop ≤ kept.length ∧
    (∀ a, out = .ok a → pos < stop) ∧ (p (ahead kept pos)).result = settle (ahead kept stop) out

theorem Follows.ends {w : Walk α} {p : (ts : List Located) → Parsed α ts} {kept : List Located}
    {pos : Nat} (h : Follows n w (reader p)) (hn : (ahead kept pos).length < n)
    (hpos : pos ≤ kept.length) : w.Ends p kept pos := by
  obtain ⟨taken, rs, out, hahead, hp, hw⟩ := h kept pos hn
  have hlength : taken.length + rs.length ≤ kept.length - pos := by
    rw [← List.length_append, ← hahead]
    exact length_ahead_le kept pos
  refine ⟨out, pos + taken.length, hw, by omega, by omega, ?_, ?_⟩
  · rintro a rfl
    have hlt := length_lt_of_reader hp
    rw [hahead, List.length_append] at hlt
    omega
  · rw [ahead_add hahead]
    exact hp

end Walk

end Parser

namespace TokenStream

open Scriptlet.Parser

variable {s : TokenStream} {ts : List Located} {ns : List Node}

def stopOf : EStateM.Result SyntaxError TokenStream (List Node) → TokenStream
  | .ok _ s => s
  | .error _ s => s

def outcome : EStateM.Result SyntaxError TokenStream (List Node) → Except SyntaxCause (List Node)
  | .ok ns _ => .ok ns
  | .error e _ => .error e.cause

def afterCalls (s : TokenStream) : Nat → TokenStream
  | 0 => s
  | n + 1 => stopOf (s.afterCalls n).parse

def position (ts : List Located) (n : Nat) : Nat :=
  (ofTokens ts).unread.length - ((ofTokens ts).afterCalls n).unread.length

theorem script_unread (s : TokenStream) :
    script s.unread = settle (stopOf s.parse).unread (outcome s.parse) := by
  rw [script, parse]
  cases program s.unread <;> rfl

theorem unread_stopOf_suffix (s : TokenStream) : (stopOf s.parse).unread <:+ s.unread := by
  obtain ⟨ls, rs, out, hunread, hsettle, -⟩ :=
    recognizes_script.cases_of (Nat.lt_succ_self s.unread.length)
  rw [script_unread] at hsettle
  rw [(settle_inj hsettle).1, hunread]
  exact List.suffix_append ls rs

theorem unread_afterCalls_suffix (s : TokenStream) (n : Nat) :
    (s.afterCalls n).unread <:+ s.unread := by
  induction n with
  | zero => exact List.suffix_rfl
  | succ n ih => exact (unread_stopOf_suffix _).trans ih

theorem ahead_zero (ts : List Located) :
    ahead (Located.significant ts) 0 = (ofTokens ts).unread := rfl

theorem ahead_position (ts : List Located) (n : Nat) :
    ahead (Located.significant ts) (position ts n) = ((ofTokens ts).afterCalls n).unread := by
  obtain ⟨before, hbefore⟩ := unread_afterCalls_suffix (ofTokens ts) n
  have hposition : position ts n = 0 + before.length := by
    rw [position, ← hbefore, List.length_append]
    omega
  rw [hposition]
  apply ahead_add
  rw [ahead_zero, hbefore]

theorem position_le (ts : List Located) (n : Nat) :
    position ts n ≤ (Located.significant ts).length := by
  have h := length_ahead_le (Located.significant ts) 0
  rw [ahead_zero] at h
  rw [position]
  omega

theorem walk_of_call (ts : List Located) (n : Nat) :
    position ts n ≤ position ts (n + 1) ∧ ∀ k, 4 * (Located.significant ts).length + 4 ≤ k →
      Walk.script k (Located.significant ts) (position ts n) =
        some (outcome ((ofTokens ts).afterCalls n).parse, position ts (n + 1)) := by
  have hle := (unread_afterCalls_suffix (ofTokens ts) n).length_le
  have hnext := (unread_stopOf_suffix ((ofTokens ts).afterCalls n)).length_le
  constructor
  · simp only [position, afterCalls]
    omega
  · intro k hk
    have hlength := length_ahead_le (Located.significant ts) (position ts n)
    obtain ⟨taken, rs, out, hahead, hscript, hwalk⟩ :=
      Walk.follows_script (n := (Located.significant ts).length + 1) hk
        (Located.significant ts) (position ts n) (by omega)
    rw [ahead_position] at hahead hscript
    obtain ⟨hrs, hout⟩ := settle_inj ((script_unread _).symm.trans hscript)
    have hposition : position ts (n + 1) = position ts n + taken.length := by
      rw [hahead, List.length_append] at hle
      rw [position, position, afterCalls, hrs, hahead, List.length_append]
      omega
    rw [hwalk, hout, hposition]

theorem parse_of_nil (h : s.unread = []) : s.parse = .ok [] s := by
  obtain ⟨unread, stop⟩ := s
  cases h
  rw [parse, program]

theorem unread_of_parse {s' : TokenStream} (h : s.parse = .ok ns s') : s'.unread = [] := by
  rw [parse] at h
  split at h
  · cases h
    rfl
  · cases h

theorem afterCalls_of_parse {s₀ s' : TokenStream} {n m : Nat}
    (h : (s₀.afterCalls n).parse = .ok ns s') (hm : n < m) : s₀.afterCalls m = s' := by
  induction m, hm using Nat.le_induction with
  | base => rw [afterCalls, h, stopOf]
  | succ m _ ih => rw [afterCalls, ih, parse_of_nil (unread_of_parse h), stopOf]

/-- From every position among any tokens, the procedures of the parser end within their budget and
the tokens, and where one has built something it has taken a token.  In any number of calls on one
stream, whether they fail or not, the position only goes ahead, and each call ends.  A call that
does not fail leaves the position at `eof` or behind the last token, and every later call stays
there, does not fail and builds nothing. -/
theorem calls_progress :
    (∀ (kept : List Located) (pos k : Nat), pos ≤ kept.length →
      4 * (kept.length - pos) + 4 ≤ k →
      (Walk.statement k).Ends Parser.statement kept pos ∧
      (Walk.expression k).Ends Parser.expression kept pos ∧
      (Walk.postfixed k).Ends Parser.postfixed kept pos ∧
      Walk.primary.Ends Parser.primary kept pos) ∧
    (∀ ts : List Located, position ts 0 = 0 ∧ ∀ n, position ts n ≤ position ts (n + 1) ∧
      position ts n ≤ (Located.significant ts).length ∧
      ahead (Located.significant ts) (position ts n) = ((ofTokens ts).afterCalls n).unread ∧
      ∀ k, 4 * (Located.significant ts).length + 4 ≤ k →
        Walk.script k (Located.significant ts) (position ts n) =
          some (outcome ((ofTokens ts).afterCalls n).parse, position ts (n + 1))) ∧
    ∀ (ts : List Located) (n : Nat) (ns : List Node) (s : TokenStream),
      ((ofTokens ts).afterCalls n).parse = .ok ns s →
      tokenAt (Located.significant ts) (position ts (n + 1)) = .eof ∧
      ∀ m, n < m → ((ofTokens ts).afterCalls m).parse = .ok [] s ∧
        position ts m = position ts (n + 1) := by
  refine ⟨fun kept pos k hpos hk => ?_, fun ts => ⟨Nat.sub_self _, fun n => ?_⟩,
    fun ts n ns s h => ?_⟩
  · have hn : (ahead kept pos).length < kept.length - pos + 1 :=
      Nat.lt_succ_of_le (length_ahead_le kept pos)
    exact ⟨((Walk.followsStatements k).statement _ (by omega)).ends hn hpos,
      (Walk.follows_expression (by omega)).ends hn hpos,
      ((Walk.followsExpressions k).postfixed _ (by omega)).ends hn hpos,
      Walk.Follows.primary.ends hn hpos⟩
  · obtain ⟨hle, hwalk⟩ := walk_of_call ts n
    exact ⟨hle, position_le ts n, ahead_position ts n, hwalk⟩
  · have hnil := unread_of_parse h
    have hafter (m : Nat) (hm : n < m) := afterCalls_of_parse h hm
    constructor
    · rw [← ahead_eq_nil_iff, ahead_position, hafter _ (Nat.lt_succ_self n), hnil]
    · intro m hm
      rw [position, position, hafter m hm, hafter _ (Nat.lt_succ_self n), parse_of_nil hnil]
      exact ⟨rfl, rfl⟩

def unclosed : List Located := unplaced
  [.ident "f", .symbol .lparen, .number 1, .newline, .ident "x", .symbol .assign, .number 2, .eof,
    .symbol .rparen]

theorem calls_progress_unclosed :
    (Walk.expression 36).Ends Parser.expression (Located.significant unclosed) 1 ∧
    (∀ k, 36 ≤ k → Walk.script k (Located.significant unclosed) 0 =
      some (.error (.expected .argumentsEnd), 3)) ∧
    position unclosed 2 = 6 ∧ tokenAt (Located.significant unclosed) 6 = .eof ∧
    ∀ m, 1 < m → ∃ s, ((ofTokens unclosed).afterCalls m).parse = .ok [] s := by
  obtain ⟨hends, hcalls, hstays⟩ := calls_progress
  have hparse : ((ofTokens unclosed).afterCalls 1).parse =
      .ok [.assign false (.value (.variable "x")) (.value (.number 2))] ⟨[], .start⟩ := by cbv
  have hposition : position unclosed 2 = 6 := by cbv
  obtain ⟨heof, hlater⟩ := hstays unclosed 1 _ _ hparse
  obtain ⟨hstart, hcall⟩ := hcalls unclosed
  obtain ⟨-, -, -, hwalk⟩ := hcall 0
  have hstop : position unclosed (0 + 1) = 3 := by cbv
  have houtcome : outcome ((ofTokens unclosed).afterCalls 0).parse =
      .error (.expected .argumentsEnd) := by cbv
  rw [hstart, hstop, houtcome] at hwalk
  refine ⟨(hends _ 1 36 (by decide) (by decide)).2.1, hwalk, hposition, ?_, ?_⟩
  · rwa [hposition] at heof
  · intro m hm
    exact ⟨_, (hlater m hm).1⟩

end TokenStream

end Scriptlet
