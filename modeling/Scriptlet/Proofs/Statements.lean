import Scriptlet.Proofs.Operands

/-! Statements in a script's code.  A statement begins with no operands, wherever it is, and all
jumps are between statements: there are none in expressions, and none is made with operands left
behind. -/

namespace Scriptlet

open Code

namespace Node

theorem hereditary_expression : Hereditary Expression where
  notEqual h := by
    cases h with
    | postfixed h => cases h
    | notEqual hl hr => exact ⟨.postfixed hl, .postfixed hr⟩
  call h := (Statement.expression h).args
  index h := (Statement.expression h).key
  assign h := nomatch h.isExpression
  assignIndex h := nomatch h.isExpression
  ifThen h := nomatch h.isExpression
  forLoop h := nomatch h.isExpression
  function h := nomatch h.isExpression
  ret h := nomatch h.isExpression

theorem isPlain_lowerArguments {args : List Node}
    (h : ∀ n ∈ args, ∀ σ base, (lower σ base n).all Instruction.isPlain) (σ : Scoping)
    (base : Nat) : (lowerArguments σ base args).all Instruction.isPlain := by
  induction args generalizing σ base with
  | nil => rfl
  | cons n ns ih =>
    obtain ⟨hn, hs⟩ := List.forall_mem_cons.1 h
    rw [lowerArguments, List.all_append, hn, ih hs]
    rfl

mutual

theorem Postfixed.isPlain_lower {n : Node} :
    Postfixed n → ∀ σ base, (lower σ base n).all Instruction.isPlain
  | .value l => fun _ _ => isPlain_lowerLiteral l
  | .call r f h => fun σ base => by
    rw [lower, List.all_append, List.all_append, isPlain_lowerCallee,
      isPlain_lowerArguments fun n hn => (h n hn).isPlain_lower]
    rfl
  | .index b h => fun σ base => by
    rw [lower, List.all_append, List.all_append, h.isPlain_lower]
    rfl

theorem Expression.isPlain_lower {n : Node} :
    Expression n → ∀ σ base, (lower σ base n).all Instruction.isPlain
  | .postfixed h => h.isPlain_lower
  | .notEqual hl hr => fun σ base => by
    rw [lower, List.all_append, List.all_append, hl.isPlain_lower, hr.isPlain_lower]
    rfl

end

theorem isPlain_assign {v : Node} (h : Expression v) (isLocal : Bool) (x : String) (σ : Scoping)
    (base : Nat) :
    (lower σ base (.assign isLocal (.value (.variable x)) v)).all Instruction.isPlain := by
  rw [lower, List.all_append, List.all_append, h.isPlain_lower, isPlain_lowerStore]
  rfl

/-- The row leads from the operands `s` to `t`, and no operand is left behind a jump. -/
structure JumpsBare (s : List (Option String)) (is : List Instruction) (t : List (Option String)) :
    Prop where
  scan : operandEffect.scan s is = some t
  jumps : operandEffect.JumpsTo (fun _ t => t = []) s is

namespace JumpsBare

variable {s t u : List (Option String)} {is js : List Instruction} {i : Instruction}

theorem nil : JumpsBare s [] s := ⟨rfl, .nil⟩

theorem straight (h : operandEffect.scan s is = some t) (hi : ∀ i ∈ is, i.target? = none) :
    JumpsBare s is t := ⟨h, .of_straight hi⟩

theorem plain (h : operandEffect.scan s is = some t) (hp : is.all Instruction.isPlain) :
    JumpsBare s is t :=
  .straight h fun i hi => Instruction.target?_of_isPlain (List.all_eq_true.1 hp i hi)

theorem jump (h : operandEffect s i = some []) : JumpsBare s [i] [] :=
  ⟨by simp [h], .cons h (fun _ _ => rfl) .nil⟩

theorem append (h : JumpsBare s is t) (h' : JumpsBare t js u) : JumpsBare s (is ++ js) u :=
  ⟨by rw [Effect.scan_append_of_eq h.scan, h'.scan], h.jumps.append h.scan h'.jumps⟩

end JumpsBare

theorem Expression.jumpsBare {n : Node} (h : Expression n) (σ : Scoping) (base : Nat)
    (s : List (Option String)) : JumpsBare s (lower σ base n) (none :: s) :=
  .plain (h.pushesOne σ base s).scan (h.isPlain_lower σ base)

theorem jumpsBare_lowerBlock {ns : List Node}
    (h : ∀ n ∈ ns, ∀ σ base, JumpsBare [] (lowerStatement σ base n) []) (σ : Scoping)
    (base : Nat) : JumpsBare [] (lowerBlock σ base ns) [] := by
  induction ns generalizing σ base with
  | nil => exact .nil
  | cons n ns ih =>
    obtain ⟨hn, hs⟩ := List.forall_mem_cons.1 h
    exact (hn σ base).append (ih hs _ _)

theorem jumpsBare_assign {v : Node} (h : Expression v) (isLocal : Bool) (x : String) (σ : Scoping)
    (base : Nat) : JumpsBare [] (lower σ base (.assign isLocal (.value (.variable x)) v)) [] :=
  .plain (flows_assign h isLocal x σ base).scan (isPlain_assign h isLocal x σ base)

theorem Statement.jumpsBare {n : Node} (h : Statement n) (σ : Scoping) (base : Nat) :
    JumpsBare [] (lowerStatement σ base n) [] := by
  induction h generalizing σ base with
  | expression h =>
    rw [lowerStatement, if_pos h.isExpression]
    exact (h.jumpsBare σ base []).append (.plain rfl rfl)
  | assign isLocal x h =>
    rw [lowerStatement_of_not rfl]
    exact jumpsBare_assign h isLocal x σ base
  | assignIndex b hk hv =>
    rw [lowerStatement_of_not rfl, lower]
    have hbase : JumpsBare [] (load b) [none] := .plain rfl rfl
    exact ((hbase.append (hk.jumpsBare σ _ _)).append (hv.jumpsBare _ _ _)).append (.plain rfl rfl)
  | ifThen hc _ ih =>
    rw [lowerStatement_of_not rfl, lower]
    exact ((hc.jumpsBare σ base []).append (.jump rfl)).append (jumpsBare_lowerBlock ih _ _)
  | forLoop x hv he _ ih =>
    rw [lowerStatement_of_not rfl, lower_forLoop rfl, lowerTurns]
    have hopen : JumpsBare [] [.enterScope] [] := .straight rfl (by simp [Instruction.target?])
    have hclose : JumpsBare [] [.leaveScope] [] := .straight rfl (by simp [Instruction.target?])
    have htest {σ : Scoping} {b : Nat} {bound : Node} (he : Expression bound) :
        JumpsBare [] (load x ++ lower σ b bound ++ [.notEqual]) [none] :=
      .append (.append (.plain rfl rfl) (he.jumpsBare _ _ [none])) (.plain rfl rfl)
    have hadvance : JumpsBare [] (lowerAdvance x) [] := .plain rfl rfl
    have hbody (σ : Scoping) (b : Nat) := (jumpsBare_lowerBlock ih σ b).append hadvance
    exact (hopen.append (((((jumpsBare_assign hv true x _ _).append (htest he)).append
      (.jump rfl)).append (hbody _ _)).append (.jump rfl))).append hclose
  | function f params _ _ =>
    rw [lowerStatement_of_not rfl, lower]
    have hnames : JumpsBare [] [.pushId f, .pushFunction σ.next] [none, some f] := .plain rfl rfl
    exact hnames.append (.plain (scan_lowerStore (σ.isDeclared f) f []) (isPlain_lowerStore _))
  | ret h =>
    rw [lowerStatement_of_not rfl, lower]
    exact (h.jumpsBare σ base []).append (.plain rfl rfl)

theorem Expression.not_mem_parts {n : Node} (h : Expression n) {σ : Scoping} {base : Nat}
    {q : Part} (hq : q.node.isExpression = false) : q ∉ n.parts σ base := by
  intro hmem
  have hexpr := (hereditary_expression.parts σ base n h q hmem).isExpression
  rw [hexpr] at hq
  cases hq

mutual

theorem at_parts (σ : Scoping) (base : Nat) {q : Part} (hq : q.node.isExpression = false) :
    (n : Node) → Statement n → q ∈ n.parts σ base →
      operandEffect.At base [] (lowerStatement σ base n) q.base []
  | .value _, h, hmem | .notEqual _ _, h, hmem | .call _ _ _, h, hmem | .index _ _, h, hmem =>
    absurd hmem ((h.toExpression rfl).not_mem_parts hq)
  | .assign isLocal target v, h, hmem => by
    cases h with
    | expression h => cases h.isExpression
    | assign _ x hv =>
      rw [parts] at hmem
      rcases List.mem_cons.1 hmem with rfl | hmem
      · exact .start
      · exact absurd hmem (hv.not_mem_parts hq)
    | assignIndex b hk hv =>
      rw [parts] at hmem
      rcases List.mem_cons.1 hmem with rfl | hmem
      · exact .start
      · rcases List.mem_append.1 hmem with hmem | hmem
        · exact absurd hmem (hk.not_mem_parts hq)
        · exact absurd hmem (hv.not_mem_parts hq)
  | .ifThen condition body, h, hmem => by
    rw [parts] at hmem
    cases h with
    | expression h => cases h.isExpression
    | ifThen hc hb =>
      rcases List.mem_cons.1 hmem with rfl | hmem
      · exact .start
      rcases List.mem_append.1 hmem with hmem | hmem
      · exact absurd hmem (hc.not_mem_parts hq)
      · rw [lowerStatement_of_not rfl, lower]
        refine .rightAt (at_partsOfBlock _ _ hq body hb hmem)
          ((hc.jumpsBare σ base []).append (.jump rfl)).scan ?_
        rw [extent_append, Nat.add_assoc]
        rfl
  | .forLoop initial bound body, h, hmem => by
    rw [parts] at hmem
    cases h with
    | expression h => cases h.isExpression
    | forLoop x hv he hb =>
      rcases List.mem_cons.1 hmem with rfl | hmem
      · exact .start
      rw [lowerStatement_of_not rfl, lower_forLoop rfl]
      have hopen : operandEffect.scan [] [.enterScope] = some [] := rfl
      refine .left (.right ?_ hopen)
      rcases List.mem_append.1 hmem with hmem | hmem
      · rcases List.mem_append.1 hmem with hmem | hmem
        · rw [parts] at hmem
          rcases List.mem_cons.1 hmem with rfl | hmem
          · exact .start
          · exact absurd hmem (hv.not_mem_parts hq)
        · exact absurd hmem (he.not_mem_parts hq)
      · rw [lowerTurns]
        refine .left (.rightAt (.left (at_partsOfBlock _ _ hq body hb hmem)) ?_ ?_)
        · rw [Effect.scan_append, Effect.scan_append_of_eq (flows_assign hv true x _ _).scan,
            (flows_test he.pushesOne x _ _).scan]
          rfl
        · simp only [extent_append, Nat.add_assoc]
          rfl
  | .function _ _ _, _, hmem => by
    rw [parts] at hmem
    cases List.mem_singleton.1 hmem
    exact .start
  | .ret v, h, hmem => by
    rw [parts] at hmem
    cases h with
    | expression h => cases h.isExpression
    | ret hv =>
      rcases List.mem_cons.1 hmem with rfl | hmem
      · exact .start
      · exact absurd hmem (hv.not_mem_parts hq)

theorem at_partsOfBlock (σ : Scoping) (base : Nat) {q : Part} (hq : q.node.isExpression = false) :
    (ns : List Node) → (∀ n ∈ ns, Statement n) → q ∈ partsOfBlock σ base ns →
      operandEffect.At base [] (lowerBlock σ base ns) q.base []
  | [], _, hmem => by cases hmem
  | n :: ns, h, hmem => by
    obtain ⟨hn, hs⟩ := List.forall_mem_cons.1 h
    rw [partsOfBlock] at hmem
    rcases List.mem_append.1 hmem with hmem | hmem
    · exact .left (at_parts σ base hq n hn hmem)
    · exact .right (at_partsOfBlock _ _ hq ns hs hmem) (hn.settles σ base).scan

end

end Node

theorem Routine.jumpsBare_lower {r : Routine} (h : ∀ n ∈ r.body, n.Statement) :
    Node.JumpsBare (List.replicate r.params.length none) r.lower [] := by
  have hprologue : Node.JumpsBare (List.replicate r.params.length none) (prologue r.params) [] := by
    refine .plain (scan_prologue r.params) ?_
    simp [prologue, Instruction.isPlain]
  have hbody := Node.jumpsBare_lowerBlock (fun n hn => (h n hn).jumpsBare) r.scoping
    (extent (prologue r.params))
  refine (hprologue.append hbody).append ?_
  rw [epilogue]
  split <;> exact .plain rfl rfl

namespace Script

variable {ns : List Node} {id : Nat} {is : List Instruction}

theorem jumpsBare (h : ∀ n ∈ ns, n.Statement) (hs : (streams ns)[id]? = some is) :
    Node.JumpsBare (List.replicate (arity ns (.compiled id)) none) is [] := by
  obtain ⟨rfl, rfl⟩ | ⟨k, r, rfl, hr, rfl⟩ := stream_cases hs
  · exact Node.jumpsBare_lowerBlock (fun n hn => (h n hn).jumpsBare) _ _
  · rw [arity, hr]
    exact Routine.jumpsBare_lower
      (Node.hereditary_statement.routinesAll .start ns h r (List.mem_of_getElem? hr))

theorem at_of_jump (h : ∀ n ∈ ns, n.Statement) (hs : (streams ns)[id]? = some is) {a b : Nat}
    {i : Instruction} {js : List Instruction} (hi : Stands is b (i :: js))
    (ha : i.target? = some a) : (operands ns h).At id a [] := by
  obtain ⟨pre, post, rfl, -⟩ := hi
  have hflows := operandFlows h hs
  have hbare := jumpsBare h hs
  rw [List.append_assoc] at hflows hbare
  have hcut : operandEffect.scan (List.replicate (arity ns (.compiled id)) none)
      ((pre ++ [i]) ++ (js ++ post)) = some [] := by simpa using hflows.scan
  obtain ⟨t, ht, -⟩ := Effect.exists_scan_of_append hcut
  cases hbare.jumps pre i (js ++ post) a t rfl ha ht
  refine ⟨_, hs, ?_⟩
  rw [List.append_assoc]
  exact hflows.jumps pre i (js ++ post) a [] rfl ha ht

theorem at_of_mem_parts (h : ∀ n ∈ ns, n.Statement) {q : Part} (hq : q ∈ parts ns id)
    (hn : q.node.isExpression = false) : (operands ns h).At id q.base [] := by
  cases id with
  | zero => exact ⟨_, rfl, Node.at_partsOfBlock .start 0 hn ns h hq⟩
  | succ k =>
    rw [parts] at hq
    cases hr : (routines ns)[k]? with
    | none =>
      rw [hr] at hq
      cases hq
    | some r =>
      rw [hr] at hq
      refine ⟨r.lower, by simp [streams, hr], ?_⟩
      have hbody := Node.hereditary_statement.routinesAll .start ns h r (List.mem_of_getElem? hr)
      have hat := Node.at_partsOfBlock r.scoping (extent (Routine.prologue r.params)) hn r.body
        hbody hq
      have hentry : (operands ns h).entry (k + 1) = List.replicate r.params.length none := by
        simp [operands, arity, hr]
      rw [hentry]
      exact .left (.rightAt hat (Routine.scan_prologue r.params) (Nat.zero_add _).symm)

end Script

end Scriptlet
