import Scriptlet.Proofs.Grammar

/-! The operands of a script's code.  At every address of a stream it is known how many
operands the stream has pushed and not yet taken, and which of them are names that an
instruction pushed.  An expression adds one operand, and a statement leaves none. -/

namespace Scriptlet

open Code

/-- Pushes and takes operands; `some x` is the name `x`, and `none` any value.  The loads and
stores need names, and a return needs an otherwise empty list. -/
def operandEffect : Effect (Option String) := fun s i =>
  match i with
  | .pushFalse | .pushTrue | .pushNil | .pushNumber _ | .pushString _ | .pushFunction _
  | .newTable => some (none :: s)
  | .pushId x => some (some x :: s)
  | .notEqual | .getTable =>
    match s with
    | _ :: _ :: s => some (none :: s)
    | _ => none
  | .increment =>
    match s with
    | _ :: s => some (none :: s)
    | _ => none
  | .swap =>
    match s with
    | a :: b :: s => some (b :: a :: s)
    | _ => none
  | .pop | .jumpIfFalse _ =>
    match s with
    | _ :: s => some s
    | _ => none
  | .getEnv =>
    match s with
    | some _ :: s => some (none :: s)
    | _ => none
  | .setEnv | .setEnvGlobal =>
    match s with
    | _ :: some _ :: s => some s
    | _ => none
  | .setTable =>
    match s with
    | _ :: _ :: _ :: s => some s
    | _ => none
  | .call args =>
    match s with
    | _ :: s => if args ≤ s.length then some (none :: s.drop args) else none
    | _ => none
  | .ret =>
    match s with
    | [_] => some []
    | _ => none
  | .enterScope | .leaveScope | .jump _ | .noOp => some s

namespace OperandEffect

variable {s t u : List (Option String)} {i : Instruction}

@[simp] theorem call_append {args : Nat} {a : Option String} (h : s.length = args) :
    operandEffect (a :: (s ++ t)) (.call args) = some (none :: t) := by
  subst h
  simp [operandEffect]

theorem framed (hi : i ≠ .ret) (h : operandEffect s i = some t) (u : List (Option String)) :
    operandEffect (s ++ u) i = some (t ++ u) := by
  cases i with
  | ret => exact absurd rfl hi
  | call args =>
    cases s with
    | nil => cases h
    | cons a s =>
      simp only [operandEffect] at h
      split at h
      · next hle =>
        cases h
        simp [operandEffect, List.drop_append_of_le_length hle]
        omega
      · cases h
  | getEnv =>
    match s, h with
    | some _ :: _, h =>
      cases h
      rfl
  | setEnv | setEnvGlobal =>
    match s, h with
    | _ :: some _ :: _, h =>
      cases h
      rfl
  | notEqual | getTable | swap =>
    match s, h with
    | _ :: _ :: _, h =>
      cases h
      rfl
  | increment | pop | jumpIfFalse =>
    match s, h with
    | _ :: _, h =>
      cases h
      rfl
  | setTable =>
    match s, h with
    | _ :: _ :: _ :: _, h =>
      cases h
      rfl
  | _ =>
    cases h
    rfl

end OperandEffect

theorem operandFlows_of_isPlain {base : Nat} {s t : List (Option String)} {is : List Instruction}
    (h : operandEffect.scan s is = some t) (hp : is.all Instruction.isPlain) :
    operandEffect.Flows base s is t :=
  .straight h fun i hi => Instruction.target?_of_isPlain (List.all_eq_true.1 hp i hi)

namespace Node

def PushesOne (n : Node) : Prop :=
  ∀ σ base s, operandEffect.Flows base s (lower σ base n) (none :: s)

def lowerStatement (σ : Scoping) (base : Nat) (n : Node) : List Instruction :=
  lower σ base n ++ if n.isExpression then [.pop] else []

theorem lowerStatement_of_not {n : Node} (h : n.isExpression = false) (σ : Scoping) (base : Nat) :
    lowerStatement σ base n = lower σ base n := by
  rw [lowerStatement, h]
  exact List.append_nil _

def Settles (n : Node) : Prop :=
  ∀ σ base, operandEffect.Flows base [] (lowerStatement σ base n) []

theorem scan_lowerLiteral (l : Literal) (s : List (Option String)) :
    operandEffect.scan s (lowerLiteral l) = some (none :: s) := by
  cases l with
  | boolean b => cases b <;> rfl
  | _ => rfl

theorem scan_lowerCallee (r : Option String) (f : String) (s : List (Option String)) :
    operandEffect.scan s (lowerCallee r f) = some (none :: s) := by
  cases r <;> rfl

theorem scan_lowerStore (isDeclared : Bool) (x : String) (s : List (Option String)) :
    operandEffect.scan (none :: some x :: s) [lowerStore isDeclared] = some s := by
  cases isDeclared <;> rfl

theorem flows_lowerArguments {args : List Node} (h : ∀ n ∈ args, PushesOne n) (σ : Scoping)
    (base : Nat) (s : List (Option String)) :
    operandEffect.Flows base s (lowerArguments σ base args)
      (List.replicate args.length none ++ s) := by
  induction args generalizing σ base s with
  | nil => exact .nil
  | cons n ns ih =>
    obtain ⟨hn, hs⟩ := List.forall_mem_cons.1 h
    rw [lowerArguments, List.length_cons, List.replicate_succ', List.append_assoc]
    exact (hn σ base s).append (ih hs _ _ (none :: s))

theorem flows_lowerBlock {ns : List Node} (h : ∀ n ∈ ns, Settles n) (σ : Scoping) (base : Nat) :
    operandEffect.Flows base [] (lowerBlock σ base ns) [] := by
  induction ns generalizing σ base with
  | nil => exact .nil
  | cons n ns ih =>
    obtain ⟨hn, hs⟩ := List.forall_mem_cons.1 h
    exact (hn σ base).append (ih hs _ _)

mutual

theorem Postfixed.pushesOne {n : Node} : Postfixed n → PushesOne n
  | .value l => fun _ _ s => operandFlows_of_isPlain (scan_lowerLiteral l s) (isPlain_lowerLiteral l)
  | .call r f h => fun σ base s => by
    rw [lower]
    refine .append (.append (flows_lowerArguments (fun n hn => (h n hn).pushesOne) σ base s)
      (operandFlows_of_isPlain (scan_lowerCallee r f _) (isPlain_lowerCallee r f)))
      (operandFlows_of_isPlain ?_ rfl)
    simp [OperandEffect.call_append]
  | .index b h => fun σ base s => by
    rw [lower]
    exact .append (.append (operandFlows_of_isPlain rfl rfl) (h.pushesOne σ _ (none :: s)))
      (operandFlows_of_isPlain rfl rfl)

theorem Expression.pushesOne {n : Node} : Expression n → PushesOne n
  | .postfixed h => h.pushesOne
  | .notEqual hl hr => fun σ base s => by
    rw [lower]
    exact .append (.append (hl.pushesOne σ base s) (hr.pushesOne _ _ (none :: s)))
      (operandFlows_of_isPlain rfl rfl)

end

theorem Expression.settles {n : Node} (h : Expression n) : Settles n := by
  intro σ base
  rw [lowerStatement, if_pos h.isExpression]
  exact (h.pushesOne σ base []).append (operandFlows_of_isPlain rfl rfl)

theorem flows_assign {v : Node} (h : Expression v) (isLocal : Bool) (x : String) (σ : Scoping)
    (base : Nat) :
    operandEffect.Flows base [] (lower σ base (.assign isLocal (.value (.variable x)) v)) [] := by
  rw [lower]
  exact .append (.append (operandFlows_of_isPlain rfl rfl) (h.pushesOne _ _ [some x]))
    (operandFlows_of_isPlain (scan_lowerStore _ x []) (isPlain_lowerStore _))

theorem flows_test {bound : Node} (h : PushesOne bound) (x : String) (σ : Scoping) (base : Nat) :
    operandEffect.Flows base [] (load x ++ lower σ (base + 3) bound ++ [.notEqual]) [none] :=
  .append (.append (operandFlows_of_isPlain rfl rfl) (h _ _ [none]))
    (operandFlows_of_isPlain rfl rfl)

theorem flows_lowerTurns {x : String} {σ : Scoping} {base : Nat} {initial bound : Node}
    {body : List Node} (hi : operandEffect.Flows base [] (lower σ base initial) [])
    (he : PushesOne bound) (hb : ∀ n ∈ body, Settles n) :
    operandEffect.Flows base [] (lowerTurns x σ base initial bound body) [] := by
  have hbody (b : Nat) : operandEffect.Flows b []
      (lowerBlock ((σ.after initial).after bound) b body ++ lowerAdvance x) [] :=
    .append (flows_lowerBlock hb _ _) (operandFlows_of_isPlain rfl rfl)
  refine .loop hi (flows_test he x _ _) rfl (hbody _) rfl rfl ?_ ?_
  · simp only [extent_append, Nat.add_assoc]
    rfl
  · simp only [extent_append, Nat.add_assoc]

theorem Statement.settles {n : Node} (h : Statement n) : Settles n := by
  induction h with
  | expression h => exact h.settles
  | assign isLocal x h =>
    intro σ base
    rw [lowerStatement_of_not rfl]
    exact flows_assign h isLocal x σ base
  | assignIndex b hk hv =>
    intro σ base
    rw [lowerStatement_of_not rfl, lower]
    have hbase : operandEffect.Flows base [] (load b) [none] := operandFlows_of_isPlain rfl rfl
    have hkey := hbase.append (hk.pushesOne σ (base + 3) [none])
    refine (hkey.appendAt (hv.pushesOne _ _ [none, none]) ?_).append
      (operandFlows_of_isPlain rfl rfl)
    rw [extent_append, Nat.add_assoc]
    rfl
  | ifThen hc _ ih =>
    intro σ base
    rw [lowerStatement_of_not rfl, lower]
    exact .ifThen (hc.pushesOne σ base []) rfl (flows_lowerBlock ih _ _) rfl
  | forLoop x hv he _ ih =>
    intro σ base
    rw [lowerStatement_of_not rfl, lower_forLoop rfl]
    have hopen : operandEffect.Flows base [] [.enterScope] [] :=
      .straight rfl (by simp [Instruction.target?])
    exact (hopen.append (flows_lowerTurns (flows_assign hv true x _ _) he.pushesOne ih)).snoc rfl rfl
  | function f params _ _ =>
    intro σ base
    rw [lowerStatement_of_not rfl, lower]
    have hnames : operandEffect.Flows base [] [.pushId f, .pushFunction σ.next] [none, some f] :=
      operandFlows_of_isPlain rfl rfl
    exact hnames.append
      (operandFlows_of_isPlain (scan_lowerStore (σ.isDeclared f) f []) (isPlain_lowerStore _))
  | ret h =>
    intro σ base
    rw [lowerStatement_of_not rfl, lower]
    exact (h.pushesOne σ base []).append (operandFlows_of_isPlain rfl rfl)

end Node

namespace Routine

theorem scan_prologue (params : List String) :
    operandEffect.scan (List.replicate params.length none) (prologue params) = some [] := by
  have hbind (ps : List String) : operandEffect.scan (List.replicate ps.length none)
      (ps.flatMap fun p => [.pushId p, .swap, .setEnv]) = some [] := by
    induction ps with
    | nil => rfl
    | cons p ps ih => exact ih
  simpa [prologue, operandEffect] using hbind params.reverse

theorem operandFlows_lower {r : Routine} (h : ∀ n ∈ r.body, n.Statement) :
    operandEffect.Flows 0 (List.replicate r.params.length none) r.lower [] := by
  have hprologue : operandEffect.Flows 0 (List.replicate r.params.length none)
      (prologue r.params) [] := by
    refine operandFlows_of_isPlain (scan_prologue r.params) ?_
    simp [prologue, Instruction.isPlain]
  have hbody := Node.flows_lowerBlock (fun n hn => (h n hn).settles) r.scoping
    (extent (prologue r.params))
  refine (hprologue.appendAt hbody (Nat.zero_add _).symm).append ?_
  rw [epilogue]
  split <;> exact operandFlows_of_isPlain rfl rfl

end Routine

namespace Script

def arity (ns : List Node) : Callable → Nat
  | .builtin b => b.arity
  | .compiled 0 => 0
  | .compiled (k + 1) => ((routines ns)[k]?.map (·.params.length)).getD 0

theorem operandFlows {ns : List Node} (h : ∀ n ∈ ns, n.Statement) {id : Nat}
    {is : List Instruction} (hs : (streams ns)[id]? = some is) :
    operandEffect.Flows 0 (List.replicate (arity ns (.compiled id)) none) is [] := by
  obtain ⟨rfl, rfl⟩ | ⟨k, r, rfl, hr, rfl⟩ := stream_cases hs
  · exact Node.flows_lowerBlock (fun n hn => (h n hn).settles) _ _
  · rw [arity, hr]
    exact Routine.operandFlows_lower
      (Node.hereditary_statement.routinesAll .start ns h r (List.mem_of_getElem? hr))

def operands (ns : List Node) (h : ∀ n ∈ ns, n.Statement) :
    Reading (Option String) (streams ns) where
  effect := operandEffect
  entry id := List.replicate (arity ns (.compiled id)) none
  flows hs := ⟨[], operandFlows h hs⟩

end Script

namespace Node

mutual

def innerBoundaries (σ : Scoping) (base : Nat) : Node → List Nat
  | .ifThen condition body =>
    boundaries (σ.after condition) (base + extent (lower σ base condition) + 2) body
  | .forLoop initial bound body =>
    let σ' := (σ.enter []).after initial
    let head := base + 1 + extent (lower (σ.enter []) (base + 1) initial)
    boundaries (σ'.after bound) (head + 3 + extent (lower σ' (head + 3) bound) + 3) body
  | _ => []

/-- The addresses at which a statement of a block, or of a block in it, begins or ends. -/
def boundaries (σ : Scoping) (base : Nat) : List Node → List Nat
  | [] => [base]
  | n :: ns =>
    base :: (innerBoundaries σ base n ++
      boundaries (σ.after n) (base + extent (lowerStatement σ base n)) ns)

end

mutual

theorem at_innerBoundaries (σ : Scoping) (base : Nat) {a : Nat} :
    (n : Node) → Statement n → a ∈ innerBoundaries σ base n →
      operandEffect.At base [] (lowerStatement σ base n) a []
  | .ifThen condition body, h, ha => by
    rw [innerBoundaries] at ha
    cases h with
    | expression h => cases h.isExpression
    | ifThen hc hb =>
      rw [lowerStatement_of_not rfl, lower]
      have hscan (b : Nat) :
          operandEffect.scan [] (lower σ base condition ++ [.jumpIfFalse b]) = some [] := by
        rw [Effect.scan_append_of_eq (hc.pushesOne σ base []).scan]
        rfl
      refine .rightAt (at_boundaries _ _ body hb ha) (hscan _) ?_
      rw [extent_append, Nat.add_assoc]
      rfl
  | .forLoop initial bound body, h, ha => by
    rw [innerBoundaries] at ha
    cases h with
    | expression h => cases h.isExpression
    | forLoop x hv he hb =>
      rw [lowerStatement_of_not rfl, lower_forLoop rfl, lowerTurns]
      have hopen : operandEffect.scan [] [.enterScope] = some [] := rfl
      refine .left (.right (.left (.rightAt (.left (at_boundaries _ _ body hb ha)) ?_ ?_)) hopen)
      · rw [Effect.scan_append, Effect.scan_append_of_eq (flows_assign hv true x _ _).scan,
          (flows_test he.pushesOne x _ _).scan]
        rfl
      · simp only [extent_append, Nat.add_assoc]
        rfl
  | .value _, _, ha | .notEqual _ _, _, ha | .call _ _ _, _, ha | .index _ _, _, ha
  | .assign _ _ _, _, ha | .function _ _ _, _, ha | .ret _, _, ha => by
    simp [innerBoundaries] at ha

theorem at_boundaries (σ : Scoping) (base : Nat) {a : Nat} :
    (ns : List Node) → (∀ n ∈ ns, Statement n) → a ∈ boundaries σ base ns →
      operandEffect.At base [] (lowerBlock σ base ns) a []
  | [], _, ha => by
    rw [boundaries, List.mem_singleton] at ha
    rw [ha]
    exact .start
  | n :: ns, h, ha => by
    obtain ⟨hn, hs⟩ := List.forall_mem_cons.1 h
    rw [boundaries] at ha
    rcases List.mem_cons.1 ha with rfl | ha
    · exact .start
    · rcases List.mem_append.1 ha with ha | ha
      · exact .left (at_innerBoundaries σ base n hn ha)
      · exact .right (at_boundaries _ _ ns hs ha) (hn.settles σ base).scan

end

end Node

end Scriptlet
