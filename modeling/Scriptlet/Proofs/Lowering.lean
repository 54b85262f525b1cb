import Scriptlet.Code.Compiler
import Scriptlet.Proofs.Instruction

/-! The code of a script, said without a compiler that changes as it goes.  What the compiler
knows at a node is a `Scoping`: the names that the open scopes declare and the number of the
next function.  From it and an address, `Node.lower` gives the instructions of a node and
`Node.routines` the functions in it; `streams` puts them together for a whole script.  The
compiler accepts the nodes that are `Compilable`, and emits just this code for them. -/

namespace Scriptlet

open Code

/-- The innermost scope comes first. -/
structure Scoping where
  scopes : List (List String)
  next : Nat
  deriving DecidableEq

namespace Scoping

def start : Scoping := ⟨[[]], 1⟩

def declare (σ : Scoping) (x : String) : Scoping :=
  match σ.scopes with
  | [] => σ
  | scope :: outer => { σ with scopes := (x :: scope) :: outer }

def declareIf (σ : Scoping) (isLocal : Bool) (x : String) : Scoping :=
  if isLocal then σ.declare x else σ

def isDeclared (σ : Scoping) (x : String) : Bool := σ.scopes.any (·.contains x)

def enter (σ : Scoping) (names : List String) : Scoping :=
  { σ with scopes := names :: σ.scopes }

def enterFunction (σ : Scoping) (params : List String) : Scoping :=
  ⟨params :: σ.scopes, σ.next + 1⟩

/-- Outside of a scope, only the numbers that it gave away are known of it. -/
def leave (σ inner : Scoping) : Scoping := { σ with next := inner.next }

mutual

def after (σ : Scoping) : Node → Scoping
  | .value _ => σ
  | .notEqual lhs rhs => (σ.after lhs).after rhs
  | .call _ _ args => σ.afterAll args
  | .index _ key => σ.after key
  | .assign isLocal (.value (.variable x)) v => (σ.declareIf isLocal x).after v
  | .assign _ (.index _ key) v => (σ.after key).after v
  | .assign _ _ _ => σ
  | .ifThen condition body => (σ.after condition).afterAll body
  | .forLoop initial bound body =>
    σ.leave ((((σ.enter []).after initial).after bound).afterAll body)
  | .function _ params body => σ.leave ((σ.enterFunction params).afterAll body)
  | .ret v => σ.after v

def afterAll (σ : Scoping) : List Node → Scoping
  | [] => σ
  | n :: ns => (σ.after n).afterAll ns

end

end Scoping

structure Routine where
  params : List String
  body : List Node
  scoping : Scoping

namespace Node

def load (x : String) : List Instruction := [.pushId x, .getEnv]

def lowerLiteral : Literal → List Instruction
  | .number n => [.pushNumber n]
  | .string s => [.pushString s]
  | .boolean true => [.pushTrue]
  | .boolean false => [.pushFalse]
  | .variable x => load x
  | .table => [.newTable]

def lowerCallee : Option String → String → List Instruction
  | some r, f => load r ++ [.pushId f, .getTable]
  | none, f => load f

def lowerAdvance (x : String) : List Instruction :=
  load x ++ [.increment, .pushId x, .swap, .setEnv]

def lowerStore (isDeclared : Bool) : Instruction := if isDeclared then .setEnv else .setEnvGlobal

mutual

def lower (σ : Scoping) (base : Nat) : Node → List Instruction
  | .value l => lowerLiteral l
  | .notEqual lhs rhs =>
    let l := lower σ base lhs
    l ++ lower (σ.after lhs) (base + extent l) rhs ++ [.notEqual]
  | .call receiver f args =>
    lowerArguments σ base args ++ lowerCallee receiver f ++ [.call args.length]
  | .index b key => load b ++ lower σ (base + 3) key ++ [.getTable]
  | .assign isLocal (.value (.variable x)) v =>
    let σ' := σ.declareIf isLocal x
    [.pushId x] ++ lower σ' (base + 2) v ++ [lowerStore ((σ'.after v).isDeclared x)]
  | .assign _ (.index b key) v =>
    let k := lower σ (base + 3) key
    load b ++ k ++ lower (σ.after key) (base + 3 + extent k) v ++ [.setTable]
  | .assign _ _ _ => []
  | .ifThen condition body =>
    let c := lower σ base condition
    let start := base + extent c + 2
    let b := lowerBlock (σ.after condition) start body
    c ++ [.jumpIfFalse (start + extent b)] ++ b
  | .forLoop initial bound body =>
    match Compiler.loopVariable? initial with
    | none => []
    | some x =>
      let σ' := (σ.enter []).after initial
      let i := lower (σ.enter []) (base + 1) initial
      let head := base + 1 + extent i
      let e := lower σ' (head + 3) bound
      let start := head + 3 + extent e + 3
      let b := lowerBlock (σ'.after bound) start body
      let exit := start + extent b + extent (lowerAdvance x) + 2
      [.enterScope] ++ i ++ load x ++ e ++ [.notEqual, .jumpIfFalse exit] ++ b ++
        lowerAdvance x ++ [.jump head, .leaveScope]
  | .function f _ _ => [.pushId f, .pushFunction σ.next, lowerStore (σ.isDeclared f)]
  | .ret v => lower σ base v ++ [.ret]

def lowerArguments (σ : Scoping) (base : Nat) : List Node → List Instruction
  | [] => []
  | n :: ns =>
    let a := lower σ base n
    a ++ lowerArguments (σ.after n) (base + extent a) ns

def lowerBlock (σ : Scoping) (base : Nat) : List Node → List Instruction
  | [] => []
  | n :: ns =>
    let a := lower σ base n ++ if n.isExpression then [.pop] else []
    a ++ lowerBlock (σ.after n) (base + extent a) ns

end

/-- The instructions of a loop with the variable `x`, without those that open and close its
scope: the initializer, the test, the way out, the body with the step, and the way back. -/
def lowerTurns (x : String) (σ : Scoping) (base : Nat) (initial bound : Node) (body : List Node) :
    List Instruction :=
  let σ' := σ.after initial
  let i := lower σ base initial
  let head := base + extent i
  let e := lower σ' (head + 3) bound
  let start := head + 3 + extent e + 3
  let b := lowerBlock (σ'.after bound) start body
  let exit := start + extent b + extent (lowerAdvance x) + 2
  i ++ (load x ++ e ++ [.notEqual]) ++ [.jumpIfFalse exit] ++ (b ++ lowerAdvance x) ++ [.jump head]

theorem lower_forLoop {initial : Node} {x : String}
    (h : Compiler.loopVariable? initial = some x) (σ : Scoping) (base : Nat) (bound : Node)
    (body : List Node) :
    lower σ base (.forLoop initial bound body) =
      [.enterScope] ++ lowerTurns x (σ.enter []) (base + 1) initial bound body ++
        [.leaveScope] := by
  rw [lower]
  simp [h, lowerTurns]

mutual

def routines (σ : Scoping) : Node → List Routine
  | .value _ => []
  | .notEqual lhs rhs => lhs.routines σ ++ rhs.routines (σ.after lhs)
  | .call _ _ args => routinesAll σ args
  | .index _ key => key.routines σ
  | .assign isLocal (.value (.variable x)) v => v.routines (σ.declareIf isLocal x)
  | .assign _ (.index _ key) v => key.routines σ ++ v.routines (σ.after key)
  | .assign _ _ _ => []
  | .ifThen condition body => condition.routines σ ++ routinesAll (σ.after condition) body
  | .forLoop initial bound body =>
    initial.routines (σ.enter []) ++ bound.routines ((σ.enter []).after initial) ++
      routinesAll (((σ.enter []).after initial).after bound) body
  | .function _ params body =>
    ⟨params, body, σ.enterFunction params⟩ :: routinesAll (σ.enterFunction params) body
  | .ret v => v.routines σ

def routinesAll (σ : Scoping) : List Node → List Routine
  | [] => []
  | n :: ns => n.routines σ ++ routinesAll (σ.after n) ns

end

mutual

/-- An assignment needs a target that it can store into, and a loop an initializer that
declares its variable. -/
def Compilable : Node → Prop
  | .value _ => True
  | .notEqual lhs rhs => lhs.Compilable ∧ rhs.Compilable
  | .call _ _ args => CompilableAll args
  | .index _ key => key.Compilable
  | .assign _ (.value (.variable _)) v => v.Compilable
  | .assign false (.index _ key) v => key.Compilable ∧ v.Compilable
  | .assign _ _ _ => False
  | .ifThen condition body => condition.Compilable ∧ CompilableAll body
  | .forLoop initial bound body =>
    (Compiler.loopVariable? initial).isSome ∧ initial.Compilable ∧ bound.Compilable ∧
      CompilableAll body
  | .function _ _ body => CompilableAll body
  | .ret v => v.Compilable

def CompilableAll : List Node → Prop
  | [] => True
  | n :: ns => n.Compilable ∧ CompilableAll ns

end

end Node

namespace Routine

def prologue (params : List String) : List Instruction :=
  .noOp :: params.reverse.flatMap fun p => [.pushId p, .swap, .setEnv]

def epilogue (body : List Node) : List Instruction :=
  match body.getLast? with
  | some (.ret _) => []
  | _ => [.pushNil, .ret]

def lower (r : Routine) : List Instruction :=
  prologue r.params ++ Node.lowerBlock r.scoping (extent (prologue r.params)) r.body ++
    epilogue r.body

end Routine

namespace Script

def routines (ns : List Node) : List Routine := Node.routinesAll .start ns

def streams (ns : List Node) : List (List Instruction) :=
  Node.lowerBlock .start 0 ns :: (routines ns).map Routine.lower

end Script

namespace Scoping

def Extends (τ σ : Scoping) : Prop :=
  ∃ added scope outer, σ.scopes = scope :: outer ∧ τ.scopes = (added ++ scope) :: outer

theorem Extends.refl {σ : Scoping} (h : σ.scopes ≠ []) : σ.Extends σ := by
  obtain ⟨scope, outer, h⟩ := List.exists_cons_of_ne_nil h
  exact ⟨[], scope, outer, h, h⟩

theorem Extends.trans {σ τ υ : Scoping} (h : υ.Extends τ) (h' : τ.Extends σ) : υ.Extends σ := by
  obtain ⟨added, scope, outer, hσ, hτ⟩ := h'
  obtain ⟨more, scope', outer', hτ', hυ⟩ := h
  rw [hτ] at hτ'
  obtain ⟨rfl, rfl⟩ := List.cons.inj hτ'
  exact ⟨more ++ added, scope, outer, hσ, by rw [hυ, List.append_assoc]⟩

theorem Extends.ne_nil {σ τ : Scoping} (h : τ.Extends σ) : τ.scopes ≠ [] := by
  obtain ⟨added, scope, outer, _, h⟩ := h
  rw [h]
  exact List.cons_ne_nil _ _

theorem Extends.tail_eq {σ τ : Scoping} (h : τ.Extends σ) :
    τ.scopes.tail = σ.scopes.tail := by
  obtain ⟨added, scope, outer, h, h'⟩ := h
  rw [h, h']
  rfl

theorem extends_declareIf {σ : Scoping} (h : σ.scopes ≠ []) (isLocal : Bool) (x : String) :
    (σ.declareIf isLocal x).Extends σ := by
  cases isLocal with
  | false => exact .refl h
  | true =>
    obtain ⟨scope, outer, hs⟩ := List.exists_cons_of_ne_nil h
    exact ⟨[x], scope, outer, hs, by simp [declareIf, declare, hs]⟩

theorem extends_leave {σ : Scoping} (h : σ.scopes ≠ []) (inner : Scoping) :
    (σ.leave inner).Extends σ := by
  obtain ⟨scope, outer, hs⟩ := List.exists_cons_of_ne_nil h
  exact ⟨[], scope, outer, hs, hs⟩

mutual

theorem extends_after {σ : Scoping} (h : σ.scopes ≠ []) : (n : Node) → (σ.after n).Extends σ
  | .value _ => .refl h
  | .notEqual lhs rhs =>
    have hl := extends_after h lhs
    (extends_after hl.ne_nil rhs).trans hl
  | .call _ _ args => extends_afterAll h args
  | .index _ key => extends_after h key
  | .assign isLocal target v => by
    cases target with
    | value l =>
      cases l with
      | «variable» x =>
        have hd := extends_declareIf h isLocal x
        exact (extends_after hd.ne_nil v).trans hd
      | _ => exact .refl h
    | index b key =>
      have hk := extends_after h key
      exact (extends_after hk.ne_nil v).trans hk
    | _ => exact .refl h
  | .ifThen condition body =>
    have hc := extends_after h condition
    (extends_afterAll hc.ne_nil body).trans hc
  | .forLoop _ _ _ => extends_leave h _
  | .function _ _ _ => extends_leave h _
  | .ret v => extends_after h v

theorem extends_afterAll {σ : Scoping} (h : σ.scopes ≠ []) :
    (ns : List Node) → (σ.afterAll ns).Extends σ
  | [] => .refl h
  | n :: ns =>
    have hn := extends_after h n
    (extends_afterAll hn.ne_nil ns).trans hn

end

end Scoping

end Scriptlet
