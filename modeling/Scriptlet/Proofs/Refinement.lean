import Scriptlet.Proofs.Grammar
import Scriptlet.Proofs.Simulation

/-! The code of a node realizes the node's evaluation.  Straight code comes to a few actions
on the store; conditions and loops put the code of their parts together with jumps; and a call
of a function, whose body is in another stream, does what `invoke` does with less fuel. -/

namespace Scriptlet

open Code

namespace Node

open Machine

variable {host : Host} {ns : List Node} {fuel base : Nat}

theorem realizes_load (x : String) :
    Realizes host ns fuel base (load x) (Eval.ofAction (Eval.fetch x)) :=
  realizes_straight rfl fun _ _ => rfl

theorem realizes_literal (l : Literal) :
    Realizes host ns fuel base (lowerLiteral l) (Eval.ofAction (Eval.literal l)) := by
  cases l with
  | boolean b => cases b <;> exact realizes_straight rfl fun _ _ => rfl
  | «variable» x => exact realizes_load x
  | _ => exact realizes_straight rfl fun _ _ => rfl

theorem performAll_getTable (f : String) (v : Value) (s : Store) :
    Eval.ofAction (performAll host [.pushId f, .getTable]) { s with stack := v :: s.stack } =
      Eval.ofAction (match v with
        | .table id => push (s.machine.read id (.string f))
        | v => throw (.notIndexable v.kind)) s := by
  cases v <;> rfl

theorem realizes_callee (r : Option String) (f : String) :
    Realizes host ns fuel base (lowerCallee r f) (Eval.ofAction (Eval.callee r f)) := by
  cases r with
  | none => exact realizes_load f
  | some r =>
    refine realizes_straight rfl fun s _ => ?_
    exact performAll_getTable f (s.machine.lookup r) s

theorem realizes_notEqual :
    Realizes host ns fuel base [.notEqual] (do Eval.ofAction (push (.boolean (← Eval.differ)))) := by
  refine realizes_straight rfl fun s _ => ?_
  obtain ⟨_ | ⟨b, _ | ⟨a, vs⟩⟩, frames, heap, written⟩ := s <;> rfl

theorem realizes_readIndex :
    Realizes host ns fuel base [.getTable] (Eval.ofAction Eval.readIndex) := by
  refine realizes_straight rfl fun s _ => ?_
  obtain ⟨_ | ⟨key, _ | ⟨v, vs⟩⟩, frames, heap, written⟩ := s
  · rfl
  · rfl
  · cases v <;> rfl

theorem realizes_writeIndex :
    Realizes host ns fuel base [.setTable] (Eval.ofAction Eval.writeIndex) := by
  refine realizes_straight rfl fun s _ => ?_
  obtain ⟨_ | ⟨v, _ | ⟨key, _ | ⟨t, vs⟩⟩⟩, frames, heap, written⟩ := s
  · rfl
  · rfl
  · rfl
  · cases t <;> cases key <;> rfl

theorem realizes_writeName (isDeclared : Bool) :
    Realizes host ns fuel base [lowerStore isDeclared] (Eval.ofAction (Eval.writeName isDeclared)) := by
  refine realizes_straight (by cases isDeclared <;> rfl) fun s hs => ?_
  obtain ⟨_ | ⟨v, _ | ⟨x, vs⟩⟩, _ | ⟨f, fs⟩, heap, written⟩ := s
  · exact absurd rfl hs
  · cases isDeclared <;> rfl
  · exact absurd rfl hs
  · cases isDeclared <;> rfl
  · exact absurd rfl hs
  · cases isDeclared <;> cases x <;> rfl

theorem realizes_pop : Realizes host ns fuel base [.pop] (discard (Eval.ofAction pop)) := by
  refine realizes_straight rfl fun s _ => ?_
  obtain ⟨_ | ⟨v, vs⟩, frames, heap, written⟩ := s <;> rfl

theorem realizes_bindName (isDeclared : Bool) (f : String) (id : Nat) :
    Realizes host ns fuel base [.pushId f, .pushFunction id, lowerStore isDeclared]
      (Eval.ofAction (Eval.bindName isDeclared f (.function (.compiled id)))) := by
  refine realizes_straight (by cases isDeclared <;> rfl) fun s hs => ?_
  obtain ⟨stack, _ | ⟨g, gs⟩, heap, written⟩ := s
  · exact absurd rfl hs
  · cases isDeclared <;> rfl

theorem performOne_increment {m : Machine} {n : Int64} {vs : List Value}
    (h : m.stack = .number n :: vs) :
    performOne host .increment m =
      if n = Int64.maxValue then .error .overflow { m with stack := vs }
      else .ok () { m with stack := .number (n + 1) :: vs } := by
  have hx : execute host .increment = (do
    let n ← popNumber
    if n = Int64.maxValue then throw .overflow
    else
      push (.number (n + 1))
      return .next) := rfl
  rw [performOne, hx]
  simp only [Bind.bind, EStateM.bind, popNumber_of_cons h]
  by_cases hn : n = Int64.maxValue
  · simp only [if_pos hn]
    rfl
  · simp only [if_neg hn]
    rfl

theorem performAll_advance (x : String) (v : Value) {s : Store} (hs : s.frames ≠ []) :
    Eval.ofAction (performAll host [.increment, .pushId x, .swap, .setEnv])
        { s with stack := v :: s.stack } =
      Eval.ofAction (match v with
        | .number n =>
          if n = Int64.maxValue then throw .overflow else Eval.bindLocal x (.number (n + 1))
        | v => throw (.wrongKind .number v.kind)) s := by
  cases v with
  | number n =>
    obtain ⟨stack, _ | ⟨g, gs⟩, heap, written⟩ := s
    · exact absurd rfl hs
    · rw [Eval.ofAction, performAll]
      simp only [Bind.bind, EStateM.bind]
      rw [performOne_increment rfl]
      by_cases hn : n = Int64.maxValue
      · simp only [if_pos hn]
        rfl
      · simp only [if_neg hn]
        rfl
  | _ => rfl

theorem realizes_advance (x : String) :
    Realizes host ns fuel base (lowerAdvance x) (Eval.ofAction (Eval.advance x)) := by
  refine realizes_straight rfl fun s hs => ?_
  exact performAll_advance x (s.machine.lookup x) hs

theorem realizes_openFrame :
    Realizes host ns fuel base [.enterScope] (Eval.ofAction Eval.openFrame) :=
  realizes_straight rfl fun _ _ => rfl

theorem realizes_closeFrame :
    Realizes host ns fuel base [.leaveScope] (Eval.ofAction Eval.closeFrame) := by
  rintro m hm rfl hf
  have hlt := hm.frames.one_lt hf
  exact .step ((@Transition.leaveScope host m hlt).step hf)

def Invokes (host : Host) (ns : List Node) (fuel : Nat) (invoke : Nat → Eval Unit) : Prop :=
  ∀ m args id vs, Valid ns m → m.Faces (Script.streams ns) [.call args] →
    m.stack = .function (.compiled id) :: vs →
    Meets host ns fuel m (m.ip + 1) (invoke id { m.store with stack := vs })

theorem realizes_apply {invoke : Nat → Eval Unit} (h : Invokes host ns fuel invoke) (args : Nat) :
    Realizes host ns fuel base [.call args] (Eval.apply host invoke) := by
  rintro m hm rfl hf
  refine Meets.pop hf ⟨_, rfl⟩ fun v vs hs => ?_
  have hcall : execute host (.call args) m = Machine.call host m := rfl
  rw [Machine.call, bind_of_ok (pop_of_cons hs)] at hcall
  have fails (hv : execute host (.call args) m =
      .error (.notCallable v.kind) (m.withStore { m.store with stack := vs })) :
      Meets host ns fuel m (m.ip + 1)
        (.error (.failed (.notCallable v.kind)) { m.store with stack := vs }) := by
    refine ⟨m, m.withStore { m.store with stack := vs }, .refl host m, ?_, rfl⟩
    rw [step_of_faces hf, hv]
    rfl
  cases v with
  | function f =>
    cases f with
    | compiled id => exact h m args id vs hm hf hs
    | builtin b => exact meets_of_execute (isLocal_callBuiltin host b) hf hcall
  | _ => exact fails hcall

theorem realizes_ret :
    Realizes host ns fuel base [.ret] (do throw (.returned (← Eval.ofAction pop))) := by
  rintro m hm rfl hf
  refine Meets.pop hf ⟨_, rfl⟩ fun v vs hs => ⟨m.ip, ?_⟩
  have hself : m.onward { m.store with stack := v :: vs } m.ip = m := by
    rw [← hs]
    rfl
  exact ⟨hself ▸ .refl host m, hself ▸ hf⟩

theorem differ_eq : Eval.ofAction Eval.differ = (do
    Eval.ofAction (push (.boolean (← Eval.ofAction Eval.differ)))
    return (← Eval.ofAction pop).isTruthy) := by
  funext s
  obtain ⟨_ | ⟨b, _ | ⟨a, vs⟩⟩, frames, heap, written⟩ := s
  · rfl
  · rfl
  · have hd (d : Bool) : (.ok d ⟨vs, frames, heap, written⟩ : EStateM.Result Interrupt Store Bool) =
        .ok (Value.boolean d).isTruthy ⟨vs, frames, heap, written⟩ := by cases d <;> rfl
    exact hd _

theorem realizes_lowerTurns {x : String} {σ : Scoping} {initial bound : Node} {body : List Node}
    {i e b : Eval Unit} (hi : Realizes host ns fuel base (lower σ base initial) i)
    (he : ∀ base, Realizes host ns fuel base (lower (σ.after initial) base bound) e)
    (hb : ∀ base, Realizes host ns fuel base
      (lowerBlock ((σ.after initial).after bound) base body) b) :
    Realizes host ns fuel base (lowerTurns x σ base initial bound body) (do
      i
      Eval.repeatWhile fuel
        (do
          Eval.ofAction (Eval.fetch x)
          e
          Eval.ofAction Eval.differ)
        (do
          b
          Eval.ofAction (Eval.advance x))) := by
  have htest (base : Nat) : Realizes host ns fuel base
      (load x ++ lower (σ.after initial) (base + 3) bound ++ [.notEqual]) (do
        Eval.ofAction (Eval.fetch x)
        e
        Eval.ofAction (push (.boolean (← Eval.ofAction Eval.differ)))) := by
    rw [List.append_assoc]
    exact (realizes_load x).append ((he _).append realizes_notEqual)
  have hdiffer : (do
        Eval.ofAction (Eval.fetch x)
        e
        Eval.ofAction Eval.differ) = (do
      (do
        Eval.ofAction (Eval.fetch x)
        e
        Eval.ofAction (push (.boolean (← Eval.ofAction Eval.differ))))
      return (← Eval.ofAction pop).isTruthy) := by
    conv => lhs; rw [differ_eq]
    simp only [bind_assoc]
  rw [hdiffer, lowerTurns, List.append_assoc, List.append_assoc, List.append_assoc]
  refine hi.append ((htest _).loop ((hb _).append (realizes_advance x)) ?_ ?_)
  · simp only [extent_append, Nat.add_assoc]
    rfl
  · simp only [extent_append, Nat.add_assoc]

mutual

theorem realizes_eval {invoke : Nat → Eval Unit} (h : Invokes host ns fuel invoke) (σ : Scoping)
    (base : Nat) : (n : Node) →
    Realizes host ns fuel base (lower σ base n) (eval host invoke fuel σ n)
  | .value l => by
    rw [lower, eval]
    exact realizes_literal l
  | .notEqual lhs rhs => by
    rw [lower, eval, List.append_assoc]
    exact (realizes_eval h σ base lhs).append
      ((realizes_eval h (σ.after lhs) _ rhs).append realizes_notEqual)
  | .call receiver f args => by
    rw [lower, eval, List.append_assoc]
    exact (realizes_evalArguments h σ base args).append
      ((realizes_callee receiver f).append (realizes_apply h _))
  | .index b key => by
    rw [lower, eval, List.append_assoc]
    exact (realizes_load b).append ((realizes_eval h σ _ key).append realizes_readIndex)
  | .assign isLocal target v => by
    cases target with
    | value l =>
      cases l with
      | «variable» x =>
        rw [lower, eval, List.append_assoc]
        have hname : Realizes host ns fuel base [.pushId x] (Eval.ofAction (push (.string x))) :=
          realizes_straight rfl fun _ _ => rfl
        exact hname.append ((realizes_eval h _ _ v).append (realizes_writeName _))
      | _ => exact .nil
    | index b key =>
      rw [lower, eval, List.append_assoc, List.append_assoc]
      exact (realizes_load b).append ((realizes_eval h σ _ key).append
        ((realizes_eval h _ _ v).append realizes_writeIndex))
    | _ => exact .nil
  | .ifThen condition body => by
    rw [lower, eval]
    exact (realizes_eval h σ base condition).ifThen (realizes_evalBlock h _ _ body) rfl
  | .forLoop initial bound body => by
    cases hx : Compiler.loopVariable? initial with
    | none =>
      rw [lower, eval]
      simp only [hx]
      exact .nil
    | some x =>
      rw [lower_forLoop hx, eval, List.append_assoc]
      simp only [hx]
      have hturns := @realizes_lowerTurns host ns fuel (base + 1) x (σ.enter []) initial bound body
        _ _ _ (realizes_eval h _ _ initial) (fun _ => realizes_eval h _ _ bound)
        fun _ => realizes_evalBlock h _ _ body
      have hclosed := hturns.append realizes_closeFrame
      rw [bind_assoc] at hclosed
      exact realizes_openFrame.append hclosed
  | .function f params body => by
    rw [lower, eval]
    exact realizes_bindName (σ.isDeclared f) f σ.next
  | .ret v => by
    rw [lower, eval]
    exact (realizes_eval h σ base v).append realizes_ret

theorem realizes_evalArguments {invoke : Nat → Eval Unit} (h : Invokes host ns fuel invoke)
    (σ : Scoping) (base : Nat) : (args : List Node) →
    Realizes host ns fuel base (lowerArguments σ base args)
      (evalArguments host invoke fuel σ args)
  | [] => by
    rw [lowerArguments, evalArguments]
    exact .nil
  | n :: args => by
    rw [lowerArguments, evalArguments]
    exact (realizes_eval h σ base n).append (realizes_evalArguments h _ _ args)

theorem realizes_evalBlock {invoke : Nat → Eval Unit} (h : Invokes host ns fuel invoke)
    (σ : Scoping) (base : Nat) : (body : List Node) →
    Realizes host ns fuel base (lowerBlock σ base body) (evalBlock host invoke fuel σ body)
  | [] => by
    rw [lowerBlock, evalBlock]
    exact .nil
  | n :: body => by
    rw [lowerBlock, evalBlock, List.append_assoc, extent_append, ← Nat.add_assoc]
    refine (realizes_eval h σ base n).append ?_
    cases n.isExpression with
    | true => exact realizes_pop.append (realizes_evalBlock h _ _ body)
    | false => exact realizes_evalBlock h _ _ body

end

end Node

namespace Routine

open Machine

variable {host : Host} {ns : List Node} {fuel base : Nat}

theorem realizes_parameter (x : String) :
    Realizes host ns fuel base [.pushId x, .swap, .setEnv]
      (Eval.ofAction (do Eval.bindLocal x (← pop))) := by
  refine realizes_straight rfl fun s hs => ?_
  obtain ⟨_ | ⟨v, vs⟩, _ | ⟨g, gs⟩, heap, written⟩ := s
  · rfl
  · rfl
  · exact absurd rfl hs
  · rfl

theorem realizes_parameters (params : List String) :
    Realizes host ns fuel base (params.flatMap fun p => [.pushId p, .swap, .setEnv])
      (Eval.ofAction (Eval.bindParameters params)) := by
  induction params generalizing base with
  | nil => exact .nil
  | cons p params ih =>
    have hlocal : IsLocal (do Eval.bindLocal p (← pop)) :=
      isLocal_pop.bind fun _ => isLocal_modify fun _ => rfl
    have heq : Eval.ofAction (Eval.bindParameters (p :: params)) = (do
        Eval.ofAction (do Eval.bindLocal p (← pop))
        Eval.ofAction (Eval.bindParameters params)) := by
      rw [← Eval.ofAction_bind hlocal, bind_assoc]
      rfl
    rw [heq]
    exact (realizes_parameter p).append ih

theorem realizes_prologue (params : List String) :
    Realizes host ns fuel base (prologue params)
      (Eval.ofAction (Eval.bindParameters params.reverse)) := by
  have hnoOp : Realizes host ns fuel base [.noOp] (pure ()) := realizes_straight rfl fun _ _ => rfl
  have h := hnoOp.append (realizes_parameters params.reverse)
  rwa [pure_bind] at h

def back (depth : Nat) (v : Value) (s : Store) : Store :=
  { s with stack := v :: s.stack, frames := s.frames.drop (s.frames.length - depth) }

theorem eval_eq (invoke : Nat → Eval Unit) (r : Routine) (s : Store) :
    r.eval host invoke fuel s =
      match r.evalBody host invoke fuel { s with frames := [] :: s.frames } with
      | .ok _ s' => .ok () (back s.frames.length .nil s')
      | .error (.returned v) s' => .ok () (back s.frames.length v s')
      | .error i s' => .error i s' := by
  have hopen : r.eval host invoke fuel s = (do
      let v ← Eval.result (r.evalBody host invoke fuel)
      modify fun s' => { s' with frames := s'.frames.drop (s'.frames.length - s.frames.length) }
      Eval.ofAction (push v) : Eval Unit) { s with frames := [] :: s.frames } := rfl
  rw [hopen]
  simp only [Bind.bind, EStateM.bind, Eval.result]
  cases r.evalBody host invoke fuel { s with frames := [] :: s.frames } with
  | ok _ s' => rfl
  | error i s' => cases i <;> rfl

theorem realizes_evalBody {invoke : Nat → Eval Unit} (h : Node.Invokes host ns fuel invoke)
    (r : Routine) :
    Realizes host ns fuel 0
      (prologue r.params ++ Node.lowerBlock r.scoping (extent (prologue r.params)) r.body)
      (r.evalBody host invoke fuel) := by
  refine (realizes_prologue r.params).append ?_
  rw [Nat.zero_add]
  exact Node.realizes_evalBlock h _ _ r.body

theorem leads_ret {m : Machine} {v : Value} {vs : List Value} {a : Activation}
    {calls : List Activation} (hf : m.Faces (Script.streams ns) [.ret]) (hs : m.stack = v :: vs)
    (hc : m.calls = a :: calls) : Leads host m ({ m with stack := vs }.returned a calls v) :=
  .step ((@Transition.ret host m v vs a calls hs hc).step hf)

theorem leads_epilogue {m : Machine} {body : List Node} {pre : List Instruction}
    {a : Activation} {calls : List Activation} (hp : m.program = assemble (Script.streams ns))
    (hs : (Script.streams ns)[m.code]? = some (pre ++ epilogue body)) (hip : m.ip = extent pre)
    (hc : m.calls = a :: calls) : Leads host m (m.returned a calls .nil) := by
  rw [epilogue] at hs
  split at hs
  · have hend : m.AtEnd (Script.streams ns) := ⟨hp, _, hs, by rw [hip, List.append_nil]⟩
    refine .step ?_
    rw [step_of_atEnd hend, hc]
  · have hface : m.Faces (Script.streams ns) [.pushNil, .ret] :=
      ⟨hp, _, hs, pre, [], by simp, hip⟩
    have hnil := (@Transition.literal host m .pushNil .nil rfl).step hface
    exact (Leads.step hnil).trans (leads_ret (hface.tail rfl rfl rfl) rfl hc)

theorem meets_eval {invoke : Nat → Eval Unit} (h : Node.Invokes host ns fuel invoke) {r : Routine}
    {m : Machine} {args id : Nat} {vs : List Value} (hm : Valid ns m)
    (hf : m.Faces (Script.streams ns) [.call args])
    (hs : m.stack = .function (.compiled id) :: vs) (hid : id < m.program.code.size)
    (hr : (Script.streams ns)[id]? = some r.lower) :
    Meets host ns (fuel + 1) m (m.ip + 1)
      (r.eval host invoke fuel { m.store with stack := vs }) := by
  have hcall := (@Transition.call host m args id vs hs hid).step hf
  have hl := Leads.step hcall
  have hbody := realizes_evalBody h r _ (hl.valid hm) rfl
    ⟨hm.program, _, hr, [], epilogue r.body, rfl, rfl⟩
  have heval := @eval_eq host fuel invoke r { m.store with stack := vs }
  simp only [store] at hbody heval ⊢
  rw [heval]
  cases hx : r.evalBody host invoke fuel ⟨vs, [] :: m.frames, m.heap, m.written⟩ with
  | ok _ s' =>
    rw [hx] at hbody
    have hv := hl.trans hbody
    exact hv.trans (leads_epilogue (hv.valid hm).program hr (Nat.zero_add _) rfl)
  | error i s' =>
    rw [hx] at hbody
    cases i with
    | returned v =>
      obtain ⟨a, hv, hface⟩ := hbody
      exact (hl.trans hv).trans (leads_ret hface rfl rfl)
    | failed f =>
      obtain ⟨m₁, m₂, hfail, hstep⟩ := hbody
      exact ⟨m₁, m₂, hl.trans hfail, hstep⟩
    | exhausted =>
      -- The step into the function pays for the unit of fuel that a call takes.
      obtain ⟨n, hn, hrun, hw⟩ := hbody
      rw [← after_one hcall] at hrun hw
      refine ⟨1 + n, by omega, (runs_one hcall).add hrun, ?_⟩
      rw [after_add]
      exact hw

end Routine

end Scriptlet
