import Scriptlet.Proofs.CodeSafety
import Scriptlet.Proofs.Operands
import Scriptlet.Proofs.Spans

/-! The operands of a running script.  As long as calls pass enough arguments, the stack has
at least the operands that the active stream and those that wait have pushed; if they pass
just as many as are taken, it has those and no others. -/

namespace Scriptlet

open Code

namespace Machine

variable {host : Host} {ns : List Node} {hns : ∀ n ∈ ns, n.Statement} {m m' : Machine}
  {R : Nat → Nat → Prop} {Q : List (Option String) → List Value → Prop}
  {t s : List (Option String)} {ts ss : List (List (Option String))}

/-- The operands below those of the active stream.  The result that a stream waits for is an
operand of its layer, but not yet on the stack. -/
def pending (ts : List (List (Option String))) : List (Option String) := ts.flatMap List.tail

@[simp] theorem pending_cons (t : List (Option String)) (ts : List (List (Option String))) :
    pending (t :: ts) = t.tail ++ pending ts := rfl

/-- The stack is in the relation `Q` to the operands that the streams have pushed. -/
structure Agrees (hns : ∀ n ∈ ns, n.Statement) (Q : List (Option String) → List Value → Prop)
    (m : Machine) (t : List (Option String)) (ts : List (List (Option String))) : Prop where
  layered : (Script.operands ns hns).Layered m (t :: ts)
  waits : ∀ r ∈ ts, ∃ u, r = none :: u
  stack : Q (t ++ pending ts) m.stack

/-- The same of the streams above those whose layers are `ss`, as if there were no others. -/
structure AgreesOver (hns : ∀ n ∈ ns, n.Statement)
    (Q : List (Option String) → List Value → Prop) (ss : List (List (Option String)))
    (m : Machine) (t : List (Option String)) (ts : List (List (Option String))) : Prop where
  layered : (Script.operands ns hns).Layered m (t :: (ts ++ ss))
  waits : ∀ r ∈ ts, ∃ u, r = none :: u
  stack : Q (t ++ pending ts) m.stack

theorem agreesOver_nil_iff : AgreesOver hns Q [] m t ts ↔ Agrees hns Q m t ts := by
  constructor
  · rintro ⟨hl, hw, hs⟩
    rw [List.append_nil] at hl
    exact ⟨hl, hw, hs⟩
  · rintro ⟨hl, hw, hs⟩
    rw [← List.append_nil ts] at hl
    exact ⟨hl, hw, hs⟩

/-- Calls pass numbers of arguments that are in the relation `R` to what is taken. -/
def Passes (ns : List Node) (R : Nat → Nat → Prop) (m : Machine) : Prop :=
  ∀ args f vs, m.Faces (Script.streams ns) [.call args] → m.stack = .function f :: vs →
    R (Script.arity ns f) args

/-- A relation between operands and stacks that instructions keep, if calls pass arguments by
the relation `R`. -/
structure Keeps (R : Nat → Nat → Prop) (Q : List (Option String) → List Value → Prop) :
    Prop where
  length_le : ∀ {s vs}, Q s vs → s.length ≤ vs.length
  push : ∀ {s vs} v, Q s vs → Q (none :: s) (v :: vs)
  name : ∀ {s vs} x, Q s vs → Q (some x :: s) (.string x :: vs)
  pop : ∀ {a s v vs}, Q (a :: s) (v :: vs) → Q s vs
  swap : ∀ {a b s v w vs}, Q (a :: b :: s) (v :: w :: vs) → Q (b :: a :: s) (w :: v :: vs)
  arity_le : ∀ {arity args}, R arity args → arity ≤ args
  pass : ∀ {arity args s vs}, R arity args → args ≤ s.length → Q s vs →
    Q (List.replicate arity none ++ s.drop args) vs

structure Kept (R : Nat → Nat → Prop) (Q : List (Option String) → List Value → Prop) : Prop
    extends Keeps R Q where
  empty : Q [] []

namespace Keeps

variable {vs ws : List Value}

theorem answer (hQ : Keeps R Q) {k : Nat} (v : Value)
    (h : Q (List.replicate k none ++ s) (ws ++ vs)) (hk : ws.length = k) :
    Q (none :: s) (v :: vs) := by
  induction k generalizing ws with
  | zero =>
    cases List.length_eq_zero_iff.1 hk
    exact hQ.push v h
  | succ k ih =>
    cases ws with
    | nil => cases hk
    | cons w ws => exact ih (hQ.pop h) (Nat.succ.inj hk)

end Keeps

theorem kept_length : Kept (· ≤ ·) fun s vs => s.length ≤ vs.length where
  empty := Nat.le_refl _
  length_le h := h
  push _ h := Nat.succ_le_succ h
  name _ h := Nat.succ_le_succ h
  pop h := Nat.le_of_succ_le_succ h
  swap h := h
  arity_le h := h
  pass {arity args s vs} h hs hq := by
    rw [List.length_append, List.length_replicate, List.length_drop]
    omega

inductive Matches : List (Option String) → List Value → Prop
  | nil : Matches [] []
  | any {s : List (Option String)} {vs : List Value} (v : Value) : Matches s vs →
    Matches (none :: s) (v :: vs)
  | name {s : List (Option String)} {vs : List Value} (x : String) : Matches s vs →
    Matches (some x :: s) (.string x :: vs)

namespace Matches

variable {vs : List Value}

theorem length_eq (h : Matches s vs) : s.length = vs.length := by
  induction h with
  | nil => rfl
  | any _ _ ih => simp [ih]
  | name _ _ ih => simp [ih]

theorem tail {a : Option String} {v : Value} (h : Matches (a :: s) (v :: vs)) : Matches s vs := by
  cases h with
  | any _ h => exact h
  | name _ h => exact h

theorem replicate_append {k : Nat} (h : Matches s vs) (hk : k ≤ s.length) :
    Matches (List.replicate k none ++ s.drop k) vs := by
  induction h generalizing k with
  | nil =>
    cases Nat.le_zero.1 hk
    exact .nil
  | any v h ih =>
    cases k with
    | zero => exact .any v h
    | succ k => exact .any v (ih (Nat.le_of_succ_le_succ hk))
  | name x h ih =>
    cases k with
    | zero => exact .name x h
    | succ k => exact .any _ (ih (Nat.le_of_succ_le_succ hk))

end Matches

theorem kept_matches : Kept (· = ·) Matches where
  empty := .nil
  length_le h := Nat.le_of_eq h.length_eq
  push v h := .any v h
  name x h := .name x h
  pop h := h.tail
  swap h := by
    cases h with
    | any _ h =>
      cases h with
      | any _ h => exact .any _ (.any _ h)
      | name x h => exact .name x (.any _ h)
    | name x h =>
      cases h with
      | any _ h => exact .any _ (.name x h)
      | name y h => exact .name y (.name x h)
  arity_le h := Nat.le_of_eq h
  pass h hs hq := by
    subst h
    exact hq.replicate_append hs

theorem Keeps.within (hQ : Keeps R Q) {i : Instruction} {r t' : List (Option String)}
    (ht : Transition host m i m') (hcall : ∀ args, i ≠ .call args) (hret : i ≠ .ret)
    (he : operandEffect t i = some t') (h : Q (t ++ r) m.stack) : Q (t' ++ r) m'.stack := by
  cases ht with
  | @literal i v hv =>
    cases i with
    | pushId x =>
      cases hv
      cases he
      exact hQ.name x h
    | pushFalse | pushTrue | pushNil | pushNumber | pushString | pushFunction =>
      cases hv
      cases he
      exact hQ.push _ h
    | _ => cases hv
  | newTable =>
    cases he
    exact hQ.push _ h
  | notEqual hs | getTable hs =>
    match t, he with
    | _ :: _ :: _, he =>
      cases he
      rw [hs] at h
      exact hQ.push _ (hQ.pop (hQ.pop h))
  | increment hs _ =>
    match t, he with
    | _ :: _, he =>
      cases he
      rw [hs] at h
      exact hQ.push _ (hQ.pop h)
  | swap hs =>
    match t, he with
    | _ :: _ :: _, he =>
      cases he
      rw [hs] at h
      exact hQ.swap h
  | pop hs | jumpIfFalse hs =>
    match t, he with
    | _ :: _, he =>
      cases he
      rw [hs] at h
      exact hQ.pop h
  | getEnv hs =>
    match t, he with
    | some _ :: _, he =>
      cases he
      rw [hs] at h
      exact hQ.push _ (hQ.pop h)
  | setEnv hs _ | setEnvGlobal hs _ =>
    match t, he with
    | _ :: some _ :: _, he =>
      cases he
      rw [hs] at h
      exact hQ.pop (hQ.pop h)
  | setTable hs =>
    match t, he with
    | _ :: _ :: _ :: _, he =>
      cases he
      rw [hs] at h
      exact hQ.pop (hQ.pop (hQ.pop h))
  | enterScope | leaveScope | jump | noOp =>
    cases he
    exact h
  | call | builtin => exact absurd rfl (hcall _)
  | ret => exact absurd rfl hret

theorem exists_of_call {args : Nat} {t' : List (Option String)}
    (he : operandEffect t (.call args) = some t') :
    ∃ a r, t = a :: r ∧ args ≤ r.length ∧ t' = none :: r.drop args := by
  cases t with
  | nil => cases he
  | cons a r =>
    simp only [operandEffect] at he
    split at he
    · next hle => exact ⟨a, r, rfl, hle, (Option.some.inj he).symm⟩
    · cases he

theorem exists_of_ret {t' : List (Option String)} (he : operandEffect t .ret = some t') :
    ∃ a, t = [a] := by
  match t, he with
  | [a], _ => exact ⟨a, rfl⟩

theorem eq_nil_of_atEnd (h : (Script.operands ns hns).Layered m (t :: ts))
    (hend : m.AtEnd (Script.streams ns)) : t = [] := by
  obtain ⟨-, is, hs, hip⟩ := hend
  obtain ⟨t', rest, heq, hat⟩ := h.layers.active
  cases heq
  rw [hip, ← Nat.zero_add (extent is)] at hat
  exact hat.unique ⟨is, hs, .stop (Script.operandFlows hns hs).scan⟩

namespace AgreesOver

theorem back (hQ : Keeps R Q) {a : Activation} {calls : List Activation} {v : Value}
    (h : AgreesOver hns Q ss m t ts) (hc : m.calls = a :: calls) (hp : m'.program = m.program)
    (hcalls : m'.calls = calls) (hcode : m'.code = a.code) (hip : m'.ip = a.ip)
    (hs : ∃ vs, m'.stack = v :: vs ∧ Q (pending ts) vs) (hss : ss.length ≤ m'.calls.length) :
    ∃ t' ts', AgreesOver hns Q ss m' t' ts' := by
  have hl := h.layered.back hc hp hcalls hcode hip
  cases ts with
  | nil =>
    -- The layers below are all that there are, and one of them returns.
    have hlen := hl.layers.length_eq
    rw [List.nil_append] at hlen
    omega
  | cons r ts =>
    obtain ⟨hw, hws⟩ := List.forall_mem_cons.1 h.waits
    obtain ⟨u, rfl⟩ := hw
    obtain ⟨vs, hm, hvs⟩ := hs
    refine ⟨_, _, hl, hws, ?_⟩
    rw [hm]
    exact hQ.push v hvs

theorem into (hQ : Keeps R Q) {args id depth : Nat} {js : List Instruction} {vs : List Value}
    (h : AgreesOver hns Q ss m t ts) (hpass : Passes ns R m)
    (hf : m.Faces (Script.streams ns) (.call args :: js))
    (hs : m.stack = .function (.compiled id) :: vs) (hid : id < m.program.code.size)
    (hp : m'.program = m.program) (hcalls : m'.calls = ⟨m.ip + 1, m.code, depth⟩ :: m.calls)
    (hcode : m'.code = id) (hip : m'.ip = 0) (hstack : m'.stack = vs) :
    ∃ t' ts', AgreesOver hns Q ss m' t' ts' := by
  obtain ⟨t', he, hl⟩ := h.layered.into hf hid hp hcalls hcode hip
  obtain ⟨a, r, rfl, hle, rfl⟩ := exists_of_call he
  refine ⟨_, (none :: r.drop args) :: ts, hl, List.forall_mem_cons.2 ⟨⟨_, rfl⟩, h.waits⟩, ?_⟩
  have hR := hpass args _ vs hf.head hs
  have hq := h.stack
  rw [hs] at hq
  have hle' : args ≤ (r ++ pending ts).length := by
    rw [List.length_append]
    exact Nat.le_add_right_of_le hle
  have hnew := hQ.pass hR hle' (hQ.pop hq)
  rw [List.drop_append_of_le_length hle] at hnew
  rw [hstack]
  exact hnew

theorem builtin (hQ : Keeps R Q) {args : Nat} {js : List Instruction} {b : Builtin}
    {vs ws : List Value} {v : Value} (h : AgreesOver hns Q ss m t ts) (hpass : Passes ns R m)
    (hf : m.Faces (Script.streams ns) (.call args :: js))
    (hs : m.stack = .function (.builtin b) :: vs)
    (hargs : ∃ as, as.length = b.arity ∧ vs = as ++ ws) (hp : m'.program = m.program)
    (hcode : m'.code = m.code) (hcalls : m'.calls = m.calls) (hip : m'.ip = m.ip + 1)
    (hstack : m'.stack = v :: ws) : ∃ t' ts', AgreesOver hns Q ss m' t' ts' := by
  obtain ⟨t', he, hl⟩ := h.layered.within hf hp hcode hcalls (.inl hip)
  obtain ⟨a, r, rfl, hle, rfl⟩ := exists_of_call he
  obtain ⟨as, has, rfl⟩ := hargs
  refine ⟨_, _, hl, h.waits, ?_⟩
  have hR := hpass args _ _ hf.head hs
  have hq := h.stack
  rw [hs] at hq
  have hle' : args ≤ (r ++ pending ts).length := by
    rw [List.length_append]
    exact Nat.le_add_right_of_le hle
  have hnew := hQ.pass hR hle' (hQ.pop hq)
  rw [List.drop_append_of_le_length hle] at hnew
  rw [hstack]
  exact hQ.answer v hnew has

theorem transition (hQ : Keeps R Q) {i : Instruction} {js : List Instruction}
    (h : AgreesOver hns Q ss m t ts) (hpass : Passes ns R m)
    (hf : m.Faces (Script.streams ns) (i :: js)) (ht : Transition host m i m')
    (hss : ss.length ≤ m'.calls.length) : ∃ t' ts', AgreesOver hns Q ss m' t' ts' := by
  have within (hcall : ∀ args, i ≠ .call args) (hret : i ≠ .ret) :
      ∃ t' ts', AgreesOver hns Q ss m' t' ts' := by
    cases ht.shifts.2 with
    | within hcode hcalls hip =>
      obtain ⟨t', he, hl⟩ := h.layered.within hf ht.shifts.1 hcode hcalls hip
      exact ⟨t', ts, hl, h.waits, hQ.within ht hcall hret he h.stack⟩
    | into => exact absurd rfl (hcall _)
    | back => exact absurd rfl hret
  cases ht with
  | call hs hid => exact into hQ h hpass hf hs hid rfl rfl rfl rfl rfl
  | @builtin args b vs m₁ hs hb =>
    obtain ⟨ws, v, hm⟩ := answered_of_callBuiltin hb
    obtain ⟨as, has, hvs⟩ := hm.args
    rw [hm.machine]
    exact builtin hQ h hpass hf hs ⟨as, has, hvs⟩ rfl rfl rfl rfl rfl
  | @ret v vs a calls hs hc =>
    obtain ⟨t', he, -⟩ := h.layered.read hf
    obtain ⟨x, rfl⟩ := exists_of_ret he
    have hq := h.stack
    rw [hs] at hq
    exact back hQ h hc rfl rfl rfl rfl ⟨vs, rfl, hQ.pop hq⟩ hss
  | literal hv =>
    refine within ?_ ?_
    · rintro args rfl
      cases hv
    · rintro rfl
      cases hv
  | _ => exact within (fun _ => nofun) nofun

theorem step (hQ : Keeps R Q) (h : AgreesOver hns Q ss m t ts) (hpass : Passes ns R m)
    (hstep : Machine.step host m = .ok true m') (hss : ss.length ≤ m'.calls.length) :
    ∃ t' ts', AgreesOver hns Q ss m' t' ts' := by
  obtain ⟨i, js, hf, ht⟩ | ⟨hend, a, calls, hc, rfl⟩ := cases_of_step h.layered.placed hstep
  · exact h.transition hQ hpass hf ht hss
  · have hq := h.stack
    rw [eq_nil_of_atEnd h.layered hend] at hq
    exact back hQ h hc rfl rfl rfl rfl ⟨m.stack, rfl, hq⟩ hss

end AgreesOver

namespace Agrees

theorem start (hQ : Kept R Q) :
    Agrees hns Q (ofProgram (assemble (Script.streams ns))) [] [] where
  layered := .start _ (Script.streams_ne_nil ns)
  waits := by simp
  stack := hQ.empty

theorem step (hQ : Keeps R Q) (h : Agrees hns Q m t ts) (hpass : Passes ns R m)
    (hstep : Machine.step host m = .ok true m') : ∃ t' ts', Agrees hns Q m' t' ts' := by
  obtain ⟨t', ts', h'⟩ :=
    (agreesOver_nil_iff.2 h).step hQ hpass hstep (Nat.zero_le _)
  exact ⟨t', ts', agreesOver_nil_iff.1 h'⟩

end Agrees

theorem agrees_after (hQ : Kept R Q) (hns : ∀ n ∈ ns, n.Statement) {n : Nat}
    (hrun : Runs host (ofProgram (assemble (Script.streams ns))) n)
    (hpass : ∀ k, k < n → Passes ns R ((ofProgram (assemble (Script.streams ns))).after host k)) :
    ∃ t ts, Agrees hns Q ((ofProgram (assemble (Script.streams ns))).after host n) t ts := by
  induction n with
  | zero => exact ⟨_, _, .start hQ⟩
  | succ n ih =>
    obtain ⟨t, ts, h⟩ := ih (fun k hk => hrun k (Nat.lt_succ_of_lt hk))
      fun k hk => hpass k (Nat.lt_succ_of_lt hk)
    obtain ⟨m', hstep⟩ := hrun n (Nat.lt_succ_self n)
    rw [after_succ, successor, hstep]
    exact h.step hQ.toKeeps (hpass n (Nat.lt_succ_self n)) hstep

end Machine

end Scriptlet
