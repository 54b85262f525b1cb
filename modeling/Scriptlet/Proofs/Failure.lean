import Scriptlet.Proofs.Layers

/-! The ways in which an instruction fails.  `Fails` tells for each fault what the machine
was like when an instruction raised it. -/

namespace Scriptlet

theorem cases_of_bind_eq_error {ε σ α β : Type} {x : EStateM ε σ α} {f : α → EStateM ε σ β}
    {s s'' : σ} {e : ε} (h : (x >>= f) s = .error e s'') :
    x s = .error e s'' ∨ ∃ a s', x s = .ok a s' ∧ f a s' = .error e s'' := by
  simp only [bind, EStateM.bind] at h
  cases hx : x s with
  | ok a s' =>
    rw [hx] at h
    exact .inr ⟨a, s', rfl, h⟩
  | error e' s' =>
    rw [hx] at h
    cases h
    exact .inl rfl

def Instruction.operands : Instruction → Nat
  | increment | pop | getEnv | jumpIfFalse _ | call _ | ret => 1
  | notEqual | swap | setEnv | setEnvGlobal | getTable => 2
  | setTable => 3
  | _ => 0

def Fault.isOfBuiltin : Fault → Bool
  | wrongKind _ _ | uncomparable _ _ | output _ => true
  | _ => false

namespace Machine

variable {host : Host} {m m' : Machine} {f : Fault}

inductive Fails (m : Machine) : Instruction → Fault → Prop
  | underflow {i : Instruction} : m.stack.length < i.operands → Fails m i .stackUnderflow
  | notNumber {v : Value} : Fails m .increment (.wrongKind .number v.kind)
  | overflow : Fails m .increment .overflow
  | notName {v : Value} {vs : List Value} : m.stack = v :: vs → v.kind ≠ .string →
    Fails m .getEnv (.wrongKind .string v.kind)
  | notTarget {i : Instruction} {v w : Value} {vs : List Value} :
    i = .setEnv ∨ i = .setEnvGlobal → m.stack = v :: w :: vs → w.kind ≠ .string →
    Fails m i (.wrongKind .string w.kind)
  | noFrame {i : Instruction} : m.frames = [] → Fails m i .scopeUnderflow
  | lastFrame : m.frames.length ≤ 1 → Fails m .leaveScope .scopeUnderflow
  | notIndexable {i : Instruction} {v : Value} : Fails m i (.notIndexable v.kind)
  | invalidKey {v : Value} : Fails m .setTable (.invalidKey v.kind)
  | missingCode {args id : Nat} {vs : List Value} : m.stack = .function (.compiled id) :: vs →
    m.program.code.size ≤ id → Fails m (.call args) (.missingCode id)
  | notCallable {args : Nat} {v : Value} : Fails m (.call args) (.notCallable v.kind)
  | tooFew {args : Nat} {b : Builtin} {vs : List Value} :
    m.stack = .function (.builtin b) :: vs → vs.length < b.arity →
    Fails m (.call args) .stackUnderflow
  | builtin {args : Nat} {f : Fault} : f.isOfBuiltin → Fails m (.call args) f

theorem underflow_of_pop (h : pop m = .error f m') : f = .stackUnderflow ∧ m.stack = [] := by
  cases hs : m.stack with
  | nil =>
    rw [pop_of_nil hs] at h
    cases h
    exact ⟨rfl, rfl⟩
  | cons v vs =>
    rw [pop_of_cons hs] at h
    cases h

theorem cases_of_popNumber (h : popNumber m = .error f m') :
    (f = .stackUnderflow ∧ m.stack = []) ∨
    ∃ v vs, f = .wrongKind .number v.kind ∧ m.stack = v :: vs ∧ v.kind ≠ .number := by
  obtain h | ⟨v, m₁, hp, h⟩ := cases_of_bind_eq_error h
  · exact .inl (underflow_of_pop h)
  · obtain ⟨vs, hs, rfl⟩ := stack_of_pop hp
    cases v with
    | number n => cases h
    | _ =>
      cases h
      exact .inr ⟨_, vs, rfl, hs, by simp [Value.kind]⟩

theorem cases_of_popString (h : popString m = .error f m') :
    (f = .stackUnderflow ∧ m.stack = []) ∨
    ∃ v vs, f = .wrongKind .string v.kind ∧ m.stack = v :: vs ∧ v.kind ≠ .string := by
  obtain h | ⟨v, m₁, hp, h⟩ := cases_of_bind_eq_error h
  · exact .inl (underflow_of_pop h)
  · obtain ⟨vs, hs, rfl⟩ := stack_of_pop hp
    cases v with
    | string s => cases h
    | _ =>
      cases h
      exact .inr ⟨_, vs, rfl, hs, by simp [Value.kind]⟩

theorem cases_of_popTable (h : popTable m = .error f m') :
    (f = .stackUnderflow ∧ m.stack = []) ∨ f.isOfBuiltin := by
  obtain h | ⟨v, m₁, hp, h⟩ := cases_of_bind_eq_error h
  · exact .inl (underflow_of_pop h)
  · cases v with
    | table id => cases h
    | _ =>
      cases h
      exact .inr rfl

theorem cases_of_popIndexable (h : popIndexable m = .error f m') :
    (f = .stackUnderflow ∧ m.stack = []) ∨ ∃ v : Value, f = .notIndexable v.kind := by
  obtain h | ⟨v, m₁, hp, h⟩ := cases_of_bind_eq_error h
  · exact .inl (underflow_of_pop h)
  · cases v with
    | table id => cases h
    | _ =>
      cases h
      exact .inr ⟨_, rfl⟩

theorem isOfBuiltin_of_write {chunk : ByteArray} (h : write host chunk m = .error f m') :
    f.isOfBuiltin := by
  rw [write, bind_of_ok (get_machine m)] at h
  cases hw : host.sink.write m.written chunk with
  | taken =>
    rw [hw] at h
    cases h
  | refused kept reason =>
    rw [hw] at h
    cases h
    rfl

theorem cases_of_callBuiltin {b : Builtin} (h : callBuiltin host b m = .error f m') :
    (f = .stackUnderflow ∧ m.stack.length < b.arity) ∨ f.isOfBuiltin := by
  cases b with
  | print =>
    obtain h | ⟨v, _, hv, h⟩ := cases_of_bind_eq_error h
    · obtain ⟨rfl, hs⟩ := underflow_of_pop h
      exact .inl ⟨rfl, by simp [hs, Builtin.arity]⟩
    · obtain h | ⟨_, _, _, h⟩ := cases_of_bind_eq_error h
      · exact .inr (isOfBuiltin_of_write h)
      · cases h
  | stringLen =>
    obtain h | ⟨s, _, _, h⟩ := cases_of_bind_eq_error h
    · obtain ⟨rfl, hs⟩ | ⟨v, vs, rfl, -⟩ := cases_of_popString h
      · exact .inl ⟨rfl, by simp [hs, Builtin.arity]⟩
      · exact .inr rfl
    · cases h
  | stringByte =>
    obtain h | ⟨i, _, hi, h⟩ := cases_of_bind_eq_error h
    · obtain ⟨rfl, hs⟩ | ⟨v, vs, rfl, -⟩ := cases_of_popNumber h
      · exact .inl ⟨rfl, by simp [hs, Builtin.arity]⟩
      · exact .inr rfl
    · obtain ⟨vs, hs, rfl⟩ := stack_of_popNumber hi
      obtain h | ⟨s, _, _, h⟩ := cases_of_bind_eq_error h
      · obtain ⟨rfl, hvs⟩ | ⟨v, vs, rfl, -⟩ := cases_of_popString h
        · have hvs : vs = [] := hvs
          exact .inl ⟨rfl, by simp [hs, hvs, Builtin.arity]⟩
        · exact .inr rfl
      · cases h
  | tableLen =>
    obtain h | ⟨id, _, _, h⟩ := cases_of_bind_eq_error h
    · obtain ⟨rfl, hs⟩ | h := cases_of_popTable h
      · exact .inl ⟨rfl, by simp [hs, Builtin.arity]⟩
      · exact .inr h
    · cases h
  | tableSort =>
    obtain h | ⟨id, m₁, _, h⟩ := cases_of_bind_eq_error h
    · obtain ⟨rfl, hs⟩ | h := cases_of_popTable h
      · exact .inl ⟨rfl, by simp [hs, Builtin.arity]⟩
      · exact .inr h
    · rw [bind_of_ok (get_machine _)] at h
      cases ht : (m₁.table id).sort with
      | ok _ t =>
        rw [ht] at h
        cases h
      | error kinds t =>
        rw [ht] at h
        cases h
        exact .inr rfl

theorem Fails.of_pop {i : Instruction} {k : Value → Action α}
    (h : (pop >>= k) m = .error f m') (hi : 0 < i.operands)
    (hk : ∀ v vs, m.stack = v :: vs → k v { m with stack := vs } = .error f m' → m.Fails i f) :
    m.Fails i f := by
  obtain h | ⟨v, _, hv, h⟩ := cases_of_bind_eq_error h
  · obtain ⟨rfl, hs⟩ := underflow_of_pop h
    exact .underflow (by simpa [hs] using hi)
  · obtain ⟨vs, hs, rfl⟩ := stack_of_pop hv
    exact hk v vs hs h

theorem Fails.of_execute {i : Instruction} (h : execute host i m = .error f m') :
    m.Fails i f := by
  cases i with
  | pushFalse | pushTrue | pushNil | pushNumber | pushString | pushId | pushFunction | newTable
  | enterScope | jump | noOp => cases h
  | notEqual | swap =>
    refine .of_pop h (by decide) fun v vs hs h => ?_
    obtain h | ⟨w, _, _, h⟩ := cases_of_bind_eq_error h
    · obtain ⟨rfl, hvs⟩ := underflow_of_pop h
      have hvs : vs = [] := hvs
      exact .underflow (by simp [hs, hvs, Instruction.operands])
    · cases h
  | increment =>
    obtain h | ⟨n, _, _, h⟩ := cases_of_bind_eq_error h
    · obtain ⟨rfl, hs⟩ | ⟨v, vs, rfl, -⟩ := cases_of_popNumber h
      · exact .underflow (by simp [hs, Instruction.operands])
      · exact .notNumber
    · split at h
      · cases h
        exact .overflow
      · cases h
  | pop =>
    obtain h | ⟨_, _, _, h⟩ := cases_of_bind_eq_error h
    · exact .of_pop h (by decide) fun v vs hs h => nomatch h
    · cases h
  | getEnv =>
    obtain h | ⟨n, _, _, h⟩ := cases_of_bind_eq_error h
    · obtain ⟨rfl, hs⟩ | ⟨v, vs, rfl, hs, hv⟩ := cases_of_popString h
      · exact .underflow (by simp [hs, Instruction.operands])
      · exact .notName hs hv
    · cases h
  | setEnv | setEnvGlobal =>
    refine .of_pop h (by decide) fun v vs hs h => ?_
    obtain h | ⟨x, _, hx, h⟩ := cases_of_bind_eq_error h
    · obtain ⟨rfl, hvs⟩ | ⟨w, ws, rfl, hvs, hw⟩ := cases_of_popString h
      · have hvs : vs = [] := hvs
        exact .underflow (by simp [hs, hvs, Instruction.operands])
      · have hvs : vs = w :: ws := hvs
        exact .notTarget (by simp) (hvs ▸ hs) hw
    · obtain ⟨ws, _, rfl⟩ := stack_of_popString hx
      rw [bind_of_ok (get_machine _)] at h
      cases hf : m.frames with
      | nil =>
        simp only [hf] at h
        cases h
        exact .noFrame hf
      | cons g gs =>
        simp only [hf] at h
        cases h
  | leaveScope =>
    obtain h | ⟨_, _, hg, h⟩ := cases_of_bind_eq_error h
    · cases h
    cases hg
    split at h
    · next hl =>
      cases h
      exact .lastFrame hl
    · cases h
  | getTable =>
    refine .of_pop h (by decide) fun v vs hs h => ?_
    obtain h | ⟨id, _, _, h⟩ := cases_of_bind_eq_error h
    · obtain ⟨rfl, hvs⟩ | ⟨w, rfl⟩ := cases_of_popIndexable h
      · have hvs : vs = [] := hvs
        exact .underflow (by simp [hs, hvs, Instruction.operands])
      · exact .notIndexable
    · cases h
  | setTable =>
    refine .of_pop h (by decide) fun v vs hs h => ?_
    obtain h | ⟨key, _, hk, h⟩ := cases_of_bind_eq_error h
    · obtain ⟨rfl, hvs⟩ := underflow_of_pop h
      have hvs : vs = [] := hvs
      exact .underflow (by simp [hs, hvs, Instruction.operands])
    · obtain ⟨ws, hvs, rfl⟩ := stack_of_pop hk
      have hvs : vs = key :: ws := hvs
      obtain h | ⟨id, _, _, h⟩ := cases_of_bind_eq_error h
      · obtain ⟨rfl, hws⟩ | ⟨w, rfl⟩ := cases_of_popIndexable h
        · have hws : ws = [] := hws
          exact .underflow (by simp [hs, hvs, hws, Instruction.operands])
        · exact .notIndexable
      · cases hkey : Key.ofValue? key with
        | none =>
          simp only [hkey] at h
          cases h
          exact .invalidKey
        | some k =>
          simp only [hkey] at h
          cases h
  | jumpIfFalse a =>
    refine .of_pop h Nat.one_pos fun v vs hs h => ?_
    split at h <;> cases h
  | call args =>
    refine .of_pop h Nat.one_pos fun v vs hs h => ?_
    split at h
    · next id =>
      rw [bind_of_ok (get_machine _)] at h
      split at h
      · cases h
      · next hid =>
        cases h
        exact .missingCode hs (Nat.le_of_not_lt hid)
    · next b =>
      obtain h | ⟨_, _, _, h⟩ := cases_of_bind_eq_error h
      · obtain ⟨rfl, hvs⟩ | h := cases_of_callBuiltin h
        · exact .tooFew hs hvs
        · exact .builtin h
      · cases h
    · cases h
      exact .notCallable
  | ret =>
    refine .of_pop h (by decide) fun v vs hs h => ?_
    rw [bind_of_ok (get_machine _)] at h
    cases hc : m.calls with
    | nil =>
      simp only [hc] at h
      cases h
    | cons a calls =>
      simp only [hc] at h
      cases h

theorem fails_of_step {streams : List (List Instruction)} (hm : m.Placed streams)
    (h : step host m = .error f m') : ∃ i js, m.Faces streams (i :: js) ∧ m.Fails i f := by
  obtain ⟨i, js, hf⟩ | hend := hm
  · refine ⟨i, js, hf, ?_⟩
    rw [step_of_faces hf] at h
    cases hx : execute host i m with
    | error g m₁ =>
      rw [hx] at h
      cases h
      exact .of_execute hx
    | ok flow m₁ =>
      rw [hx] at h
      cases flow <;> cases h
  · rw [step_of_atEnd hend] at h
    split at h <;> cases h

end Machine

end Scriptlet
