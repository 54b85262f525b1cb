import Scriptlet.Proofs.Instruction

/-! What a step of the machine can do.  A machine `Faces` the instructions that stand from
its address on.  Its step performs the first of them: if the step goes on, it makes a
`Transition`, and otherwise it has only taken operands and written some output.  `after` lets
the machine step on and on, past halts and faults too. -/

namespace Scriptlet

namespace Machine

open Code

/-- The machine runs `streams` and has the instructions `js` before it. -/
structure Faces (streams : List (List Instruction)) (m : Machine) (js : List Instruction) :
    Prop where
  program : m.program = assemble streams
  stream : ∃ is, streams[m.code]? = some is ∧ Stands is m.ip js

theorem Faces.head {streams : List (List Instruction)} {m : Machine} {i : Instruction}
    {js : List Instruction} (h : m.Faces streams (i :: js)) : m.Faces streams [i] := by
  obtain ⟨hp, is, hs, hi⟩ := h
  exact ⟨hp, is, hs, hi.head⟩

def execute (host : Host) (i : Instruction) : Action Flow := perform host i.opcode i.operand?

def proceed (i : Instruction) :
    EStateM.Result Fault Machine Flow → EStateM.Result Fault Machine Bool
  | .ok .next m => .ok true { m with ip := m.ip + i.width }
  | .ok .moved m => .ok true m
  | .ok .halt m => .ok false m
  | .error f m => .error f m

theorem perform_operand (host : Host) (i : Instruction) (o : Option Slot)
    (h : i.operand? ≠ none → o = i.operand?) : perform host i.opcode o = execute host i := by
  cases hi : i.operand? with
  | none => cases i <;> first | rfl | cases hi
  | some slot =>
    rw [h (by simp [hi])]
    rfl

theorem step_of_faces {streams : List (List Instruction)} {m : Machine} {i : Instruction}
    {js : List Instruction} (h : m.Faces streams (i :: js)) (host : Host) :
    step host m = proceed i (execute host i m) := by
  obtain ⟨hp, is, hs, hi⟩ := h
  have hcode : m.program.code[m.code]? = some (slots is).toArray := by
    rw [hp]
    exact code_assemble hs
  have hop : (slots is).toArray[m.ip]? = some (.ofOpcode i.opcode) := by
    simpa using hi.slots_opcode
  have hperform : perform host i.opcode (slots is).toArray[m.ip + 1]? = execute host i := by
    apply perform_operand
    intro ho
    obtain ⟨slot, ho⟩ := Option.ne_none_iff_exists'.1 ho
    simpa [ho] using hi.slots_operand ho
  have hget : (get : Action Machine) m = .ok m m := rfl
  rw [step, bind_of_ok hget]
  simp only [hcode, hop, Slot.ofOpcode, Slot.opcode?, Opcode.ofTag?_tag, hperform]
  simp only [bind, EStateM.bind]
  cases execute host i m with
  | error f m' => rfl
  | ok flow m' => cases flow <;> rfl

def op? (m : Machine) : Option Opcode := do
  let slots ← m.program.code[m.code]?
  let slot ← slots[m.ip]?
  slot.opcode?

theorem Faces.op? {streams : List (List Instruction)} {m : Machine} {i : Instruction}
    {js : List Instruction} (h : m.Faces streams (i :: js)) : m.op? = some i.opcode := by
  obtain ⟨hp, is, hs, hi⟩ := h
  have hslot : (slots is).toArray[m.ip]? = some (.ofOpcode i.opcode) := by
    simpa using hi.slots_opcode
  have hop : (Slot.ofOpcode i.opcode).opcode? = some i.opcode := Opcode.ofTag?_tag i.opcode
  simp [Machine.op?, hp, code_assemble hs, hslot, hop]

def literal? : Instruction → Option Value
  | .pushFalse => some (.boolean false)
  | .pushTrue => some (.boolean true)
  | .pushNil => some .nil
  | .pushNumber n => some (.number n)
  | .pushString s | .pushId s => some (.string s)
  | .pushFunction id => some (.function (.compiled id))
  | _ => none

def read (m : Machine) (id : Nat) (key : Value) : Value :=
  match Key.ofValue? key with
  | some k => (m.table id).get k
  | none => .nil

def returned (m : Machine) (a : Activation) (calls : List Activation) (v : Value) : Machine :=
  { m with
    stack := v :: m.stack
    frames := m.frames.drop (m.frames.length - a.depth)
    calls := calls
    code := a.code
    ip := a.ip }

/-- What the instruction makes of a machine when the program goes on. -/
inductive Transition (host : Host) (m : Machine) : Instruction → Machine → Prop
  | literal {i : Instruction} {v : Value} : literal? i = some v →
    Transition host m i { m with stack := v :: m.stack, ip := m.ip + i.width }
  | newTable : Transition host m .newTable
    { m with stack := .table m.heap.size :: m.stack, heap := m.heap.push .empty, ip := m.ip + 1 }
  | notEqual {a b : Value} {vs : List Value} : m.stack = b :: a :: vs →
    Transition host m .notEqual
      { m with stack := (.boolean !(a.equal b)) :: vs, ip := m.ip + 1 }
  | increment {n : Int64} {vs : List Value} : m.stack = .number n :: vs → n ≠ Int64.maxValue →
    Transition host m .increment { m with stack := .number (n + 1) :: vs, ip := m.ip + 1 }
  | swap {a b : Value} {vs : List Value} : m.stack = b :: a :: vs →
    Transition host m .swap { m with stack := a :: b :: vs, ip := m.ip + 1 }
  | pop {v : Value} {vs : List Value} : m.stack = v :: vs →
    Transition host m .pop { m with stack := vs, ip := m.ip + 1 }
  | getEnv {x : String} {vs : List Value} : m.stack = .string x :: vs →
    Transition host m .getEnv { m with stack := m.lookup x :: vs, ip := m.ip + 1 }
  | setEnv {v : Value} {x : String} {vs : List Value} {f : Frame} {fs : List Frame} :
    m.stack = v :: .string x :: vs → m.frames = f :: fs →
    Transition host m .setEnv { m with stack := vs, frames := f.bind x v :: fs, ip := m.ip + 1 }
  | setEnvGlobal {v : Value} {x : String} {vs : List Value} :
    m.stack = v :: .string x :: vs → m.frames ≠ [] →
    Transition host m .setEnvGlobal { m.bindGlobal x v with stack := vs, ip := m.ip + 1 }
  | enterScope :
    Transition host m .enterScope { m with frames := [] :: m.frames, ip := m.ip + 1 }
  | leaveScope : 1 < m.frames.length →
    Transition host m .leaveScope { m with frames := m.frames.tail, ip := m.ip + 1 }
  | getTable {key : Value} {id : Nat} {vs : List Value} : m.stack = key :: .table id :: vs →
    Transition host m .getTable { m with stack := m.read id key :: vs, ip := m.ip + 1 }
  | setTable {v : Value} {k : Key} {id : Nat} {vs : List Value} :
    m.stack = v :: k.toValue :: .table id :: vs →
    Transition host m .setTable
      { m with
        stack := vs, heap := m.heap.setIfInBounds id ((m.table id).set k v), ip := m.ip + 1 }
  | jump {a : Nat} : Transition host m (.jump a) { m with ip := a }
  | jumpIfFalse {a : Nat} {v : Value} {vs : List Value} : m.stack = v :: vs →
    Transition host m (.jumpIfFalse a)
      { m with stack := vs, ip := if v.isTruthy then m.ip + 2 else a }
  | call {args id : Nat} {vs : List Value} : m.stack = .function (.compiled id) :: vs →
    id < m.program.code.size →
    Transition host m (.call args)
      { m with
        stack := vs
        calls := ⟨m.ip + 1, m.code, m.frames.length⟩ :: m.calls
        frames := [] :: m.frames
        code := id
        ip := 0 }
  | builtin {args : Nat} {b : Builtin} {vs : List Value} {m' : Machine} :
    m.stack = .function (.builtin b) :: vs →
    callBuiltin host b { m with stack := vs } = .ok () m' →
    Transition host m (.call args) { m' with ip := m'.ip + 1 }
  | ret {v : Value} {vs : List Value} {a : Activation} {calls : List Activation} :
    m.stack = v :: vs → m.calls = a :: calls →
    Transition host m .ret ({ m with stack := vs }.returned a calls v)
  | noOp : Transition host m .noOp { m with ip := m.ip + 1 }

variable {m m' : Machine}

theorem get_machine (m : Machine) : (get : Action Machine) m = .ok m m := rfl

theorem pop_of_nil (h : m.stack = []) : pop m = .error .stackUnderflow m := by
  rw [pop, bind_of_ok (get_machine m), h]
  rfl

theorem pop_of_cons {v : Value} {vs : List Value} (h : m.stack = v :: vs) :
    pop m = .ok v { m with stack := vs } := by
  rw [pop, bind_of_ok (get_machine m), h]
  rfl

theorem stack_of_pop {v : Value} (h : pop m = .ok v m') :
    ∃ vs, m.stack = v :: vs ∧ m' = { m with stack := vs } := by
  cases hs : m.stack with
  | nil =>
    rw [pop_of_nil hs] at h
    cases h
  | cons w vs =>
    rw [pop_of_cons hs] at h
    cases h
    exact ⟨vs, rfl, rfl⟩

theorem stack_of_popNumber {n : Int64} (h : popNumber m = .ok n m') :
    ∃ vs, m.stack = .number n :: vs ∧ m' = { m with stack := vs } := by
  obtain ⟨v, m₁, hp, h⟩ := exists_of_bind_eq_ok h
  obtain ⟨vs, hs, rfl⟩ := stack_of_pop hp
  cases v with
  | number k =>
    cases h
    exact ⟨vs, hs, rfl⟩
  | _ => cases h

theorem stack_of_popString {x : String} (h : popString m = .ok x m') :
    ∃ vs, m.stack = .string x :: vs ∧ m' = { m with stack := vs } := by
  obtain ⟨v, m₁, hp, h⟩ := exists_of_bind_eq_ok h
  obtain ⟨vs, hs, rfl⟩ := stack_of_pop hp
  cases v with
  | string y =>
    cases h
    exact ⟨vs, hs, rfl⟩
  | _ => cases h

theorem stack_of_popTable {id : Nat} (h : popTable m = .ok id m') :
    ∃ vs, m.stack = .table id :: vs ∧ m' = { m with stack := vs } := by
  obtain ⟨v, m₁, hp, h⟩ := exists_of_bind_eq_ok h
  obtain ⟨vs, hs, rfl⟩ := stack_of_pop hp
  cases v with
  | table k =>
    cases h
    exact ⟨vs, hs, rfl⟩
  | _ => cases h

theorem stack_of_popIndexable {id : Nat} (h : popIndexable m = .ok id m') :
    ∃ vs, m.stack = .table id :: vs ∧ m' = { m with stack := vs } := by
  obtain ⟨v, m₁, hp, h⟩ := exists_of_bind_eq_ok h
  obtain ⟨vs, hs, rfl⟩ := stack_of_pop hp
  cases v with
  | table k =>
    cases h
    exact ⟨vs, hs, rfl⟩
  | _ => cases h

theorem Key.toValue_of_ofValue? {v : Value} {k : Key} (h : Key.ofValue? v = some k) :
    v = k.toValue := by
  cases v <;> cases h <;> rfl

theorem Transition.of_execute {host : Host} {i : Instruction} {flow : Flow}
    (hx : execute host i m = .ok flow m') :
    (flow = .halt ∧ i = .ret ∧ m.calls = [] ∧
      ∃ v, m.stack = v :: m'.stack ∧ m' = { m with stack := m'.stack }) ∨
    (flow ≠ .halt ∧ Transition host m i
      (if flow = .next then { m' with ip := m'.ip + i.width } else m')) := by
  cases i with
  | pushFalse | pushTrue | pushNil | pushNumber | pushString | pushId | pushFunction =>
    cases hx
    exact .inr ⟨by decide, .literal rfl⟩
  | newTable =>
    cases hx
    exact .inr ⟨by decide, .newTable⟩
  | notEqual =>
    obtain ⟨b, _, hb, hx⟩ := exists_of_bind_eq_ok hx
    obtain ⟨vs, hs, rfl⟩ := stack_of_pop hb
    obtain ⟨a, _, ha, hx⟩ := exists_of_bind_eq_ok hx
    obtain ⟨ws, rfl, rfl⟩ := stack_of_pop ha
    cases hx
    exact .inr ⟨by decide, .notEqual hs⟩
  | increment =>
    obtain ⟨n, _, hn, hx⟩ := exists_of_bind_eq_ok hx
    obtain ⟨vs, hs, rfl⟩ := stack_of_popNumber hn
    split at hx
    · cases hx
    · next hne =>
      cases hx
      exact .inr ⟨by decide, .increment hs hne⟩
  | swap =>
    obtain ⟨b, _, hb, hx⟩ := exists_of_bind_eq_ok hx
    obtain ⟨vs, hs, rfl⟩ := stack_of_pop hb
    obtain ⟨a, _, ha, hx⟩ := exists_of_bind_eq_ok hx
    obtain ⟨ws, rfl, rfl⟩ := stack_of_pop ha
    cases hx
    exact .inr ⟨by decide, .swap hs⟩
  | pop =>
    obtain ⟨_, _, hd, hx⟩ := exists_of_bind_eq_ok hx
    obtain ⟨v, _, hv, hd⟩ := exists_of_bind_eq_ok hd
    obtain ⟨vs, hs, rfl⟩ := stack_of_pop hv
    cases hd
    cases hx
    exact .inr ⟨by decide, .pop hs⟩
  | getEnv =>
    obtain ⟨x, _, hn, hx⟩ := exists_of_bind_eq_ok hx
    obtain ⟨vs, hs, rfl⟩ := stack_of_popString hn
    cases hx
    exact .inr ⟨by decide, .getEnv hs⟩
  | setEnv =>
    obtain ⟨v, _, hv, hx⟩ := exists_of_bind_eq_ok hx
    obtain ⟨vs, hs, rfl⟩ := stack_of_pop hv
    obtain ⟨x, _, hn, hx⟩ := exists_of_bind_eq_ok hx
    obtain ⟨ws, rfl, rfl⟩ := stack_of_popString hn
    rw [bind_of_ok (get_machine _)] at hx
    cases hf : m.frames with
    | nil =>
      simp only [hf] at hx
      cases hx
    | cons f fs =>
      simp only [hf] at hx
      cases hx
      exact .inr ⟨by decide, .setEnv hs hf⟩
  | setEnvGlobal =>
    obtain ⟨v, _, hv, hx⟩ := exists_of_bind_eq_ok hx
    obtain ⟨vs, hs, rfl⟩ := stack_of_pop hv
    obtain ⟨x, _, hn, hx⟩ := exists_of_bind_eq_ok hx
    obtain ⟨ws, rfl, rfl⟩ := stack_of_popString hn
    rw [bind_of_ok (get_machine _)] at hx
    cases hf : m.frames with
    | nil =>
      simp only [hf] at hx
      cases hx
    | cons f fs =>
      simp only [hf] at hx
      cases hx
      have ht := @Transition.setEnvGlobal host m v x ws hs (by simp [hf])
      simp only [bindGlobal, hf] at ht
      exact .inr ⟨by decide, ht⟩
  | enterScope =>
    cases hx
    exact .inr ⟨by decide, .enterScope⟩
  | leaveScope =>
    obtain ⟨_, _, hg, hx⟩ := exists_of_bind_eq_ok hx
    cases hg
    split at hx
    · cases hx
    · next hl =>
      cases hx
      exact .inr ⟨by decide, .leaveScope (Nat.lt_of_not_le hl)⟩
  | getTable =>
    obtain ⟨key, _, hk, hx⟩ := exists_of_bind_eq_ok hx
    obtain ⟨vs, hs, rfl⟩ := stack_of_pop hk
    obtain ⟨id, _, ht, hx⟩ := exists_of_bind_eq_ok hx
    obtain ⟨ws, rfl, rfl⟩ := stack_of_popIndexable ht
    cases hx
    exact .inr ⟨by decide, .getTable hs⟩
  | setTable =>
    obtain ⟨v, _, hv, hx⟩ := exists_of_bind_eq_ok hx
    obtain ⟨vs, hs, rfl⟩ := stack_of_pop hv
    obtain ⟨key, _, hk, hx⟩ := exists_of_bind_eq_ok hx
    obtain ⟨ws, rfl, rfl⟩ := stack_of_pop hk
    obtain ⟨id, _, ht, hx⟩ := exists_of_bind_eq_ok hx
    obtain ⟨us, rfl, rfl⟩ := stack_of_popIndexable ht
    cases hk : Key.ofValue? key with
    | none =>
      simp only [hk] at hx
      cases hx
    | some k =>
      simp only [hk] at hx
      cases hx
      exact .inr ⟨by decide, .setTable (Key.toValue_of_ofValue? hk ▸ hs)⟩
  | jump a =>
    cases hx
    exact .inr ⟨by decide, .jump⟩
  | jumpIfFalse a =>
    obtain ⟨v, _, hv, hx⟩ := exists_of_bind_eq_ok hx
    obtain ⟨vs, hs, rfl⟩ := stack_of_pop hv
    have ht := @Transition.jumpIfFalse host m a v vs hs
    cases hv : v.isTruthy
    · simp only [hv] at hx ht
      cases hx
      exact .inr ⟨by decide, ht⟩
    · simp only [hv] at hx ht
      cases hx
      exact .inr ⟨by decide, ht⟩
  | call args =>
    obtain ⟨v, _, hv, hx⟩ := exists_of_bind_eq_ok hx
    obtain ⟨vs, hs, rfl⟩ := stack_of_pop hv
    split at hx
    · next id =>
      rw [bind_of_ok (get_machine _)] at hx
      split at hx
      · next hid =>
        cases hx
        exact .inr ⟨by decide, .call hs hid⟩
      · cases hx
    · next b =>
      obtain ⟨_, _, hb, hx⟩ := exists_of_bind_eq_ok hx
      cases hx
      exact .inr ⟨by decide, .builtin hs hb⟩
    · cases hx
  | ret =>
    obtain ⟨v, _, hv, hx⟩ := exists_of_bind_eq_ok hx
    obtain ⟨vs, hs, rfl⟩ := stack_of_pop hv
    rw [bind_of_ok (get_machine _)] at hx
    cases hc : m.calls with
    | nil =>
      simp only [hc] at hx
      cases hx
      exact .inl ⟨rfl, rfl, rfl, v, hs, rfl⟩
    | cons a calls =>
      simp only [hc] at hx
      cases hx
      exact .inr ⟨by decide, .ret hs hc⟩
  | noOp =>
    cases hx
    exact .inr ⟨by decide, .noOp⟩

theorem popNumber_of_cons {n : Int64} {vs : List Value} (h : m.stack = .number n :: vs) :
    popNumber m = .ok n { m with stack := vs } := by
  rw [popNumber, bind_of_ok (pop_of_cons h)]
  rfl

theorem popString_of_cons {x : String} {vs : List Value} (h : m.stack = .string x :: vs) :
    popString m = .ok x { m with stack := vs } := by
  rw [popString, bind_of_ok (pop_of_cons h)]
  rfl

theorem popIndexable_of_cons {id : Nat} {vs : List Value} (h : m.stack = .table id :: vs) :
    popIndexable m = .ok id { m with stack := vs } := by
  rw [popIndexable, bind_of_ok (pop_of_cons h)]
  rfl

theorem Transition.proceed {host : Host} {i : Instruction} (h : Transition host m i m') :
    Machine.proceed i (execute host i m) = .ok true m' := by
  cases h with
  | @literal i v hv => cases i <;> cases hv <;> rfl
  | newTable | enterScope | jump | noOp => rfl
  | notEqual hs | swap hs =>
    rw [execute, Instruction.opcode, perform, bind_of_ok (pop_of_cons hs),
      bind_of_ok (pop_of_cons rfl)]
    rfl
  | increment hs hn =>
    rw [execute, Instruction.opcode, perform, bind_of_ok (popNumber_of_cons hs), if_neg hn]
    rfl
  | pop hs =>
    have hd : discard Machine.pop m = .ok () { m with stack := _ } := bind_of_ok (pop_of_cons hs)
    rw [execute, Instruction.opcode, perform, bind_of_ok hd]
    rfl
  | getEnv hs =>
    rw [execute, Instruction.opcode, perform, bind_of_ok (popString_of_cons hs)]
    rfl
  | setEnv hs hf =>
    rw [execute, Instruction.opcode, perform, bind_of_ok (pop_of_cons hs),
      bind_of_ok (popString_of_cons rfl), bind_of_ok (get_machine _)]
    simp only [hf]
    rfl
  | @setEnvGlobal v x vs hs hf =>
    obtain ⟨f, fs, hf⟩ := List.exists_cons_of_ne_nil hf
    rw [execute, Instruction.opcode, perform, bind_of_ok (pop_of_cons hs),
      bind_of_ok (popString_of_cons rfl), bind_of_ok (get_machine _)]
    simp only [bindGlobal, hf]
    rfl
  | leaveScope hl =>
    rw [execute, Instruction.opcode, perform, bind_of_ok (get_machine _),
      if_neg (Nat.not_le.2 hl)]
    rfl
  | getTable hs =>
    rw [execute, Instruction.opcode, perform, bind_of_ok (pop_of_cons hs),
      bind_of_ok (popIndexable_of_cons rfl)]
    rfl
  | setTable hs =>
    rw [execute, Instruction.opcode, perform, bind_of_ok (pop_of_cons hs),
      bind_of_ok (pop_of_cons rfl), bind_of_ok (popIndexable_of_cons rfl)]
    simp only [Key.ofValue?_toValue]
    rfl
  | @jumpIfFalse a v vs hs =>
    rw [execute, Instruction.opcode, Instruction.operand?, perform, bind_of_ok (pop_of_cons hs)]
    cases v.isTruthy <;> rfl
  | call hs hid =>
    rw [execute, Instruction.opcode, perform, Machine.call, bind_of_ok (pop_of_cons hs)]
    simp only [bind_of_ok (get_machine _)]
    rw [if_pos hid]
    rfl
  | builtin hs hb =>
    rw [execute, Instruction.opcode, perform, Machine.call, bind_of_ok (pop_of_cons hs)]
    simp only [bind_of_ok hb]
    rfl
  | ret hs hc =>
    rw [execute, Instruction.opcode, perform, doReturn, bind_of_ok (pop_of_cons hs),
      bind_of_ok (get_machine _)]
    simp only [hc]
    rfl

theorem Transition.step {host : Host} {streams : List (List Instruction)} {i : Instruction}
    {js : List Instruction} (h : Transition host m i m') (hf : m.Faces streams (i :: js)) :
    step host m = .ok true m' := by
  rw [step_of_faces hf, h.proceed]

/-- The machine `m'` is `m` less some operands and with other output. -/
def Popped (m m' : Machine) : Prop :=
  ∃ k written, m' = { m with stack := m.stack.drop k, written := written }

theorem Popped.refl (m : Machine) : Popped m m := ⟨0, m.written, rfl⟩

theorem Popped.trans {m₁ m₂ m₃ : Machine} (h : Popped m₁ m₂) (h' : Popped m₂ m₃) :
    Popped m₁ m₃ := by
  obtain ⟨k, w, rfl⟩ := h
  obtain ⟨k', w', rfl⟩ := h'
  exact ⟨k + k', w', by simp⟩

def stateOf : EStateM.Result Fault Machine α → Machine
  | .ok _ m => m
  | .error _ m => m

@[simp] theorem stateOf_ok (x : α) (m : Machine) : stateOf (.ok x m) = m := rfl

@[simp] theorem stateOf_error (f : Fault) (m : Machine) :
    stateOf (.error f m : EStateM.Result Fault Machine α) = m := rfl

def OnlyPops (a : Action α) : Prop := ∀ m, Popped m (stateOf (a m))

def FailsPopped (a : Action α) : Prop := ∀ m f m', a m = .error f m' → Popped m m'

theorem OnlyPops.failsPopped {a : Action α} (h : OnlyPops a) : FailsPopped a := by
  intro m f m' hf
  simpa [hf] using h m

theorem OnlyPops.bind_failsPopped {a : Action α} {k : α → Action β} (ha : OnlyPops a)
    (hk : ∀ x, FailsPopped (k x)) : FailsPopped (a >>= k) := by
  intro m f m' hf
  have h := ha m
  simp only [Bind.bind, EStateM.bind] at hf
  cases hx : a m with
  | error g m₁ =>
    rw [hx] at h hf
    cases hf
    exact h
  | ok x m₁ =>
    rw [hx] at h hf
    exact h.trans (hk x m₁ f m' hf)

theorem OnlyPops.bind {a : Action α} {k : α → Action β} (ha : OnlyPops a)
    (hk : ∀ x, OnlyPops (k x)) : OnlyPops (a >>= k) := by
  intro m
  have h := ha m
  simp only [Bind.bind, EStateM.bind]
  cases hx : a m with
  | error f m' => rwa [hx] at h
  | ok x m' =>
    rw [hx] at h
    exact h.trans (hk x m')

theorem FailsPopped.bind_of_ok {a : Action α} {k : α → Action β} (ha : FailsPopped a)
    (hk : ∀ x m, ∃ y m', k x m = .ok y m') : FailsPopped (a >>= k) := by
  intro m f m' hf
  simp only [Bind.bind, EStateM.bind] at hf
  cases hx : a m with
  | error g m₁ =>
    rw [hx] at hf
    cases hf
    exact ha m _ _ hx
  | ok x m₁ =>
    obtain ⟨y, m₂, hy⟩ := hk x m₁
    simp [hx, hy] at hf

theorem onlyPops_pure (x : α) : OnlyPops (pure x) := fun m => .refl m

theorem onlyPops_throw (f : Fault) : OnlyPops (throw f : Action α) := fun m => .refl m

theorem onlyPops_get : OnlyPops (get : Action Machine) := fun m => .refl m

theorem onlyPops_pop : OnlyPops pop := by
  intro m
  cases hs : m.stack with
  | nil =>
    rw [pop_of_nil hs]
    exact .refl m
  | cons v vs =>
    rw [pop_of_cons hs]
    exact ⟨1, m.written, by simp [hs]⟩

theorem onlyPops_popNumber : OnlyPops popNumber :=
  onlyPops_pop.bind fun v => by cases v <;> first | exact onlyPops_pure _ | exact onlyPops_throw _

theorem onlyPops_popString : OnlyPops popString :=
  onlyPops_pop.bind fun v => by cases v <;> first | exact onlyPops_pure _ | exact onlyPops_throw _

theorem onlyPops_popTable : OnlyPops popTable :=
  onlyPops_pop.bind fun v => by cases v <;> first | exact onlyPops_pure _ | exact onlyPops_throw _

theorem onlyPops_popIndexable : OnlyPops popIndexable :=
  onlyPops_pop.bind fun v => by cases v <;> first | exact onlyPops_pure _ | exact onlyPops_throw _

theorem failsPopped_write (host : Host) (chunk : ByteArray) : FailsPopped (write host chunk) := by
  intro m f m' hf
  rw [write, bind_of_ok (get_machine m)] at hf
  cases hw : host.sink.write m.written chunk with
  | taken =>
    rw [hw] at hf
    cases hf
  | refused kept reason =>
    rw [hw] at hf
    cases hf
    exact ⟨0, _, rfl⟩

theorem setTable_table (m : Machine) (id : Nat) : setTable id (m.table id) m = .ok () m := by
  have hheap : m.heap.setIfInBounds id (m.table id) = m.heap := by
    rw [table]
    rcases Nat.lt_or_ge id m.heap.size with hlt | hge
    · rw [Array.getElem?_eq_getElem hlt, Option.getD_some, Array.setIfInBounds, dif_pos hlt]
      exact Array.set_getElem_self hlt
    · exact Array.setIfInBounds_eq_of_size_le hge
  change EStateM.Result.ok () { m with heap := m.heap.setIfInBounds id (m.table id) } = _
  rw [hheap]

theorem failsPopped_callBuiltin (host : Host) (b : Builtin) : FailsPopped (callBuiltin host b) := by
  cases b with
  | print =>
    refine onlyPops_pop.bind_failsPopped fun v => ?_
    exact (failsPopped_write host _).bind_of_ok fun _ m => ⟨(), _, rfl⟩
  | stringLen =>
    refine onlyPops_popString.bind_failsPopped fun s => ?_
    exact fun _ _ _ hf => nomatch hf
  | stringByte =>
    refine onlyPops_popNumber.bind_failsPopped fun i =>
      onlyPops_popString.bind_failsPopped fun s => ?_
    exact fun _ _ _ hf => nomatch hf
  | tableLen =>
    refine onlyPops_popTable.bind_failsPopped fun id => ?_
    exact fun _ _ _ hf => nomatch hf
  | tableSort =>
    refine onlyPops_popTable.bind_failsPopped fun id m f m' hf => ?_
    rw [bind_of_ok (get_machine m)] at hf
    cases hs : (m.table id).sort with
    | ok _ t =>
      rw [hs] at hf
      cases hf
    | error kinds t =>
      cases Table.eq_of_sort_eq_error hs
      rw [hs] at hf
      dsimp only at hf
      rw [bind_of_ok (setTable_table m id)] at hf
      cases hf
      exact .refl m

theorem failsPopped_execute (host : Host) (i : Instruction) : FailsPopped (execute host i) := by
  cases i with
  | pushFalse | pushTrue | pushNil | pushNumber | pushString | pushId | pushFunction | newTable
  | enterScope | jump | noOp => exact fun _ _ _ hf => nomatch hf
  | notEqual | swap =>
    refine onlyPops_pop.bind_failsPopped fun b => onlyPops_pop.bind_failsPopped fun a => ?_
    exact fun _ _ _ hf => nomatch hf
  | increment =>
    refine onlyPops_popNumber.bind_failsPopped fun n => ?_
    split
    · exact (onlyPops_throw _).failsPopped
    · exact fun _ _ _ hf => nomatch hf
  | pop =>
    refine (onlyPops_pop.bind fun v => onlyPops_pure _).bind_failsPopped fun _ => ?_
    exact fun _ _ _ hf => nomatch hf
  | getEnv =>
    refine onlyPops_popString.bind_failsPopped fun x => ?_
    exact fun _ _ _ hf => nomatch hf
  | setEnv | setEnvGlobal =>
    refine onlyPops_pop.bind_failsPopped fun v => onlyPops_popString.bind_failsPopped fun x =>
      onlyPops_get.bind_failsPopped fun m => ?_
    cases m.frames with
    | nil => exact (onlyPops_throw _).failsPopped
    | cons f fs => exact fun _ _ _ hf => nomatch hf
  | leaveScope =>
    refine onlyPops_get.bind_failsPopped fun m => ?_
    split
    · exact (onlyPops_throw _).failsPopped
    · exact fun _ _ _ hf => nomatch hf
  | getTable =>
    refine onlyPops_pop.bind_failsPopped fun key =>
      onlyPops_popIndexable.bind_failsPopped fun id => ?_
    exact fun _ _ _ hf => nomatch hf
  | setTable =>
    refine onlyPops_pop.bind_failsPopped fun v => onlyPops_pop.bind_failsPopped fun key =>
      onlyPops_popIndexable.bind_failsPopped fun id => ?_
    cases Key.ofValue? key with
    | none => exact (onlyPops_throw _).failsPopped
    | some k => exact fun _ _ _ hf => nomatch hf
  | jumpIfFalse a =>
    refine onlyPops_pop.bind_failsPopped fun v => ?_
    split
    · exact (onlyPops_pure _).failsPopped
    · exact fun _ _ _ hf => nomatch hf
  | call args =>
    refine onlyPops_pop.bind_failsPopped fun v => ?_
    split
    · next id =>
      refine onlyPops_get.bind_failsPopped fun m => ?_
      split
      · exact fun _ _ _ hf => nomatch hf
      · exact (onlyPops_throw _).failsPopped
    · next b => exact (failsPopped_callBuiltin host b).bind_of_ok fun _ m => ⟨_, _, rfl⟩
    · exact (onlyPops_throw _).failsPopped
  | ret =>
    refine onlyPops_pop.bind_failsPopped fun v => onlyPops_get.bind_failsPopped fun m => ?_
    cases m.calls with
    | nil => exact (onlyPops_pure _).failsPopped
    | cons a calls => exact fun _ _ _ hf => nomatch hf

structure AtEnd (streams : List (List Instruction)) (m : Machine) : Prop where
  program : m.program = assemble streams
  stream : ∃ is, streams[m.code]? = some is ∧ m.ip = extent is

theorem step_of_faces_cases {streams : List (List Instruction)} {i : Instruction}
    {js : List Instruction} (h : m.Faces streams (i :: js)) (host : Host) :
    (∃ m', step host m = .ok true m' ∧ Transition host m i m') ∨
    (∃ m', step host m = .ok false m' ∧ i = .ret ∧ m.calls = [] ∧
      ∃ v, m.stack = v :: m'.stack ∧ m' = { m with stack := m'.stack }) ∨
    ∃ f m', step host m = .error f m' ∧ Popped m m' := by
  rw [step_of_faces h]
  cases hx : execute host i m with
  | error f m' => exact .inr (.inr ⟨f, m', rfl, failsPopped_execute host i m f m' hx⟩)
  | ok flow m' =>
    obtain ⟨rfl, hi, hc, hv⟩ | ⟨hflow, ht⟩ := Transition.of_execute hx
    · exact .inr (.inl ⟨m', rfl, hi, hc, hv⟩)
    · refine .inl ⟨_, ?_, ht⟩
      cases flow with
      | halt => exact absurd rfl hflow
      | _ => rfl

theorem doReturn_of_push {a : Activation} {calls : List Activation} (hc : m.calls = a :: calls) :
    doReturn { m with stack := .nil :: m.stack } = .ok .moved (m.returned a calls .nil) := by
  rw [doReturn, bind_of_ok (pop_of_cons rfl), bind_of_ok (get_machine _)]
  simp only [hc]
  rfl

theorem step_of_atEnd {streams : List (List Instruction)} (h : m.AtEnd streams) (host : Host) :
    step host m = match m.calls with
      | [] => .ok false m
      | a :: calls => .ok true (m.returned a calls .nil) := by
  obtain ⟨hp, is, hs, hi⟩ := h
  have hcode : m.program.code[m.code]? = some (slots is).toArray := by
    rw [hp]
    exact code_assemble hs
  have hnone : (slots is).toArray[m.ip]? = none := by simp [hi]
  rw [step, bind_of_ok (get_machine m)]
  simp only [hcode, hnone]
  cases hc : m.calls with
  | nil => rfl
  | cons a calls =>
    have hpush : push .nil m = .ok () { m with stack := .nil :: m.stack } := rfl
    simp only [List.isEmpty_cons, Bool.false_eq_true, if_false]
    rw [bind_of_ok hpush, bind_of_ok (doReturn_of_push hc)]
    rfl

def successor (host : Host) (m : Machine) : Machine := stateOf (step host m)

/-- The machine after `n` steps, those after a halt or a fault included. -/
def after (host : Host) (m : Machine) : Nat → Machine
  | 0 => m
  | n + 1 => (m.after host n).successor host

theorem Transition.successor {host : Host} {streams : List (List Instruction)} {i : Instruction}
    {js : List Instruction} (h : Transition host m i m') (hf : m.Faces streams (i :: js)) :
    m.successor host = m' := by
  rw [Machine.successor, h.step hf, stateOf_ok]

@[simp] theorem after_zero (host : Host) (m : Machine) : m.after host 0 = m := rfl

theorem after_succ (host : Host) (m : Machine) (n : Nat) :
    m.after host (n + 1) = (m.after host n).successor host := rfl

theorem after_one {host : Host} {b : Bool} (h : step host m = .ok b m') : m.after host 1 = m' := by
  rw [after_succ, after_zero, successor, h, stateOf_ok]

theorem after_add (host : Host) (m : Machine) (k n : Nat) :
    m.after host (k + n) = (m.after host k).after host n := by
  induction n with
  | zero => rfl
  | succ n ih => rw [← Nat.add_assoc, after_succ, ih, after_succ]

def Runs (host : Host) (m : Machine) (n : Nat) : Prop :=
  ∀ k, k < n → ∃ m', step host (m.after host k) = .ok true m'

theorem runs_zero (host : Host) (m : Machine) : Runs host m 0 := fun _ hk => nomatch hk

theorem runs_one {host : Host} (h : step host m = .ok true m') : Runs host m 1 := by
  intro k hk
  cases Nat.lt_one_iff.1 hk
  exact ⟨m', h⟩

theorem Runs.mono {host : Host} {n k : Nat} (h : Runs host m n) (hk : k ≤ n) : Runs host m k :=
  fun j hj => h j (Nat.lt_of_lt_of_le hj hk)

theorem Runs.add {host : Host} {n k : Nat} (h : Runs host m n)
    (h' : Runs host (m.after host n) k) : Runs host m (n + k) := by
  intro j hj
  rcases Nat.lt_or_ge j n with hlt | hge
  · exact h j hlt
  · obtain ⟨m', hm⟩ := h' (j - n) (by omega)
    refine ⟨m', ?_⟩
    rwa [← after_add, Nat.add_sub_cancel' hge] at hm

theorem run_add {host : Host} {n : Nat} (h : Runs host m n) (k : Nat) :
    run host (n + k) m = run host k (m.after host n) := by
  induction n generalizing m with
  | zero => rw [Nat.zero_add, after_zero]
  | succ n ih =>
    obtain ⟨m', hstep⟩ := h 0 (Nat.succ_pos n)
    rw [after_zero] at hstep
    have hone : m.after host 1 = m' := after_one hstep
    have hrest : Runs host m' n := by
      intro j hj
      obtain ⟨m'', hj⟩ := h (1 + j) (by omega)
      rw [after_add, hone] at hj
      exact ⟨m'', hj⟩
    rw [Nat.succ_add, run, bind_of_ok hstep, Nat.add_comm n 1, after_add, hone]
    exact ih hrest

theorem run_of_runs {host : Host} {n : Nat} (h : Runs host m n) :
    run host n m = .ok false (m.after host n) := run_add h 0

theorem stateOf_flush (host : Host) (m : Machine) : stateOf (flush host m) = m := by
  rw [flush, bind_of_ok (get_machine m)]
  cases host.sink.flush m.written <;> rfl

theorem exists_after_of_run (host : Host) (fuel : Nat) (m : Machine) :
    ∃ n, stateOf (run host fuel m) = m.after host n := by
  induction fuel generalizing m with
  | zero => exact ⟨0, rfl⟩
  | succ fuel ih =>
    rw [run]
    simp only [Bind.bind, EStateM.bind]
    cases hs : step host m with
    | error f m' => exact ⟨1, by simp [after, successor, hs]⟩
    | ok b m' =>
      have h₁ : m' = m.after host 1 := (after_one hs).symm
      cases b with
      | true =>
        obtain ⟨n, hn⟩ := ih m'
        refine ⟨1 + n, ?_⟩
        rw [after_add, ← h₁, ← hn]
        rfl
      | false =>
        refine ⟨1, ?_⟩
        have hflush := stateOf_flush host m'
        simp only [Bool.false_eq_true, if_false, EStateM.bind]
        cases hf : flush host m' with
        | ok _ m'' =>
          rw [hf] at hflush
          exact hflush.trans h₁
        | error f m'' =>
          rw [hf] at hflush
          exact hflush.trans h₁

/-- The machines that come of `m` by steps and runs, also by those that begin after a halt or
a fault.  Each has a host of its own. -/
inductive Reachable (m : Machine) : Machine → Prop
  | start : Reachable m m
  | step {m' : Machine} (host : Host) : Reachable m m' → Reachable m (m'.successor host)
  | run {m' : Machine} (host : Host) (fuel : Nat) : Reachable m m' →
    Reachable m (stateOf (run host fuel m'))

theorem Reachable.keeps {P : Machine → Prop} (h : Reachable m m') (hm : P m)
    (hstep : ∀ m host, P m → P (m.successor host)) : P m' := by
  have hafter (host : Host) {m : Machine} (hm : P m) (n : Nat) : P (m.after host n) := by
    induction n with
    | zero => exact hm
    | succ n ih => exact hstep _ host ih
  induction h with
  | start => exact hm
  | step host _ ih => exact hstep _ host ih
  | run host fuel _ ih =>
    obtain ⟨n, hn⟩ := exists_after_of_run host fuel _
    rw [hn]
    exact hafter host ih n

/-- What `m` becomes step by step, where each step has a host of its own. -/
structure Course (m : Machine) (ms : Nat → Machine) : Prop where
  start : ms 0 = m
  next : ∀ k, ∃ host, ms (k + 1) = (ms k).successor host

theorem course_after (host : Host) (m : Machine) : Course m (m.after host) :=
  ⟨rfl, fun _ => ⟨host, rfl⟩⟩

theorem Course.reachable {ms : Nat → Machine} (h : Course m ms) (k : Nat) :
    Reachable m (ms k) := by
  induction k with
  | zero =>
    rw [h.start]
    exact .start
  | succ k ih =>
    obtain ⟨host, hk⟩ := h.next k
    rw [hk]
    exact ih.step host

theorem cases_of_step {streams : List (List Instruction)} {host : Host}
    (hm : (∃ i js, m.Faces streams (i :: js)) ∨ m.AtEnd streams)
    (h : step host m = .ok true m') :
    (∃ i js, m.Faces streams (i :: js) ∧ Transition host m i m') ∨
    (m.AtEnd streams ∧ ∃ a calls, m.calls = a :: calls ∧ m' = m.returned a calls .nil) := by
  obtain ⟨i, js, hf⟩ | hend := hm
  · obtain ⟨m₁, hs, ht⟩ | ⟨m₁, hs, -⟩ | ⟨f, m₁, hs, -⟩ := step_of_faces_cases hf host
    · rw [hs] at h
      cases h
      exact .inl ⟨i, js, hf, ht⟩
    · rw [hs] at h
      cases h
    · rw [hs] at h
      cases h
  · rw [step_of_atEnd hend] at h
    cases hc : m.calls with
    | nil =>
      rw [hc] at h
      cases h
    | cons a calls =>
      rw [hc] at h
      cases h
      exact .inr ⟨hend, a, calls, rfl, rfl⟩

/-- What is left of a machine by the end of a step: a transition, a return from the end of a
stream, or the machine less some operands. -/
inductive Moves (host : Host) (streams : List (List Instruction)) (m : Machine) : Machine → Prop
  | transition {i : Instruction} {js : List Instruction} {m' : Machine} :
    m.Faces streams (i :: js) → Transition host m i m' → Moves host streams m m'
  | atEnd {a : Activation} {calls : List Activation} :
    m.AtEnd streams → m.calls = a :: calls → Moves host streams m (m.returned a calls .nil)
  | stays {m' : Machine} : Popped m m' → Moves host streams m m'

def Placed (streams : List (List Instruction)) (m : Machine) : Prop :=
  (∃ i js, m.Faces streams (i :: js)) ∨ m.AtEnd streams

theorem moves_successor {streams : List (List Instruction)} (h : m.Placed streams) (host : Host) :
    Moves host streams m (m.successor host) := by
  rw [successor]
  obtain ⟨i, js, h⟩ | h := h
  · obtain ⟨m', hs, ht⟩ | ⟨m', hs, _, _, v, hv, hm⟩ | ⟨f, m', hs, hp⟩ := step_of_faces_cases h host
    · rw [hs]
      exact .transition h ht
    · rw [hs]
      exact .stays ⟨1, m.written, by rw [stateOf_ok, hm]; simp [hv]⟩
    · rw [hs]
      exact .stays hp
  · rw [step_of_atEnd h]
    cases hc : m.calls with
    | nil => exact .stays (.refl m)
    | cons a calls => exact .atEnd h hc

theorem Course.moves {ms : Nat → Machine} (h : Course m ms) {streams : List (List Instruction)}
    {k : Nat} (hk : (ms k).Placed streams) : ∃ host, Moves host streams (ms k) (ms (k + 1)) := by
  obtain ⟨host, hnext⟩ := h.next k
  rw [hnext]
  exact ⟨host, moves_successor hk host⟩

end Machine

end Scriptlet
