import Scriptlet.Proofs.Outlook

/-! Equality of values, and what calls make of functions.  To a script, two values are equal if
they are one and the same, or if they are builtins of one name, and there are two builtins called
len.  Calls tell any two functions apart, also these. -/

namespace Scriptlet

theorem Builtin.len_of_name_eq {f g : Builtin} (hne : f ≠ g) (h : f.name = g.name) :
    (f = .stringLen ∧ g = .tableLen) ∨ (f = .tableLen ∧ g = .stringLen) := by
  cases f with
  | stringLen =>
    cases g with
    | stringLen => exact absurd rfl hne
    | tableLen => exact .inl ⟨rfl, rfl⟩
    | _ => simp [name] at h
  | tableLen =>
    cases g with
    | tableLen => exact absurd rfl hne
    | stringLen => exact .inr ⟨rfl, rfl⟩
    | _ => simp [name] at h
  | _ => cases g <;> first | exact absurd rfl hne | simp [name] at h

def Value.Namesakes (a b : Value) : Prop :=
  ∃ f g : Builtin, f ≠ g ∧ f.name = g.name ∧ a = .function (.builtin f) ∧ b = .function (.builtin g)

theorem Callable.equal_iff {f g : Callable} :
    f.equal g = true ↔ f = g ∨ (Value.function f).Namesakes (.function g) := by
  cases f with
  | compiled i => cases g <;> simp [equal, Value.Namesakes]
  | builtin b =>
    cases g with
    | compiled j => simp [equal, Value.Namesakes]
    | builtin c =>
      by_cases hbc : b = c
      · simp [equal, hbc]
      · have hne : builtin b ≠ builtin c := fun h => hbc (builtin.inj h)
        simp only [equal, beq_iff_eq, hne, false_or]
        constructor
        · exact fun hname => ⟨b, c, hbc, hname, rfl, rfl⟩
        · rintro ⟨f, g, -, hname, ⟨⟩, ⟨⟩⟩
          exact hname

namespace Value

theorem equal_iff {a b : Value} : a.equal b = true ↔ a = b ∨ a.Namesakes b := by
  cases a with
  | function f =>
    cases b with
    | function g => simp only [equal, Callable.equal_iff, function.injEq]
    | _ => simp [equal, Namesakes]
  | _ => cases b <;> simp [equal, Namesakes]

theorem namesakes_iff {a b : Value} :
    a.Namesakes b ↔
      (a = .function (.builtin .stringLen) ∧ b = .function (.builtin .tableLen)) ∨
      (a = .function (.builtin .tableLen) ∧ b = .function (.builtin .stringLen)) := by
  constructor
  · rintro ⟨f, g, hne, hname, rfl, rfl⟩
    obtain ⟨rfl, rfl⟩ | ⟨rfl, rfl⟩ := Builtin.len_of_name_eq hne hname
    · exact .inl ⟨rfl, rfl⟩
    · exact .inr ⟨rfl, rfl⟩
  · rintro (⟨rfl, rfl⟩ | ⟨rfl, rfl⟩)
    · exact ⟨.stringLen, .tableLen, by decide, rfl, rfl, rfl⟩
    · exact ⟨.tableLen, .stringLen, by decide, rfl, rfl, rfl⟩

end Value

namespace Machine

variable {host : Host} {m : Machine}

theorem outlook_of_op? {op : Opcode} {i : Instruction} (h : m.op? = some op)
    (hi : ∀ o, Instruction.decode? op o = some i) : m.outlook = .instruction i := by
  obtain ⟨slots, hcode, h⟩ := Option.bind_eq_some_iff.1 h
  obtain ⟨slot, hslot, hop⟩ := Option.bind_eq_some_iff.1 h
  simp only [outlook, hcode, hslot, hop, hi]

theorem step_notEqual {a b : Value} {vs : List Value} (h : m.op? = some .notEqual)
    (hs : m.stack = b :: a :: vs) (host : Host) :
    step host m = .ok true { m with stack := .boolean (!(a.equal b)) :: vs, ip := m.ip + 1 } := by
  rw [step_of_instruction (outlook_of_op? h fun _ => rfl)]
  exact (Transition.notEqual hs).proceed

/-- On every host and in every machine that is about to call, the one function does what the
other does: to the machine, to its output, and by its fault. -/
def CallsAlike (f g : Callable) : Prop :=
  ∀ (host : Host) (m : Machine), m.op? = some .call → ∀ vs : List Value,
    step host { m with stack := .function f :: vs } =
      step host { m with stack := .function g :: vs }

def caller (id : Nat) : Machine := ofProgram ⟨Array.replicate (id + 1) #[.ofOpcode .call]⟩

theorem op?_caller (id : Nat) : (caller id).op? = some .call := by
  have hcode : (caller id).program.code[(caller id).code]? = some #[.ofOpcode .call] := by
    simp [caller, ofProgram]
  rw [op?, hcode]
  rfl

def probe (id : Nat) (f : Callable) (vs : List Value) : EStateM.Result Fault Machine Bool :=
  step ⟨.unlimited, fun _ => 0⟩ { caller id with stack := .function f :: vs }

theorem probe_eq (id : Nat) (f : Callable) (vs : List Value) :
    probe id f vs = proceed (.call 0)
      (call ⟨.unlimited, fun _ => 0⟩ { caller id with stack := .function f :: vs }) :=
  step_of_instruction (m := { caller id with stack := .function f :: vs })
    (outlook_of_op? (op?_caller id) fun _ => rfl) _

theorem CallsAlike.probe {f g : Callable} (h : CallsAlike f g) (id : Nat) (vs : List Value) :
    probe id f vs = probe id g vs :=
  h _ _ (op?_caller id) vs

theorem probe_compiled {id n : Nat} (h : id ≤ n) :
    ∃ m', probe n (.compiled id) [] = .ok true m' ∧ m'.code = id := by
  have hid : id < (caller n).program.code.size := by
    simpa [caller, ofProgram] using Nat.lt_succ_of_le h
  rw [probe_eq]
  have hcall : Transition ⟨.unlimited, fun _ => 0⟩
      { caller n with stack := [.function (.compiled id)] } (.call 0) _ := .call rfl hid
  exact ⟨_, hcall.proceed, rfl⟩

theorem probe_builtin (b : Builtin) (n : Nat) :
    ∃ m', probe n (.builtin b) [] = .error .stackUnderflow m' := by
  rw [probe_eq]
  cases b <;> exact ⟨_, rfl⟩

def remains : EStateM.Result Fault Machine Bool → Option Fault × List Value
  | .ok _ m => (none, m.stack)
  | .error f m => (some f, m.stack)

theorem builtin_eq_of_probe {b c : Builtin}
    (h : ∀ v ∈ [Value.string "a", .table 0],
      remains (probe 0 (.builtin b) [v]) = remains (probe 0 (.builtin c) [v])) : b = c := by
  revert h
  cases b <;> cases c <;> decide +kernel

theorem callsAlike_iff {f g : Callable} : CallsAlike f g ↔ f = g := by
  constructor
  · intro h
    cases f with
    | compiled i =>
      cases g with
      | compiled j =>
        obtain ⟨m₁, hi, hm₁⟩ := probe_compiled (Nat.le_add_right i j)
        obtain ⟨m₂, hj, hm₂⟩ := probe_compiled (Nat.le_add_left j i)
        rw [h.probe, hj] at hi
        cases hi
        rw [← hm₁, ← hm₂]
      | builtin c =>
        obtain ⟨m₁, hi, -⟩ := probe_compiled (Nat.le_refl i)
        obtain ⟨m₂, hc⟩ := probe_builtin c i
        rw [h.probe, hc] at hi
        cases hi
    | builtin b =>
      cases g with
      | compiled j =>
        obtain ⟨m₁, hj, -⟩ := probe_compiled (Nat.le_refl j)
        obtain ⟨m₂, hb⟩ := probe_builtin b j
        rw [← h.probe, hb] at hj
        cases hj
      | builtin c =>
        rw [builtin_eq_of_probe fun v _ => congrArg remains (h.probe 0 [v])]
  · rintro rfl host m _ vs
    rfl

/-- What equality comes to: identity, but for the two builtins called len.  A comparison of a
script goes by it.  Calls go by identity, and tell these two apart. -/
theorem equality_is_identity_but_for_namesakes (a b : Value) :
    (a.equal b = true ↔ a = b ∨ a.Namesakes b) ∧
    (a.Namesakes b ↔
      (a = .function (.builtin .stringLen) ∧ b = .function (.builtin .tableLen)) ∨
      (a = .function (.builtin .tableLen) ∧ b = .function (.builtin .stringLen))) ∧
    (∀ (host : Host) (m : Machine) (vs : List Value), m.op? = some .notEqual →
      m.stack = b :: a :: vs → ∃ different : Bool,
        step host m = .ok true
          { m with stack := .boolean different :: vs, ip := m.ip + 1 } ∧
        (different = false ↔ a = b ∨ a.Namesakes b)) ∧
    ∀ f g : Callable, a = .function f → b = .function g → (CallsAlike f g ↔ a = b) := by
  refine ⟨Value.equal_iff, Value.namesakes_iff, ?_, ?_⟩
  · intro host m vs hop hs
    refine ⟨!(a.equal b), step_notEqual hop hs host, ?_⟩
    rw [Bool.not_eq_false', Value.equal_iff]
  · rintro f g rfl rfl
    rw [callsAlike_iff, Value.function.injEq]

def member (id : Nat) (x : String) : Value := ((ofProgram ⟨#[]⟩).table id).get (.string x)

def comparing : Machine :=
  { ofProgram ⟨#[#[.ofOpcode .notEqual]]⟩ with stack := [member 1 "len", member 0 "len"] }

theorem step_comparing :
    comparing.op? = some .notEqual ∧ step ⟨.unlimited, fun _ => 0⟩ comparing =
      .ok true { comparing with stack := [.boolean false], ip := 1 } := by
  have hop : comparing.op? = some .notEqual := by decide
  obtain ⟨-, hnamesakes, hnotEqual, -⟩ :=
    equality_is_identity_but_for_namesakes (member 0 "len") (member 1 "len")
  obtain ⟨different, hstep, hdifferent⟩ :=
    hnotEqual ⟨.unlimited, fun _ => 0⟩ comparing [] hop rfl
  have hlen : (member 0 "len").Namesakes (member 1 "len") :=
    hnamesakes.2 (.inl ⟨by decide +kernel, by decide +kernel⟩)
  rw [hdifferent.2 (.inr hlen)] at hstep
  exact ⟨hop, hstep⟩

/-- The len of strings and the len of tables are equal to a script, though they are two functions
and do not do the same: of a string, the one tells the size and the other fails. -/
theorem not_callsAlike_of_equal :
    ∃ f g : Callable, member 0 "len" = .function f ∧ member 1 "len" = .function g ∧
      f ≠ g ∧ (member 0 "len").equal (member 1 "len") = true ∧ ¬ CallsAlike f g ∧
      remains (probe 0 f [.string "abc"]) = (none, [.number 3]) ∧
      remains (probe 0 g [.string "abc"]) = (some (.wrongKind .table .string), []) := by
  refine ⟨.builtin .stringLen, .builtin .tableLen, by decide +kernel, by decide +kernel, by decide,
    by decide +kernel, ?_, by decide +kernel, by decide +kernel⟩
  rw [callsAlike_iff]
  decide

end Machine

end Scriptlet
