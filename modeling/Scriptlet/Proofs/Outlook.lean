import Scriptlet.Proofs.Failure

/-! Steps of any program, whatever its slots.  The `outlook` of a machine is what its address
holds, and `step_eq` tells the step by it.  A step meets the sink only if it is a call of print;
`line?` is then the line that it prints. -/

namespace Scriptlet

def Instruction.decode? : Opcode → Option Slot → Option Instruction
  | .pushFalse, _ => some .pushFalse
  | .pushTrue, _ => some .pushTrue
  | .pushNil, _ => some .pushNil
  | .pushNumber, some (.number n) => some (.pushNumber n)
  | .pushString, some (.text s) => some (.pushString s)
  | .pushId, some (.name x) => some (.pushId x)
  | .pushFunction, some (.code id) => some (.pushFunction id)
  | .newTable, _ => some .newTable
  | .notEqual, _ => some .notEqual
  | .increment, _ => some .increment
  | .swap, _ => some .swap
  | .pop, _ => some .pop
  | .getEnv, _ => some .getEnv
  | .setEnv, _ => some .setEnv
  | .setEnvGlobal, _ => some .setEnvGlobal
  | .enterScope, _ => some .enterScope
  | .leaveScope, _ => some .leaveScope
  | .getTable, _ => some .getTable
  | .setTable, _ => some .setTable
  | .jump, some (.target a) => some (.jump a)
  | .jumpIfFalse, some (.target a) => some (.jumpIfFalse a)
  -- No slot tells how many arguments were pushed, and no step asks.
  | .call, _ => some (.call 0)
  | .ret, _ => some .ret
  | .noOp, _ => some .noOp
  | _, _ => none

theorem Instruction.opcode_of_decode? {op : Opcode} {o : Option Slot} {i : Instruction}
    (h : decode? op o = some i) : i.opcode = op := by
  unfold decode? at h
  split at h <;> cases h <;> rfl

def Fault.isOutput : Fault → Bool
  | output _ => true
  | _ => false

inductive Outlook
  | noCode
  | atEnd
  | noOpcode (slot : Slot)
  | noOperand (op : Opcode)
  | instruction (i : Instruction)
  deriving DecidableEq

namespace Machine

variable {host : Host} {m m' : Machine} {f : Fault}

theorem perform_eq (host : Host) (op : Opcode) (o : Option Slot) :
    perform host op o = match Instruction.decode? op o with
      | some i => execute host i
      | none => badOperand op := by
  cases op with
  | pushNumber | pushString | pushId | pushFunction | jump | jumpIfFalse =>
    cases o with
    | none => rfl
    | some slot => cases slot <;> rfl
  | _ => rfl

def outlook (m : Machine) : Outlook :=
  match m.program.code[m.code]? with
  | none => .noCode
  | some slots =>
    match slots[m.ip]? with
    | none => .atEnd
    | some slot =>
      match slot.opcode? with
      | none => .noOpcode slot
      | some op =>
        match Instruction.decode? op slots[m.ip + 1]? with
        | none => .noOperand op
        | some i => .instruction i

theorem outlook_congr (hp : m'.program = m.program) (hc : m'.code = m.code) (hi : m'.ip = m.ip) :
    m'.outlook = m.outlook := by
  rw [outlook, outlook, hp, hc, hi]

theorem op?_of_outlook {i : Instruction} (h : m.outlook = .instruction i) :
    m.op? = some i.opcode := by
  rw [outlook] at h
  split at h
  · cases h
  · next slots hcode =>
    split at h
    · cases h
    · next slot hslot =>
      split at h
      · cases h
      · next op hop =>
        split at h
        · cases h
        · next j hj =>
          cases h
          simp [op?, hcode, hslot, hop, Instruction.opcode_of_decode? hj]

theorem step_eq (host : Host) (m : Machine) :
    step host m = match m.outlook with
      | .noCode => .error (.missingCode m.code) m
      | .atEnd => match m.calls with
        | [] => .ok false m
        | a :: calls => .ok true (m.returned a calls .nil)
      | .noOpcode slot => .error (.unknownOpcode m.code m.ip slot) m
      | .noOperand op => .error (.badOperand op m.code m.ip) m
      | .instruction i => proceed i (execute host i m) := by
  rw [step, bind_of_ok (get_machine m), outlook]
  cases m.program.code[m.code]? with
  | none => rfl
  | some slots =>
    dsimp only
    cases slots[m.ip]? with
    | none =>
      dsimp only
      cases hc : m.calls with
      | nil => rfl
      | cons a calls =>
        have hpush : push .nil m = .ok () { m with stack := .nil :: m.stack } := rfl
        simp only [List.isEmpty_cons, Bool.false_eq_true, if_false]
        rw [bind_of_ok hpush, bind_of_ok (doReturn_of_push hc)]
        rfl
    | some slot =>
      dsimp only
      cases slot.opcode? with
      | none => rfl
      | some op =>
        dsimp only
        rw [perform_eq]
        cases hi : Instruction.decode? op slots[m.ip + 1]? with
        | none => rfl
        | some i =>
          simp only [Bind.bind, EStateM.bind]
          cases execute host i m with
          | error f m' => rfl
          | ok flow m' =>
            cases flow with
            | next =>
              simp only [proceed, Instruction.width, Instruction.opcode_of_decode? hi]
              rfl
            | _ => rfl

theorem step_of_instruction {i : Instruction} (h : m.outlook = .instruction i) (host : Host) :
    step host m = proceed i (execute host i m) := by
  rw [step_eq, h]

def lineOf (address : Nat → Nat) (v : Value) : ByteArray := (v.display address ++ "\n").toUTF8

def line? (address : Nat → Nat) (m : Machine) : Option ByteArray :=
  match m.outlook, m.stack with
  | .instruction (.call _), .function (.builtin .print) :: v :: _ => some (lineOf address v)
  | _, _ => none

theorem cases_of_line? {address : Nat → Nat} {line : ByteArray}
    (h : m.line? address = some line) :
    ∃ args v vs, m.outlook = .instruction (.call args) ∧
      m.stack = .function (.builtin .print) :: v :: vs ∧ line = lineOf address v := by
  unfold line? at h
  split at h
  · next args v vs ho hs =>
    cases h
    exact ⟨args, v, vs, ho, hs, rfl⟩
  · cases h

theorem line?_of_call {args : Nat} {v : Value} {vs : List Value} (address : Nat → Nat)
    (ho : m.outlook = .instruction (.call args))
    (hs : m.stack = .function (.builtin .print) :: v :: vs) :
    m.line? address = some (lineOf address v) := by
  rw [line?, ho, hs]

def printed (m : Machine) (line : ByteArray) : Machine :=
  { m with stack := .nil :: m.stack.drop 2, ip := m.ip + 1, written := m.written ++ line }

def interrupted (m : Machine) (line : ByteArray) (kept : Nat) : Machine :=
  { m with stack := m.stack.drop 2, written := m.written ++ line.extract 0 kept }

theorem write_eq (host : Host) (chunk : ByteArray) (m : Machine) :
    write host chunk m = match host.sink.write m.written chunk with
      | .taken => .ok () { m with written := m.written ++ chunk }
      | .refused kept reason =>
        .error (.output reason) { m with written := m.written ++ chunk.extract 0 kept } := by
  rw [write, bind_of_ok (get_machine m)]
  cases host.sink.write m.written chunk <;> rfl

theorem step_of_line? {line : ByteArray} (h : m.line? host.address = some line) :
    step host m = match host.sink.write m.written line with
      | .taken => .ok true (m.printed line)
      | .refused kept reason => .error (.output reason) (m.interrupted line kept) := by
  obtain ⟨args, v, vs, ho, hs, rfl⟩ := cases_of_line? h
  have hcall : execute host (.call args) m =
      (callBuiltin host .print >>= fun _ => pure .next) { m with stack := v :: vs } :=
    bind_of_ok (pop_of_cons hs)
  have hprint : callBuiltin host .print { m with stack := v :: vs } =
      (write host (lineOf host.address v) >>= fun _ => push .nil) { m with stack := vs } :=
    bind_of_ok (pop_of_cons rfl)
  rw [step_of_instruction ho, hcall]
  simp only [Bind.bind, EStateM.bind, hprint, write_eq]
  cases host.sink.write m.written (lineOf host.address v) with
  | taken =>
    simp only [printed, hs]
    rfl
  | refused kept reason =>
    simp only [interrupted, hs]
    rfl

theorem callBuiltin_congr {b : Builtin} (h : b ≠ .print) (host host' : Host) :
    callBuiltin host b = callBuiltin host' b := by
  cases b with
  | print => exact absurd rfl h
  | _ => rfl

theorem callBuiltin_print_of_nil (h : m.stack = []) (host : Host) :
    callBuiltin host .print m = .error .stackUnderflow m := by
  simp [callBuiltin, Bind.bind, EStateM.bind, pop_of_nil h]

theorem callBuiltin_congr_of_print {b : Builtin} (h : b = .print → m.stack = [])
    (host host' : Host) : callBuiltin host b m = callBuiltin host' b m := by
  by_cases hb : b = .print
  · subst hb
    rw [callBuiltin_print_of_nil (h rfl), callBuiltin_print_of_nil (h rfl)]
  · rw [callBuiltin_congr hb host host']

theorem execute_call_congr {args : Nat}
    (h : ∀ v vs, m.stack ≠ .function (.builtin .print) :: v :: vs) (host host' : Host) :
    execute host (.call args) m = execute host' (.call args) m := by
  change (pop >>= _) m = (pop >>= _) m
  cases hs : m.stack with
  | nil => simp only [Bind.bind, EStateM.bind, pop_of_nil hs]
  | cons v vs =>
    rw [bind_of_ok (pop_of_cons hs), bind_of_ok (pop_of_cons hs)]
    split
    · rfl
    · next b =>
      have hb : b = .print → vs = [] := by
        rintro rfl
        cases vs with
        | nil => rfl
        | cons w ws => exact absurd hs (h w ws)
      simp only [Bind.bind, EStateM.bind,
        callBuiltin_congr_of_print (m := { m with stack := vs }) hb host host']
    · rfl

theorem stack_ne_of_line? {address : Nat → Nat} {args : Nat} (h : m.line? address = none)
    (ho : m.outlook = .instruction (.call args)) (v : Value) (vs : List Value) :
    m.stack ≠ .function (.builtin .print) :: v :: vs := by
  intro hs
  rw [line?_of_call address ho hs] at h
  cases h

/-- A step that does not print is the same on every host. -/
theorem step_congr {address : Nat → Nat} (h : m.line? address = none) (host host' : Host) :
    step host m = step host' m := by
  rw [step_eq, step_eq]
  cases ho : m.outlook with
  | instruction i =>
    dsimp only
    cases i with
    | call args => rw [execute_call_congr (stack_ne_of_line? h ho) host host']
    | _ => rfl
  | _ => rfl

/-- Nothing was written since `written`, and if there was a fault, the sink has no part in it. -/
def Spares (written : ByteArray) : EStateM.Result Fault Machine α → Prop
  | .ok _ m => m.written = written
  | .error f m => m.written = written ∧ f.isOutput = false

theorem Spares.written {w : ByteArray} {r : EStateM.Result Fault Machine α} (h : Spares w r) :
    (stateOf r).written = w := by
  cases r with
  | ok x m => exact h
  | error f m => exact h.1

def Silent (a : Action α) : Prop := ∀ m, Spares m.written (a m)

theorem Silent.bind {a : Action α} {k : α → Action β} (ha : Silent a) (hk : ∀ x, Silent (k x)) :
    Silent (a >>= k) := by
  intro m
  have h := ha m
  simp only [Bind.bind, EStateM.bind]
  cases hx : a m with
  | error f m' => rwa [hx] at h
  | ok x m' =>
    rw [hx] at h
    rw [← show m'.written = m.written from h]
    exact hk x m'

theorem silent_pure (x : α) : Silent (pure x) := fun _ => rfl

theorem silent_throw {f : Fault} (h : f.isOutput = false) : Silent (throw f : Action α) :=
  fun _ => ⟨rfl, h⟩

theorem silent_get : Silent (get : Action Machine) := fun _ => rfl

theorem silent_modify {g : Machine → Machine} (h : ∀ m, (g m).written = m.written) :
    Silent (modify g : Action Unit) := h

theorem silent_push (v : Value) : Silent (push v) := silent_modify fun _ => rfl

theorem silent_pop : Silent pop := by
  refine silent_get.bind fun m => ?_
  cases m.stack with
  | nil => exact silent_throw rfl
  | cons v vs => exact .bind (silent_modify fun _ => rfl) fun _ => silent_pure v

theorem silent_popNumber : Silent popNumber :=
  silent_pop.bind fun v => by cases v <;> first | exact silent_pure _ | exact silent_throw rfl

theorem silent_popString : Silent popString :=
  silent_pop.bind fun v => by cases v <;> first | exact silent_pure _ | exact silent_throw rfl

theorem silent_popTable : Silent popTable :=
  silent_pop.bind fun v => by cases v <;> first | exact silent_pure _ | exact silent_throw rfl

theorem silent_popIndexable : Silent popIndexable :=
  silent_pop.bind fun v => by cases v <;> first | exact silent_pure _ | exact silent_throw rfl

theorem silent_setTable (id : Nat) (t : Table) : Silent (setTable id t) :=
  silent_modify fun _ => rfl

theorem silent_push_next (v : Value) : Silent (push v >>= fun _ => pure Flow.next) :=
  (silent_push v).bind fun _ => silent_pure _

theorem silent_callBuiltin {b : Builtin} (h : b ≠ .print) (host : Host) :
    Silent (callBuiltin host b) := by
  cases b with
  | print => exact absurd rfl h
  | stringLen => exact silent_popString.bind fun s => silent_push _
  | stringByte => exact silent_popNumber.bind fun i => silent_popString.bind fun s => silent_push _
  | tableLen => exact silent_popTable.bind fun id => silent_get.bind fun m => silent_push _
  | tableSort =>
    refine silent_popTable.bind fun id => silent_get.bind fun m => ?_
    cases (m.table id).sort with
    | ok _ t => exact (silent_setTable id t).bind fun _ => silent_push _
    | error kinds t => exact (silent_setTable id t).bind fun _ => silent_throw rfl

theorem silent_execute {i : Instruction} (h : ∀ args, i ≠ .call args) (host : Host) :
    Silent (execute host i) := by
  cases i with
  | pushFalse | pushTrue | pushNil | pushNumber | pushString | pushId | pushFunction =>
    exact silent_push_next _
  | newTable =>
    have hnew : Silent newTable := fun _ => rfl
    exact hnew.bind fun id => silent_push_next _
  | notEqual => exact silent_pop.bind fun b => silent_pop.bind fun a => silent_push_next _
  | increment =>
    refine silent_popNumber.bind fun n => ?_
    split
    · exact silent_throw rfl
    · exact silent_push_next _
  | swap =>
    exact silent_pop.bind fun b => silent_pop.bind fun a =>
      (silent_push b).bind fun _ => silent_push_next a
  | pop => exact (silent_pop.bind fun v => silent_pure _).bind fun _ => silent_pure _
  | getEnv => exact silent_popString.bind fun x => silent_get.bind fun m => silent_push_next _
  | setEnv | setEnvGlobal =>
    refine silent_pop.bind fun v => silent_popString.bind fun x => silent_get.bind fun m => ?_
    cases m.frames with
    | nil => exact silent_throw rfl
    | cons g gs => exact .bind (silent_modify fun _ => rfl) fun _ => silent_pure _
  | enterScope => exact .bind (silent_modify fun _ => rfl) fun _ => silent_pure _
  | leaveScope =>
    refine silent_get.bind fun m => ?_
    split
    · exact silent_throw rfl
    · exact .bind (silent_modify fun _ => rfl) fun _ => silent_pure _
  | getTable =>
    exact silent_pop.bind fun key => silent_popIndexable.bind fun id =>
      silent_get.bind fun m => silent_push_next _
  | setTable =>
    refine silent_pop.bind fun v => silent_pop.bind fun key => silent_popIndexable.bind fun id => ?_
    cases Key.ofValue? key with
    | none => exact silent_throw rfl
    | some k =>
      exact silent_get.bind fun m => (silent_setTable id _).bind fun _ => silent_pure _
  | jump a => exact .bind (silent_modify fun _ => rfl) fun _ => silent_pure _
  | jumpIfFalse a =>
    refine silent_pop.bind fun v => ?_
    split
    · exact silent_pure _
    · exact .bind (silent_modify fun _ => rfl) fun _ => silent_pure _
  | call args => exact absurd rfl (h args)
  | ret =>
    refine silent_pop.bind fun v => silent_get.bind fun m => ?_
    cases m.calls with
    | nil => exact silent_pure _
    | cons a calls =>
      exact .bind (silent_modify fun _ => rfl) fun _ =>
        (silent_push v).bind fun _ => silent_pure _
  | noOp => exact silent_pure _

theorem spares_execute_call {args : Nat}
    (h : ∀ v vs, m.stack ≠ .function (.builtin .print) :: v :: vs) (host : Host) :
    Spares m.written (execute host (.call args) m) := by
  change Spares _ ((pop >>= _) m)
  cases hs : m.stack with
  | nil =>
    simp only [Bind.bind, EStateM.bind, pop_of_nil hs]
    exact ⟨rfl, rfl⟩
  | cons v vs =>
    rw [bind_of_ok (pop_of_cons hs)]
    split
    · next id =>
      refine silent_get.bind (fun m => ?_) { m with stack := vs }
      split
      · exact .bind (silent_modify fun _ => rfl) fun _ => silent_pure _
      · exact silent_throw rfl
    · next b =>
      by_cases hb : b = .print
      · subst hb
        cases vs with
        | nil =>
          have hfail := callBuiltin_print_of_nil (m := { m with stack := [] }) rfl host
          simp only [Bind.bind, EStateM.bind, hfail]
          exact ⟨rfl, rfl⟩
        | cons w ws => exact absurd hs (h w ws)
      · exact ((silent_callBuiltin hb host).bind fun _ => silent_pure _) { m with stack := vs }
    · exact ⟨rfl, rfl⟩

theorem Spares.proceed {w : ByteArray} {r : EStateM.Result Fault Machine Flow} (h : Spares w r)
    (i : Instruction) : Spares w (proceed i r) := by
  cases r with
  | error f m => exact h
  | ok flow m => cases flow <;> exact h

theorem spares_step {address : Nat → Nat} (h : m.line? address = none) (host : Host) :
    Spares m.written (step host m) := by
  rw [step_eq]
  cases ho : m.outlook with
  | noCode | noOpcode | noOperand => exact ⟨rfl, rfl⟩
  | atEnd =>
    cases m.calls with
    | nil => exact rfl
    | cons a calls => exact rfl
  | instruction i =>
    cases i with
    | call args => exact (spares_execute_call (stack_ne_of_line? h ho) host).proceed _
    | _ => exact (silent_execute (by simp) host m).proceed _

def ended (s : Sink) (m : Machine) : EStateM.Result Fault Machine Bool :=
  match s.flush m.written with
  | none => .ok true m
  | some reason => .error (.output reason) m

theorem run_succ (host : Host) (fuel : Nat) (m : Machine) :
    run host (fuel + 1) m = match step host m with
      | .ok true m' => run host fuel m'
      | .ok false m' => ended host.sink m'
      | .error f m' => .error f m' := by
  rw [run]
  simp only [Bind.bind, EStateM.bind]
  cases step host m with
  | error f m' => rfl
  | ok b m' =>
    cases b with
    | true => rfl
    | false =>
      simp only [Bool.false_eq_true, if_false, flush, ended, bind_of_ok (get_machine m'),
        EStateM.bind]
      cases host.sink.flush m'.written <;> rfl

theorem runs_succ_of_step {n : Nat} (h : step host m = .ok true m') (hn : Runs host m' n) :
    Runs host m (n + 1) := by
  rw [Nat.add_comm]
  refine (runs_one h).add ?_
  rwa [after_one h]

theorem after_succ_of_step {b : Bool} (h : step host m = .ok b m') (n : Nat) :
    m.after host (n + 1) = m'.after host n := by
  rw [Nat.add_comm, after_add, after_one h]

theorem exists_of_run_eq_error {fuel : Nat} (h : run host fuel m = .error f m') :
    ∃ n, Runs host m n ∧ (step host (m.after host n) = .error f m' ∨
      (step host (m.after host n) = .ok false m' ∧
        ∃ reason, host.sink.flush m'.written = some reason ∧ f = .output reason)) := by
  induction fuel generalizing m with
  | zero => cases h
  | succ fuel ih =>
    rw [run_succ] at h
    cases hstep : step host m with
    | error g m₁ =>
      rw [hstep] at h
      cases h
      exact ⟨0, runs_zero host m, .inl hstep⟩
    | ok b m₁ =>
      rw [hstep] at h
      cases b with
      | true =>
        obtain ⟨n, hn, hend⟩ := ih h
        refine ⟨n + 1, runs_succ_of_step hstep hn, ?_⟩
        rwa [after_succ_of_step hstep]
      | false =>
        simp only [ended] at h
        split at h
        · cases h
        · next reason hflush =>
          cases h
          exact ⟨0, runs_zero host m, .inr ⟨hstep, reason, hflush, rfl⟩⟩

theorem runs_of_run {n : Nat} (h : run host n m = .ok false m') :
    Runs host m n ∧ m.after host n = m' := by
  induction n generalizing m with
  | zero =>
    cases h
    exact ⟨runs_zero host _, rfl⟩
  | succ n ih =>
    rw [run_succ] at h
    cases hstep : step host m with
    | error f m₁ =>
      rw [hstep] at h
      cases h
    | ok b m₁ =>
      rw [hstep] at h
      cases b with
      | true =>
        obtain ⟨hrun, hafter⟩ := ih h
        exact ⟨runs_succ_of_step hstep hrun, by rw [after_succ_of_step hstep, hafter]⟩
      | false =>
        simp only [ended] at h
        split at h <;> cases h

def reaches (host : Host) (m : Machine) (n : Nat) (P : Machine → Bool) : Bool :=
  match run host n m with
  | .ok false m' => P m'
  | _ => false

theorem runs_of_reaches {n : Nat} {P : Machine → Bool} (h : reaches host m n P) :
    Runs host m n ∧ P (m.after host n) := by
  unfold reaches at h
  split at h
  · next m' hrun =>
    obtain ⟨hruns, rfl⟩ := runs_of_run hrun
    exact ⟨hruns, h⟩
  · cases h

theorem reaches_of_runs {n : Nat} {P : Machine → Bool} (h : Runs host m n) :
    reaches host m n P = P (m.after host n) := by
  rw [reaches, run_of_runs h]

end Machine

end Scriptlet
