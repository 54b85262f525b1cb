import Scriptlet.Proofs.Evaluator

/-! Actions that keep to the store.  A local action neither looks at the machine's place in
its program nor changes it, so that it does the same to a store whichever machine has it.  The
operations of straight instructions are local, and go on to the next instruction. -/

namespace Scriptlet

namespace Machine

variable {host : Host} {m m' : Machine} {α β : Type}

@[simp] theorem store_withStore (m : Machine) (s : Store) : (m.withStore s).store = s := rfl

@[simp] theorem store_machine (s : Store) : s.machine.store = s := rfl

def movedTo (m : Machine) : EStateM.Result Fault Machine α → EStateM.Result Fault Machine α
  | .ok x m' => .ok x (m.withStore m'.store)
  | .error f m' => .error f (m.withStore m'.store)

def IsLocal (a : Action α) : Prop := ∀ m, a m = m.movedTo (a m.store.machine)

theorem isLocal_pure (x : α) : IsLocal (pure x) := fun _ => rfl

theorem isLocal_throw (f : Fault) : IsLocal (throw f : Action α) := fun _ => rfl

theorem isLocal_modify {f : Machine → Machine}
    (h : ∀ m, f m = m.withStore (f m.store.machine).store) : IsLocal (modify f) := by
  intro m
  have hf : (modify f : Action PUnit) m = .ok ⟨⟩ (f m) := rfl
  rw [hf, h m]
  rfl

theorem IsLocal.bind {a : Action α} {k : α → Action β} (ha : IsLocal a)
    (hk : ∀ x, IsLocal (k x)) : IsLocal (a >>= k) := by
  intro m
  have h := ha m
  simp only [Bind.bind, EStateM.bind]
  cases hx : a m.store.machine with
  | error f m₁ =>
    rw [hx] at h
    rw [h]
    rfl
  | ok x m₁ =>
    rw [hx] at h
    rw [h]
    simp only [movedTo]
    rw [hk x (m.withStore m₁.store), hk x m₁]
    simp only [store_withStore]
    cases k x m₁.store.machine <;> rfl

theorem isLocal_get_bind {k : Machine → Action α} (hk : ∀ m, IsLocal (k m))
    (h : ∀ m, k m = k m.store.machine) : IsLocal (get >>= k) := by
  intro m
  rw [bind_of_ok (get_machine m), bind_of_ok (get_machine _), ← h m]
  exact hk m m

theorem isLocal_push (v : Value) : IsLocal (push v) := isLocal_modify fun _ => rfl

theorem isLocal_pop : IsLocal pop := by
  refine isLocal_get_bind (fun m => ?_) fun _ => rfl
  cases m.stack with
  | nil => exact isLocal_throw _
  | cons v vs => exact (isLocal_modify fun _ => rfl).bind fun _ => isLocal_pure v

theorem isLocal_popNumber : IsLocal popNumber :=
  isLocal_pop.bind fun v => by cases v <;> first | exact isLocal_pure _ | exact isLocal_throw _

theorem isLocal_popString : IsLocal popString :=
  isLocal_pop.bind fun v => by cases v <;> first | exact isLocal_pure _ | exact isLocal_throw _

theorem isLocal_popTable : IsLocal popTable :=
  isLocal_pop.bind fun v => by cases v <;> first | exact isLocal_pure _ | exact isLocal_throw _

theorem isLocal_popIndexable : IsLocal popIndexable :=
  isLocal_pop.bind fun v => by cases v <;> first | exact isLocal_pure _ | exact isLocal_throw _

theorem isLocal_newTable : IsLocal newTable := fun _ => rfl

theorem isLocal_setTable (id : Nat) (t : Table) : IsLocal (setTable id t) :=
  isLocal_modify fun _ => rfl

theorem isLocal_define (x : String) (v : Value) : IsLocal (define x v) :=
  isLocal_modify fun _ => rfl

theorem isLocal_write (host : Host) (chunk : ByteArray) : IsLocal (write host chunk) := by
  refine isLocal_get_bind (fun m => ?_) fun _ => rfl
  cases host.sink.write m.written chunk with
  | taken => exact isLocal_modify fun _ => rfl
  | refused kept reason =>
    exact (isLocal_modify fun _ => rfl).bind fun _ => isLocal_throw _

theorem isLocal_flush (host : Host) : IsLocal (flush host) := by
  refine isLocal_get_bind (fun m => ?_) fun _ => rfl
  cases host.sink.flush m.written with
  | none => exact isLocal_pure _
  | some reason => exact isLocal_throw _

theorem isLocal_callBuiltin (host : Host) (b : Builtin) : IsLocal (callBuiltin host b) := by
  cases b with
  | print => exact isLocal_pop.bind fun v => (isLocal_write host _).bind fun _ => isLocal_push _
  | stringLen => exact isLocal_popString.bind fun s => isLocal_push _
  | stringByte => exact isLocal_popNumber.bind fun i => isLocal_popString.bind fun s => isLocal_push _
  | tableLen =>
    exact isLocal_popTable.bind fun id => isLocal_get_bind (fun m => isLocal_push _) fun _ => rfl
  | tableSort =>
    refine isLocal_popTable.bind fun id => isLocal_get_bind (fun m => ?_) fun _ => rfl
    cases (m.table id).sort with
    | ok _ t => exact (isLocal_setTable id t).bind fun _ => isLocal_push _
    | error kinds t => exact (isLocal_setTable id t).bind fun _ => isLocal_throw _

structure GoesOn (a : Action Flow) : Prop where
  isLocal : IsLocal a
  next : ∀ m flow m', a m = .ok flow m' → flow = .next

theorem goesOn_next : GoesOn (return .next) where
  isLocal := isLocal_pure _
  next m flow m' h := by
    cases h
    rfl

theorem goesOn_throw (f : Fault) : GoesOn (throw f) := ⟨isLocal_throw f, fun _ _ _ h => nomatch h⟩

theorem IsLocal.goesOn {a : Action α} {k : α → Action Flow} (ha : IsLocal a)
    (hk : ∀ x, GoesOn (k x)) : GoesOn (a >>= k) where
  isLocal := ha.bind fun x => (hk x).isLocal
  next m flow m' h := by
    obtain ⟨x, m₁, -, h⟩ := exists_of_bind_eq_ok h
    exact (hk x).next m₁ flow m' h

theorem goesOn_get_bind {k : Machine → Action Flow} (hk : ∀ m, GoesOn (k m))
    (h : ∀ m, k m = k m.store.machine) : GoesOn (get >>= k) where
  isLocal := isLocal_get_bind (fun m => (hk m).isLocal) h
  next m flow m' hm := by
    rw [bind_of_ok (get_machine m)] at hm
    exact (hk m).next m flow m' hm

end Machine

def Instruction.isStraight : Instruction → Bool
  | jump _ | jumpIfFalse _ | call _ | ret => false
  | _ => true

namespace Machine

theorem goesOn_execute (host : Host) {i : Instruction} (hi : i.isStraight) :
    GoesOn (execute host i) := by
  cases i with
  | jump | jumpIfFalse | call | ret => cases hi
  | pushFalse | pushTrue | pushNil | pushNumber | pushString | pushId | pushFunction =>
    exact (isLocal_push _).goesOn fun _ => goesOn_next
  | newTable => exact isLocal_newTable.goesOn fun id => (isLocal_push _).goesOn fun _ => goesOn_next
  | notEqual =>
    exact isLocal_pop.goesOn fun b => isLocal_pop.goesOn fun a =>
      (isLocal_push _).goesOn fun _ => goesOn_next
  | increment =>
    refine isLocal_popNumber.goesOn fun n => ?_
    split
    · exact goesOn_throw _
    · exact (isLocal_push _).goesOn fun _ => goesOn_next
  | swap =>
    exact isLocal_pop.goesOn fun b => isLocal_pop.goesOn fun a =>
      (isLocal_push _).goesOn fun _ => (isLocal_push _).goesOn fun _ => goesOn_next
  | pop => exact (isLocal_pop.bind fun _ => isLocal_pure _).goesOn fun _ => goesOn_next
  | getEnv =>
    exact isLocal_popString.goesOn fun x =>
      goesOn_get_bind (fun m => (isLocal_push _).goesOn fun _ => goesOn_next) fun _ => rfl
  | setEnv =>
    refine isLocal_pop.goesOn fun v => isLocal_popString.goesOn fun x =>
      goesOn_get_bind (fun m => ?_) fun _ => rfl
    cases m.frames with
    | nil => exact goesOn_throw _
    | cons f fs => exact (isLocal_modify fun _ => rfl).goesOn fun _ => goesOn_next
  | setEnvGlobal =>
    refine isLocal_pop.goesOn fun v => isLocal_popString.goesOn fun x =>
      goesOn_get_bind (fun m => ?_) fun _ => rfl
    cases m.frames with
    | nil => exact goesOn_throw _
    | cons f fs => exact (isLocal_define x v).goesOn fun _ => goesOn_next
  | enterScope => exact (isLocal_modify fun _ => rfl).goesOn fun _ => goesOn_next
  | leaveScope =>
    refine goesOn_get_bind (fun m => ?_) fun _ => rfl
    split
    · exact goesOn_throw _
    · exact (isLocal_modify fun _ => rfl).goesOn fun _ => goesOn_next
  | getTable =>
    exact isLocal_pop.goesOn fun key => isLocal_popIndexable.goesOn fun id =>
      goesOn_get_bind (fun m => (isLocal_push _).goesOn fun _ => goesOn_next) fun _ => rfl
  | setTable =>
    refine isLocal_pop.goesOn fun v => isLocal_pop.goesOn fun key =>
      isLocal_popIndexable.goesOn fun id => ?_
    cases Key.ofValue? key with
    | none => exact goesOn_throw _
    | some k =>
      exact goesOn_get_bind (fun m => (isLocal_setTable id _).goesOn fun _ => goesOn_next)
        fun _ => rfl
  | noOp => exact goesOn_next

def performOne (host : Host) (i : Instruction) : Action Unit := do
  let _ ← execute host i
  return ()

theorem isLocal_performOne (host : Host) {i : Instruction} (hi : i.isStraight) :
    IsLocal (performOne host i) := (goesOn_execute host hi).isLocal.bind fun _ => isLocal_pure _

theorem execute_eq_performOne {i : Instruction} (hi : i.isStraight) (m : Machine) :
    execute host i m = (performOne host i >>= fun _ => pure .next) m := by
  simp only [performOne, Bind.bind, EStateM.bind]
  cases hx : execute host i m with
  | error f m' => rfl
  | ok flow m' => rw [(goesOn_execute host hi).next m flow m' hx]; rfl

def performAll (host : Host) : List Instruction → Action Unit
  | [] => return ()
  | i :: is => do
    performOne host i
    performAll host is

end Machine

namespace Eval

variable {α β : Type}

theorem ofAction_bind {a : Machine.Action α} (ha : Machine.IsLocal a) (k : α → Machine.Action β) :
    ofAction (a >>= k) = ofAction a >>= fun x => ofAction (k x) := by
  funext s
  have h := ha s.machine
  rw [Machine.store_machine] at h
  simp only [ofAction, Bind.bind, EStateM.bind]
  cases hx : a s.machine with
  | error f m => rfl
  | ok x m =>
    rw [hx] at h
    obtain ⟨-, hm⟩ := EStateM.Result.ok.inj h
    have hm : m = m.store.machine := hm
    dsimp only
    rw [← hm]

end Eval

end Scriptlet
