import Scriptlet.Proofs.Outlook

/-! What a run prints, apart from what its host shows of tables.  A machine never looks at what it
has written, so runs of one program on hosts that show other addresses come to the same end and
print the same values. -/

namespace Scriptlet

namespace Machine

variable {host : Host} {m m' : Machine} {α β : Type}

def rewrite (m : Machine) (w : ByteArray) : Machine := { m with written := w }

def rewritten (w : ByteArray) : EStateM.Result Fault Machine α → EStateM.Result Fault Machine α
  | .ok x m => .ok x (m.rewrite w)
  | .error f m => .error f (m.rewrite w)

def Blind (a : Action α) : Prop := ∀ m w, a (m.rewrite w) = rewritten w (a m)

theorem Blind.bind {a : Action α} {k : α → Action β} (ha : Blind a) (hk : ∀ x, Blind (k x)) :
    Blind (a >>= k) := by
  intro m w
  simp only [Bind.bind, EStateM.bind, ha m w]
  cases a m with
  | error f m' => rfl
  | ok x m' => exact hk x m' w

theorem blind_pure (x : α) : Blind (pure x) := fun _ _ => rfl

theorem blind_throw (f : Fault) : Blind (throw f : Action α) := fun _ _ => rfl

theorem blind_modify {g : Machine → Machine} (h : ∀ m w, g (m.rewrite w) = (g m).rewrite w) :
    Blind (modify g : Action Unit) := by
  intro m w
  have hg (m : Machine) : (modify g : Action Unit) m = .ok () (g m) := rfl
  rw [hg, hg, h]
  rfl

theorem blind_get_bind {k : Machine → Action α} (hk : ∀ m, Blind (k m))
    (h : ∀ m w, k (m.rewrite w) = k m) : Blind (get >>= k) := by
  intro m w
  rw [bind_of_ok (get_machine m), bind_of_ok (get_machine _), h]
  exact hk m m w

theorem blind_push (v : Value) : Blind (push v) := blind_modify fun _ _ => rfl

theorem blind_pop : Blind pop := by
  refine blind_get_bind (fun m => ?_) fun _ _ => rfl
  cases m.stack with
  | nil => exact blind_throw _
  | cons v vs => exact .bind (blind_modify fun _ _ => rfl) fun _ => blind_pure v

theorem blind_popNumber : Blind popNumber :=
  blind_pop.bind fun v => by cases v <;> first | exact blind_pure _ | exact blind_throw _

theorem blind_popString : Blind popString :=
  blind_pop.bind fun v => by cases v <;> first | exact blind_pure _ | exact blind_throw _

theorem blind_popTable : Blind popTable :=
  blind_pop.bind fun v => by cases v <;> first | exact blind_pure _ | exact blind_throw _

theorem blind_popIndexable : Blind popIndexable :=
  blind_pop.bind fun v => by cases v <;> first | exact blind_pure _ | exact blind_throw _

theorem blind_setTable (id : Nat) (t : Table) : Blind (setTable id t) :=
  blind_modify fun _ _ => rfl

theorem blind_push_next (v : Value) : Blind (push v >>= fun _ => pure Flow.next) :=
  (blind_push v).bind fun _ => blind_pure _

theorem blind_modify_next {g : Machine → Machine} {flow : Flow}
    (h : ∀ m w, g (m.rewrite w) = (g m).rewrite w) :
    Blind ((modify g : Action Unit) >>= fun _ => pure flow) :=
  (blind_modify h).bind fun _ => blind_pure _

theorem blind_callBuiltin {b : Builtin} (h : b ≠ .print) (host : Host) :
    Blind (callBuiltin host b) := by
  cases b with
  | print => exact absurd rfl h
  | stringLen => exact blind_popString.bind fun s => blind_push _
  | stringByte => exact blind_popNumber.bind fun i => blind_popString.bind fun s => blind_push _
  | tableLen =>
    exact blind_popTable.bind fun id => blind_get_bind (fun m => blind_push _) fun _ _ => rfl
  | tableSort =>
    refine blind_popTable.bind fun id => blind_get_bind (fun m => ?_) fun _ _ => rfl
    cases (m.table id).sort with
    | ok _ t => exact (blind_setTable id t).bind fun _ => blind_push _
    | error kinds t => exact (blind_setTable id t).bind fun _ => blind_throw _

theorem blind_execute {i : Instruction} (h : ∀ args, i ≠ .call args) (host : Host) :
    Blind (execute host i) := by
  cases i with
  | pushFalse | pushTrue | pushNil | pushNumber | pushString | pushId | pushFunction =>
    exact blind_push_next _
  | newTable =>
    have hnew : Blind newTable := fun _ _ => rfl
    exact hnew.bind fun id => blind_push_next _
  | notEqual => exact blind_pop.bind fun b => blind_pop.bind fun a => blind_push_next _
  | increment =>
    refine blind_popNumber.bind fun n => ?_
    split
    · exact blind_throw _
    · exact blind_push_next _
  | swap =>
    exact blind_pop.bind fun b => blind_pop.bind fun a =>
      (blind_push b).bind fun _ => blind_push_next a
  | pop => exact (blind_pop.bind fun v => blind_pure _).bind fun _ => blind_pure _
  | getEnv =>
    exact blind_popString.bind fun x => blind_get_bind (fun m => blind_push_next _) fun _ _ => rfl
  | setEnv | setEnvGlobal =>
    refine blind_pop.bind fun v => blind_popString.bind fun x =>
      blind_get_bind (fun m => ?_) fun _ _ => rfl
    cases m.frames with
    | nil => exact blind_throw _
    | cons g gs => exact blind_modify_next fun _ _ => rfl
  | enterScope => exact blind_modify_next fun _ _ => rfl
  | leaveScope =>
    refine blind_get_bind (fun m => ?_) fun _ _ => rfl
    split
    · exact blind_throw _
    · exact blind_modify_next fun _ _ => rfl
  | getTable =>
    exact blind_pop.bind fun key => blind_popIndexable.bind fun id =>
      blind_get_bind (fun m => blind_push_next _) fun _ _ => rfl
  | setTable =>
    refine blind_pop.bind fun v => blind_pop.bind fun key => blind_popIndexable.bind fun id => ?_
    cases Key.ofValue? key with
    | none => exact blind_throw _
    | some k =>
      exact blind_get_bind (fun m => (blind_setTable id _).bind fun _ => blind_pure _)
        fun _ _ => rfl
  | jump a => exact blind_modify_next fun _ _ => rfl
  | jumpIfFalse a =>
    refine blind_pop.bind fun v => ?_
    split
    · exact blind_pure _
    · exact blind_modify_next fun _ _ => rfl
  | call args => exact absurd rfl (h args)
  | ret =>
    refine blind_pop.bind fun v => blind_get_bind (fun m => ?_) fun _ _ => rfl
    cases m.calls with
    | nil => exact blind_pure _
    | cons a calls =>
      exact .bind (blind_modify fun _ _ => rfl) fun _ =>
        (blind_push v).bind fun _ => blind_pure _
  | noOp => exact blind_pure _

theorem execute_call_rewrite {args : Nat}
    (h : ∀ v vs, m.stack ≠ .function (.builtin .print) :: v :: vs) (host : Host) (w : ByteArray) :
    execute host (.call args) (m.rewrite w) = rewritten w (execute host (.call args) m) := by
  change (pop >>= _) (m.rewrite w) = rewritten w ((pop >>= _) m)
  cases hs : m.stack with
  | nil =>
    have hs' : (m.rewrite w).stack = [] := hs
    simp only [Bind.bind, EStateM.bind, pop_of_nil hs, pop_of_nil hs']
    rfl
  | cons v vs =>
    have hs' : (m.rewrite w).stack = v :: vs := hs
    rw [bind_of_ok (pop_of_cons hs), bind_of_ok (pop_of_cons hs')]
    split
    · next id =>
      refine blind_get_bind (fun m => ?_) (fun _ _ => rfl) { m with stack := vs } w
      split
      · exact blind_modify_next fun _ _ => rfl
      · exact blind_throw _
    · next b =>
      by_cases hb : b = .print
      · subst hb
        cases vs with
        | nil => rfl
        | cons v vs => exact absurd hs (h v vs)
      · exact ((blind_callBuiltin hb host).bind fun _ => blind_pure _) { m with stack := vs } w
    · rfl

theorem proceed_rewritten (i : Instruction) (w : ByteArray)
    (r : EStateM.Result Fault Machine Flow) :
    proceed i (rewritten w r) = rewritten w (proceed i r) := by
  cases r with
  | error f m => rfl
  | ok flow m => cases flow <;> rfl

theorem step_rewrite {address : Nat → Nat} (h : m.line? address = none) (host : Host)
    (w : ByteArray) : step host (m.rewrite w) = rewritten w (step host m) := by
  have ho : (m.rewrite w).outlook = m.outlook := rfl
  rw [step_eq, step_eq, ho]
  cases ho : m.outlook with
  | noCode | noOpcode | noOperand => rfl
  | atEnd =>
    have hc : (m.rewrite w).calls = m.calls := rfl
    rw [hc]
    cases m.calls <;> rfl
  | instruction i =>
    dsimp only
    rw [← proceed_rewritten]
    cases i with
    | call args => rw [execute_call_rewrite (stack_ne_of_line? h ho) host w]
    | _ => rw [blind_execute (by simp) host m w]

def transcript (address : Nat → Nat) : List Value → ByteArray
  | [] => .empty
  | v :: vs => lineOf address v ++ transcript address vs

theorem transcript_concat (address : Nat → Nat) (vs : List Value) (v : Value) :
    transcript address (vs ++ [v]) = transcript address vs ++ lineOf address v := by
  induction vs with
  | nil => simp [transcript]
  | cons u vs ih => rw [List.cons_append, transcript, transcript, ih, ByteArray.append_assoc]

/-- Two machines that have printed the same values, each with its own addresses, and are the same
in all else. -/
def Twins (a a' : Nat → Nat) (m m' : Machine) : Prop :=
  ∃ vs, m.written = transcript a vs ∧ m' = m.rewrite (transcript a' vs)

inductive TwinResults (a a' : Nat → Nat) : EStateM.Result Fault Machine Bool →
    EStateM.Result Fault Machine Bool → Prop
  | ok {b : Bool} {m m' : Machine} : Twins a a' m m' → TwinResults a a' (.ok b m) (.ok b m')
  | error {f : Fault} {m m' : Machine} : Twins a a' m m' →
    TwinResults a a' (.error f m) (.error f m')

variable {a a' : Nat → Nat}

theorem step_of_line?_of_unlimited {line : ByteArray} (h : m.line? a = some line) :
    step { address := a } m = .ok true (m.printed line) :=
  @step_of_line? { address := a } m line h

theorem Twins.step (h : Twins a a' m m') :
    TwinResults a a' (step { address := a } m) (step { address := a' } m') := by
  obtain ⟨vs, hwritten, rfl⟩ := h
  cases hline : m.line? a with
  | some line =>
    obtain ⟨args, v, stack, ho, hs, rfl⟩ := cases_of_line? hline
    have hline' : (m.rewrite (transcript a' vs)).line? a' = some (lineOf a' v) :=
      line?_of_call a' ho hs
    rw [step_of_line?_of_unlimited hline, step_of_line?_of_unlimited hline']
    refine .ok ⟨vs ++ [v], ?_, ?_⟩
    · rw [transcript_concat, ← hwritten]
      rfl
    · rw [transcript_concat]
      rfl
  | none =>
    have hspares := (spares_step hline { address := a }).written
    rw [step_rewrite hline, step_congr hline { address := a' } { address := a }]
    cases hstep : Machine.step { address := a } m with
    | ok b m₁ =>
      rw [hstep] at hspares
      exact .ok ⟨vs, hspares.trans hwritten, rfl⟩
    | error f m₁ =>
      rw [hstep] at hspares
      exact .error ⟨vs, hspares.trans hwritten, rfl⟩

theorem Twins.run (h : Twins a a' m m') (fuel : Nat) :
    TwinResults a a' (run { address := a } fuel m) (run { address := a' } fuel m') := by
  induction fuel generalizing m m' with
  | zero => exact .ok h
  | succ fuel ih =>
    rw [run_succ, run_succ]
    have hstep := h.step
    generalize Machine.step { address := a } m = r at hstep
    generalize Machine.step { address := a' } m' = r' at hstep
    cases hstep with
    | @ok b m₁ m₁' h₁ =>
      cases b with
      | true => exact ih h₁
      | false => exact .ok h₁
    | error h₁ => exact .error h₁

theorem twins_ofProgram (a a' : Nat → Nat) (p : Program) :
    Twins a a' (ofProgram p) (ofProgram p) := ⟨[], rfl, rfl⟩

end Machine

end Scriptlet
