import Scriptlet.Proofs.Outlook

/-! Steps that fail, in any program and from any machine.  The machine stays at the instruction
that has failed, with all that it had but for operands which the instruction has taken; only a
line that the sink refuses may have left output.  So a run that fails can be taken up again at
that instruction. -/

namespace Scriptlet.Machine

variable {host : Host} {m m' : Machine} {f : Fault}

theorem eq_error_of_proceed {i : Instruction} {r : EStateM.Result Fault Machine Flow}
    (h : proceed i r = .error f m') : r = .error f m' := by
  cases r with
  | error g m₁ =>
    cases h
    rfl
  | ok flow m₁ => cases flow <;> cases h

theorem eq_of_step_eq_error (hno : ∀ i, m.outlook ≠ .instruction i)
    (h : step host m = .error f m') : m' = m := by
  rw [step_eq] at h
  cases ho : m.outlook with
  | instruction i => exact absurd ho (hno i)
  | noCode | noOpcode | noOperand =>
    rw [ho] at h
    cases h
    rfl
  | atEnd =>
    rw [ho] at h
    cases hc : m.calls <;> simp [hc] at h

/-- The machine has not moved, and has at most taken operands from the top of its stack. -/
structure StandsStill (m m' : Machine) : Prop where
  program : m'.program = m.program
  code : m'.code = m.code
  ip : m'.ip = m.ip
  calls : m'.calls = m.calls
  frames : m'.frames = m.frames
  heap : m'.heap = m.heap
  stack : m'.stack <:+ m.stack

namespace StandsStill

theorem refl (m : Machine) : StandsStill m m := ⟨rfl, rfl, rfl, rfl, rfl, rfl, List.suffix_rfl⟩

theorem of_popped (h : Popped m m') : StandsStill m m' := by
  obtain ⟨k, written, rfl⟩ := h
  exact ⟨rfl, rfl, rfl, rfl, rfl, rfl, List.drop_suffix k m.stack⟩

theorem of_step (h : step host m = .error f m') : StandsStill m m' := by
  by_cases hi : ∃ i, m.outlook = .instruction i
  · obtain ⟨i, hi⟩ := hi
    rw [step_of_instruction hi] at h
    exact .of_popped (failsPopped_execute host i m f m' (eq_error_of_proceed h))
  · rw [eq_of_step_eq_error (not_exists.1 hi) h]
    exact .refl m

theorem outlook (h : StandsStill m m') : m'.outlook = m.outlook :=
  outlook_congr h.program h.code h.ip

end StandsStill

/-- The fault is that of a sink which has refused the rest of a line, in a call of print. -/
def BreaksOff (host : Host) (m : Machine) (f : Fault) (m' : Machine) : Prop :=
  ∃ v vs kept reason, m.op? = some .call ∧ m.stack = .function (.builtin .print) :: v :: vs ∧
    host.sink.write m.written (lineOf host.address v) = .refused kept reason ∧
    f = .output reason ∧ m'.written = m.written ++ (lineOf host.address v).extract 0 kept

theorem written_of_step_eq_error (h : step host m = .error f m') :
    m'.written = m.written ∨ BreaksOff host m f m' := by
  cases hl : m.line? host.address with
  | none =>
    have hw := (spares_step hl host).written
    rw [h] at hw
    exact .inl hw
  | some line =>
    rw [step_of_line? hl] at h
    obtain ⟨args, v, vs, ho, hs, rfl⟩ := cases_of_line? hl
    cases hv : host.sink.write m.written (lineOf host.address v) with
    | taken =>
      rw [hv] at h
      cases h
    | refused kept reason =>
      rw [hv] at h
      cases h
      exact .inr ⟨v, vs, kept, reason, op?_of_outlook ho, hs, hv, rfl, rfl⟩

/-- From `m'` a run begins at what is before `m`: with the same instruction, or, where there is
none, from the machine that `m` was. -/
structure Restarts (m m' : Machine) : Prop where
  again : ∀ i, m.outlook = .instruction i → ∀ later, step later m' = proceed i (execute later i m')
  stuck : (∀ i, m.outlook ≠ .instruction i) → m' = m

theorem Restarts.of_step (h : step host m = .error f m') : Restarts m m' := by
  constructor
  · intro i hi later
    exact step_of_instruction ((StandsStill.of_step h).outlook.trans hi) later
  · intro hno
    exact eq_of_step_eq_error hno h

/-- A step that fails leaves the machine where it was.  So does a run that fails in a step, and
a later run takes it up from there; the only other fault of a run is that of its flush. -/
theorem failure_standsStill (host : Host) :
    (∀ m f m', step host m = .error f m' →
      StandsStill m m' ∧ (m'.written = m.written ∨ BreaksOff host m f m')) ∧
    ∀ fuel m f m', run host fuel m = .error f m' →
      ∃ n, Runs host m n ∧
        ((step host (m.after host n) = .error f m' ∧
            StandsStill (m.after host n) m' ∧ Restarts (m.after host n) m') ∨
          (step host (m.after host n) = .ok false m' ∧
            ∃ reason, host.sink.flush m'.written = some reason ∧ f = .output reason)) := by
  constructor
  · intro m f m' h
    exact ⟨.of_step h, written_of_step_eq_error h⟩
  · intro fuel m f m' h
    obtain ⟨n, hn, hstep | hflush⟩ := exists_of_run_eq_error h
    · exact ⟨n, hn, .inl ⟨hstep, .of_step hstep, .of_step hstep⟩⟩
    · exact ⟨n, hn, .inr hflush⟩

theorem failure_standsStill_shortLine :
    ∃ host m f m', run host 2 m = .error f m' ∧ step host m = .error f m' ∧
      m'.stack = [.nil] ∧ m'.op? = some .call ∧
      (m'.written = m.written ∨ BreaksOff host m f m') ∧
      ∃ n, Runs host m n ∧ StandsStill (m.after host n) m' := by
  let host : Host := ⟨⟨fun _ _ => .refused 1 "full", fun _ => none⟩, fun _ => 0⟩
  let m : Machine :=
    { ofProgram ⟨#[#[.ofOpcode .call]]⟩ with
      stack := [.function (.builtin .print), .boolean true, .nil] }
  have hrun : ∃ f m', run host 2 m = .error f m' ∧ step host m = .error f m' ∧
      m'.stack = [.nil] ∧ m'.op? = some .call := ⟨_, _, rfl, rfl, rfl, rfl⟩
  obtain ⟨f, m', hrun, hstep, hs, hop⟩ := hrun
  obtain ⟨-, hw⟩ := (failure_standsStill host).1 m f m' hstep
  obtain ⟨n, hn, ⟨-, hstill, -⟩ | ⟨-, reason, hflush, -⟩⟩ :=
    (failure_standsStill host).2 2 m f m' hrun
  · exact ⟨host, m, f, m', hrun, hstep, hs, hop, hw, n, hn, hstill⟩
  · cases hflush

end Scriptlet.Machine
