import Scriptlet.Proofs.FrameDiscipline
import Scriptlet.Proofs.Local

/-! Evaluation and the machine side by side.  A row of instructions `Realizes` an evaluation
if the machine, wherever it comes to the row with a store, does what the evaluation does to
that store, and is then behind the row.  An evaluation that runs out of fuel keeps the machine
going for at least as many steps. -/

namespace Scriptlet

open Code

namespace Machine

variable {host : Host} {ns : List Node} {m m' : Machine} {s : Store}

theorem Faces.left {streams : List (List Instruction)} {js ks : List Instruction}
    (h : m.Faces streams (js ++ ks)) : m.Faces streams js := by
  obtain ⟨hp, is, hs, hi⟩ := h
  exact ⟨hp, is, hs, hi.left⟩

theorem Faces.right {streams : List (List Instruction)} {js ks : List Instruction}
    (h : m.Faces streams (js ++ ks)) (hp : m'.program = m.program) (hc : m'.code = m.code)
    (hip : m'.ip = m.ip + extent js) : m'.Faces streams ks := by
  obtain ⟨hm, is, hs, hi⟩ := h
  refine ⟨hp.trans hm, is, hc ▸ hs, ?_⟩
  rw [hip]
  exact hi.right

theorem Faces.tail {streams : List (List Instruction)} {i : Instruction} {js : List Instruction}
    (h : m.Faces streams (i :: js)) (hp : m'.program = m.program) (hc : m'.code = m.code)
    (hip : m'.ip = m.ip + i.width) : m'.Faces streams js :=
  @Faces.right m m' streams [i] js h hp hc hip

def onward (m : Machine) (s : Store) (a : Nat) : Machine := { m.withStore s with ip := a }

theorem Faces.onward {streams : List (List Instruction)} {js : List Instruction} {a : Nat}
    (h : m.Faces streams js) (ha : m.ip = a) : (m.onward s a).Faces streams js := by
  obtain ⟨hp, is, hs, hi⟩ := h
  exact ⟨hp, is, hs, ha ▸ hi⟩

structure Valid (ns : List Node) (m : Machine) : Prop where
  frames : FrameDepth ns m
  linked : m.Linked

theorem valid_ofProgram (ns : List Node) : Valid ns (ofProgram (assemble (Script.streams ns))) where
  frames := frameDepth_of_reachable .start
  linked := (sound_of_reachable .start).linked

theorem Valid.program (h : Valid ns m) : m.program = assemble (Script.streams ns) := by
  obtain ⟨ts, hl, -⟩ := h.frames
  exact hl.program

theorem Valid.successor (h : Valid ns m) (host : Host) : Valid ns (m.successor host) := by
  have hm := moves_successor h.frames.placed host
  exact ⟨h.frames.moves hm, h.linked.moves h.program hm⟩

theorem Valid.after (h : Valid ns m) (host : Host) (n : Nat) : Valid ns (m.after host n) := by
  induction n with
  | zero => exact h
  | succ n ih => exact ih.successor host

def Leads (host : Host) (m m' : Machine) : Prop := ∃ n, Runs host m n ∧ m.after host n = m'

namespace Leads

theorem refl (host : Host) (m : Machine) : Leads host m m := ⟨0, runs_zero host m, rfl⟩

theorem step (h : Machine.step host m = .ok true m') : Leads host m m' :=
  ⟨1, runs_one h, after_one h⟩

theorem trans {m'' : Machine} (h : Leads host m m') (h' : Leads host m' m'') :
    Leads host m m'' := by
  obtain ⟨n, hr, rfl⟩ := h
  obtain ⟨k, hr', rfl⟩ := h'
  exact ⟨n + k, hr.add hr', after_add host m n k⟩

theorem valid (h : Leads host m m') (hm : Valid ns m) : Valid ns m' := by
  obtain ⟨n, -, rfl⟩ := h
  exact hm.after host n

end Leads

/-- From `m` on, the machine does what an evaluation with this result has done: it goes on to
`stop`, comes to a return in the same activation, fails, or goes on for `fuel` steps. -/
def Meets (host : Host) (ns : List Node) (fuel : Nat) (m : Machine) (stop : Nat) :
    EStateM.Result Interrupt Store Unit → Prop
  | .ok _ s => Leads host m (m.onward s stop)
  | .error (.returned v) s => ∃ a, Leads host m (m.onward { s with stack := v :: s.stack } a) ∧
    (m.onward { s with stack := v :: s.stack } a).Faces (Script.streams ns) [.ret]
  | .error (.failed f) s => ∃ m₁ m₂, Leads host m m₁ ∧ step host m₁ = .error f m₂ ∧ m₂.store = s
  | .error .exhausted s => ∃ n, fuel ≤ n ∧ Runs host m n ∧ (m.after host n).written = s.written

namespace Meets

variable {fuel fuel' stop a k : Nat} {r : EStateM.Result Interrupt Store Unit}

theorem of_runs (h : Meets host ns fuel (m.onward s a) stop r) (hr : Runs host m k)
    (hk : m.after host k = m.onward s a) (hf : fuel' ≤ k + fuel) :
    Meets host ns fuel' m stop r := by
  have hl : Leads host m (m.onward s a) := ⟨k, hr, hk⟩
  match r, h with
  | .ok _ _, h => exact hl.trans h
  | .error (.returned _) _, ⟨b, h, hface⟩ => exact ⟨b, hl.trans h, hface⟩
  | .error (.failed _) _, ⟨m₁, m₂, h, hstep⟩ => exact ⟨m₁, m₂, hl.trans h, hstep⟩
  | .error .exhausted _, ⟨n, hn, h, hw⟩ =>
    rw [← hk] at h hw
    refine ⟨k + n, by omega, hr.add h, ?_⟩
    rw [after_add]
    exact hw

theorem of_leads (h : Meets host ns fuel (m.onward s a) stop r)
    (hl : Leads host m (m.onward s a)) : Meets host ns fuel m stop r := by
  obtain ⟨k, hr, hk⟩ := hl
  exact h.of_runs hr hk (Nat.le_add_left _ _)

theorem of_step (h : Meets host ns fuel (m.onward s a) stop r)
    (hs : step host m = .ok true (m.onward s a)) : Meets host ns (fuel + 1) m stop r :=
  h.of_runs (runs_one hs) (after_one hs) (Nat.le_of_eq (Nat.add_comm fuel 1))

theorem mono (h : Meets host ns fuel m stop r) (hf : fuel' ≤ fuel) :
    Meets host ns fuel' m stop r :=
  of_runs (s := m.store) (a := m.ip) h (runs_zero host m) rfl (by omega)

theorem bind {x : Eval Unit} {f : Unit → Eval Unit} {mid : Nat}
    (h : Meets host ns fuel m mid (x s)) (hm : Valid ns m)
    (hf : ∀ s', Valid ns (m.onward s' mid) → Meets host ns fuel (m.onward s' mid) stop (f () s')) :
    Meets host ns fuel m stop ((x >>= f) s) := by
  simp only [Bind.bind, EStateM.bind]
  cases hx : x s with
  | ok _ s' =>
    rw [hx] at h
    exact (hf s' (Leads.valid h hm)).of_leads h
  | error i s' =>
    rw [hx] at h
    cases i <;> exact h

end Meets

/-- The row `js`, standing from `base` on, does what the evaluation `x` does. -/
def Realizes (host : Host) (ns : List Node) (fuel base : Nat) (js : List Instruction)
    (x : Eval Unit) : Prop :=
  ∀ m, Valid ns m → m.ip = base → m.Faces (Script.streams ns) js →
    Meets host ns fuel m (base + extent js) (x m.store)

namespace Realizes

variable {fuel base : Nat} {js ks : List Instruction} {x y : Eval Unit}

theorem nil : Realizes host ns fuel base [] (pure ()) := by
  rintro m - rfl -
  exact .refl host m

theorem append (h : Realizes host ns fuel base js x)
    (h' : Realizes host ns fuel (base + extent js) ks y) :
    Realizes host ns fuel base (js ++ ks) (do x; y) := by
  intro m hm hip hf
  refine (h m hm hip hf.left).bind hm fun s' hm' => ?_
  rw [extent_append, ← Nat.add_assoc]
  exact h' _ hm' rfl (hf.right rfl rfl (by rw [hip]; rfl))

theorem congr (h : Realizes host ns fuel base js x) (hxy : ∀ s : Store, s.frames ≠ [] → x s = y s) :
    Realizes host ns fuel base js y := by
  intro m hm hip hf
  rw [← hxy m.store (List.ne_nil_of_length_pos hm.frames.pos)]
  exact h m hm hip hf

end Realizes

theorem meets_of_execute {fuel : Nat} {a : Action Unit} {i : Instruction} {js : List Instruction}
    (ha : IsLocal a) (hf : m.Faces (Script.streams ns) (i :: js))
    (hx : execute host i m = (a >>= fun _ => pure .next) (m.withStore s)) :
    Meets host ns fuel m (m.ip + i.width) (Eval.ofAction a s) := by
  have hstep := step_of_faces hf host
  have hm := ha (m.withStore s)
  simp only [hx, Bind.bind, EStateM.bind, hm, store_withStore] at hstep
  rw [Eval.ofAction]
  cases hs : a s.machine with
  | error f m' =>
    rw [hs] at hstep
    exact ⟨m, _, .refl host m, hstep, rfl⟩
  | ok x m' =>
    rw [hs] at hstep
    exact .step hstep

theorem realizes_performAll (fuel base : Nat) {js : List Instruction}
    (h : js.all Instruction.isStraight) :
    Realizes host ns fuel base js (Eval.ofAction (performAll host js)) := by
  induction js generalizing base with
  | nil => exact .nil
  | cons i js ih =>
    rw [List.all_cons, Bool.and_eq_true] at h
    have hone : Realizes host ns fuel base [i] (Eval.ofAction (performOne host i)) := by
      rintro m hm rfl hf
      exact meets_of_execute (isLocal_performOne host h.1) hf (execute_eq_performOne h.1 m)
    rw [performAll, Eval.ofAction_bind (isLocal_performOne host h.1)]
    exact hone.append (ih _ h.2)

theorem realizes_straight {fuel base : Nat} {js : List Instruction} {x : Eval Unit}
    (h : js.all Instruction.isStraight)
    (hx : ∀ s : Store, s.frames ≠ [] → Eval.ofAction (performAll host js) s = x s) :
    Realizes host ns fuel base js x := (realizes_performAll fuel base h).congr hx

theorem Meets.pop {fuel stop : Nat} {i : Instruction} {js : List Instruction}
    {f : Value → Eval Unit} (hf : m.Faces (Script.streams ns) (i :: js))
    (hx : ∃ k, execute host i = Machine.pop >>= k)
    (h : ∀ v vs, m.stack = v :: vs →
      Meets host ns fuel m stop (f v { m.store with stack := vs })) :
    Meets host ns fuel m stop ((Eval.ofAction Machine.pop >>= f) m.store) := by
  cases hs : m.stack with
  | nil =>
    have hpop : Eval.ofAction Machine.pop m.store = .error (.failed .stackUnderflow) m.store := by
      rw [Eval.ofAction, @pop_of_nil m.store.machine hs]
      rfl
    simp only [Bind.bind, EStateM.bind, hpop]
    refine ⟨m, m, .refl host m, ?_, rfl⟩
    obtain ⟨k, hk⟩ := hx
    rw [step_of_faces hf, hk]
    simp only [Bind.bind, EStateM.bind, pop_of_nil hs]
    rfl
  | cons v vs =>
    have hpop : Eval.ofAction Machine.pop m.store = .ok v { m.store with stack := vs } := by
      rw [Eval.ofAction, @pop_of_cons m.store.machine v vs hs]
      rfl
    rw [bind_of_ok hpop]
    exact h v vs hs

theorem leads_of_jumpIfFalse {a b : Nat} {v : Value} {vs : List Value} {js : List Instruction}
    (hf : m.Faces (Script.streams ns) (.jumpIfFalse a :: js)) (hs : m.stack = v :: vs)
    (hb : (if v.isTruthy then m.ip + 2 else a) = b) :
    Leads host m (m.onward { m.store with stack := vs } b) := by
  subst hb
  exact .step ((@Transition.jumpIfFalse host m a v vs hs).step hf)

namespace Realizes

variable {fuel base a : Nat} {js ks : List Instruction} {x y : Eval Unit}

theorem ifThen (h : Realizes host ns fuel base js x)
    (h' : Realizes host ns fuel (base + extent js + 2) ks y) (ha : a = base + extent js + 2 + extent ks) :
    Realizes host ns fuel base (js ++ [.jumpIfFalse a] ++ ks)
      (do x; if (← Eval.ofAction Machine.pop).isTruthy then y) := by
  intro m hm hip hf
  have hstop : base + extent (js ++ [.jumpIfFalse a] ++ ks) = a := by
    simp only [extent_append, ha, Nat.add_assoc]
    rfl
  rw [hstop]
  rw [List.append_assoc] at hf
  refine (h m hm hip hf.left).bind hm fun s hm' => ?_
  have hjump : (m.onward s (base + extent js)).Faces (Script.streams ns) (.jumpIfFalse a :: ks) :=
    hf.right rfl rfl (by rw [hip]; rfl)
  refine .pop hjump ⟨_, rfl⟩ fun v vs hs => ?_
  cases hv : v.isTruthy with
  | false => exact leads_of_jumpIfFalse hjump hs (by rw [hv]; rfl)
  | true =>
    have hl : Leads host _ (m.onward { s with stack := vs } (base + extent js + 2)) :=
      leads_of_jumpIfFalse hjump hs (by rw [hv]; rfl)
    rw [ha]
    exact Meets.of_leads (h' _ (hl.valid hm') rfl (hjump.tail rfl rfl rfl)) hl

theorem meets_repeatWhile {start exit : Nat} (h : Realizes host ns fuel base js x)
    (h' : Realizes host ns fuel start ks y) (hstart : start = base + extent js + 2) {k : Nat}
    (hk : k ≤ fuel) {m : Machine} (hm : Valid ns m) (hip : m.ip = base)
    (hf : m.Faces (Script.streams ns) (js ++ ([.jumpIfFalse exit] ++ (ks ++ [.jump base])))) :
    Meets host ns k m exit
      (Eval.repeatWhile k (do x; return (← Eval.ofAction Machine.pop).isTruthy) y m.store) := by
  subst hstart
  induction k generalizing m with
  | zero => exact ⟨0, Nat.le_refl 0, runs_zero host m, rfl⟩
  | succ k ih =>
    rw [Eval.repeatWhile]
    simp only [bind_assoc, pure_bind]
    -- The condition and the body have all the fuel, more than is left for the turns.
    refine ((h m hm hip hf.left).mono hk).bind hm fun s hm' => ?_
    have hout : (m.onward s (base + extent js)).Faces (Script.streams ns)
        ([.jumpIfFalse exit] ++ (ks ++ [.jump base])) := hf.right rfl rfl (by rw [hip]; rfl)
    refine .pop hout ⟨_, rfl⟩ fun v vs hs => ?_
    cases hv : v.isTruthy with
    | false => exact leads_of_jumpIfFalse hout hs (by rw [hv]; rfl)
    | true =>
      have hl : Leads host _ (m.onward { s with stack := vs } (base + extent js + 2)) :=
        leads_of_jumpIfFalse hout hs (by rw [hv]; rfl)
      have hbody : (m.onward { s with stack := vs } (base + extent js + 2)).Faces
          (Script.streams ns) (ks ++ [.jump base]) := hout.tail rfl rfl rfl
      refine Meets.of_leads (((h' _ (hl.valid hm') rfl hbody.left).mono hk).bind (hl.valid hm')
        fun s' hm'' => ?_) hl
      have hback : (m.onward s' (base + extent js + 2 + extent ks)).Faces (Script.streams ns)
          [.jump base] := hbody.right rfl rfl rfl
      have hjump : step host (m.onward s' (base + extent js + 2 + extent ks)) =
          .ok true (m.onward s' base) := (@Transition.jump host _ base).step hback
      have hturn := ih (m := m.onward s' base) (Nat.le_of_succ_le hk)
        ((Leads.step hjump).valid hm'') rfl (hf.onward hip)
      exact .of_step (s := s') (a := base) hturn hjump

theorem loop {start exit : Nat} (h : Realizes host ns fuel base js x)
    (h' : Realizes host ns fuel start ks y) (hstart : start = base + extent js + 2)
    (hexit : exit = start + extent ks + 2) :
    Realizes host ns fuel base (js ++ ([.jumpIfFalse exit] ++ (ks ++ [.jump base])))
      (Eval.repeatWhile fuel (do x; return (← Eval.ofAction Machine.pop).isTruthy) y) := by
  intro m hm hip hf
  have hstop : base + extent (js ++ ([.jumpIfFalse exit] ++ (ks ++ [.jump base]))) = exit := by
    simp only [extent_append, hexit, hstart, Nat.add_assoc]
    rfl
  rw [hstop]
  exact h.meets_repeatWhile h' hstart (Nat.le_refl fuel) hm hip hf

end Realizes

end Machine

end Scriptlet
