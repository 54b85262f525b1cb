import Scriptlet.Proofs.Declarations
import Scriptlet.Proofs.Refinement

/-! A compiled script and its tree.  The machine halts or fails if and only if evaluation of
the tree does, with the same store and the same fault; where evaluation never comes to an end,
the machine runs for ever, and has written what evaluation has written. -/

namespace Scriptlet

open Code

namespace Script

open Machine

theorem invokes_invoke (host : Host) (ns : List Node) (fuel : Nat) :
    Node.Invokes host ns fuel (invoke host ns fuel) := by
  induction fuel with
  | zero =>
    intro m args id vs _ _ _
    exact ⟨0, Nat.le_refl 0, runs_zero host m, rfl⟩
  | succ fuel ih =>
    intro m args id vs hm hf hs
    obtain ⟨hpos, hid⟩ := hm.linked id (.stack (hs ▸ List.mem_cons_self))
    obtain ⟨k, rfl⟩ := Nat.exists_eq_add_of_le' hpos
    have hlen : k < (routines ns).length := by
      rw [hm.program, size_code_assemble] at hid
      simpa [streams] using hid
    have hr : routine? ns (k + 1) = some (routines ns)[k] := List.getElem?_eq_getElem hlen
    have hstream : (streams ns)[k + 1]? = some (routines ns)[k].lower := by
      simp [streams, List.getElem?_eq_getElem hlen]
    rw [invoke, hr]
    exact Routine.meets_eval ih hm hf hs hid hstream

end Script

namespace Machine

variable {host : Host} {ns : List Node} {m m' : Machine}

theorem run_of_le {n k : Nat} (hn : n ≤ k) (h : ∀ m', run host n m ≠ .ok false m') :
    run host k m = run host n m := by
  induction n generalizing m k with
  | zero => exact absurd rfl (h m)
  | succ n ih =>
    obtain ⟨k, rfl⟩ : ∃ j, k = j + 1 := ⟨k - 1, by omega⟩
    rw [run] at h ⊢
    rw [run]
    simp only [Bind.bind, EStateM.bind] at h ⊢
    cases hstep : step host m with
    | error f m' => rfl
    | ok b m' =>
      cases b with
      | false => rfl
      | true =>
        rw [hstep] at h
        exact ih (Nat.le_of_succ_le_succ hn) h

/-- A run has the result that evaluation has.  Out of fuel, they have written the same. -/
inductive Alike : EStateM.Result Interrupt Store Unit → EStateM.Result Fault Machine Bool → Prop
  | halt {m : Machine} : Alike (.ok () m.store) (.ok true m)
  | fail {f : Fault} {m : Machine} : Alike (.error (.failed f) m.store) (.error f m)
  | exhausted {s : Store} {m : Machine} : m.written = s.written →
    Alike (.error .exhausted s) (.ok false m)

theorem alike_of_halt {m₁ m₂ : Machine} (hl : Leads host m m₁)
    (hstep : step host m₁ = .ok false m₂) (k : Nat) :
    ∃ n, k ≤ n ∧ Alike (Eval.ofAction (flush host) m₂.store) (run host n m) := by
  obtain ⟨n, hr, rfl⟩ := hl
  refine ⟨n + (k + 1), by omega, ?_⟩
  have hflush := isLocal_flush host m₂
  rw [run_add hr, run, bind_of_ok hstep, Eval.ofAction]
  simp only [Bool.false_eq_true, if_false, Bind.bind, EStateM.bind]
  cases hf : flush host m₂.store.machine with
  | ok _ m₃ =>
    rw [hf] at hflush
    rw [hflush]
    exact @Alike.halt (m₂.withStore m₃.store)
  | error f m₃ =>
    rw [hf] at hflush
    rw [hflush]
    exact @Alike.fail f (m₂.withStore m₃.store)

theorem step_of_ret {v : Value} {vs : List Value} (hf : m.Faces (Script.streams ns) [.ret])
    (hs : m.stack = v :: vs) (hc : m.calls = []) :
    step host m = .ok false { m with stack := vs } := by
  rw [step_of_faces hf, execute, Instruction.opcode, perform, doReturn, bind_of_ok (pop_of_cons hs),
    bind_of_ok (get_machine _)]
  simp only [hc]
  rfl

theorem exists_alike (host : Host) (ns : List Node) (fuel : Nat) :
    ∃ n, fuel ≤ n ∧ Alike (Script.evaluate host ns fuel)
      (run host n (ofProgram (assemble (Script.streams ns)))) := by
  have hm := valid_ofProgram ns
  have hscript := Node.realizes_evalBlock (Script.invokes_invoke host ns fuel) .start 0 ns
    (ofProgram (assemble (Script.streams ns))) hm rfl ⟨rfl, _, rfl, .self _⟩
  have hstore : (ofProgram (assemble (Script.streams ns))).store = .initial := rfl
  rw [hstore, Nat.zero_add] at hscript
  rw [Script.evaluate]
  simp only [Bind.bind, EStateM.bind, Eval.result]
  cases hx : Node.evalBlock host (Script.invoke host ns fuel) fuel .start ns .initial with
  | ok _ s =>
    rw [hx] at hscript
    have hend : ((ofProgram (assemble (Script.streams ns))).onward s _).AtEnd (Script.streams ns) :=
      ⟨rfl, _, rfl, rfl⟩
    exact alike_of_halt hscript (step_of_atEnd hend host) fuel
  | error i s =>
    rw [hx] at hscript
    cases i with
    | returned v =>
      obtain ⟨a, hl, hf⟩ := hscript
      exact alike_of_halt hl (step_of_ret hf rfl rfl) fuel
    | failed f =>
      obtain ⟨_, m₂, ⟨n, hr, rfl⟩, hstep, rfl⟩ := hscript
      refine ⟨n + (fuel + 1), by omega, ?_⟩
      rw [run_add hr, run]
      simp only [Bind.bind, EStateM.bind, hstep]
      exact .fail
    | exhausted =>
      obtain ⟨n, hn, hr, hw⟩ := hscript
      refine ⟨n, hn, ?_⟩
      have hrun := run_add hr 0
      rw [Nat.add_zero] at hrun
      rw [hrun]
      exact .exhausted hw

namespace Alike

variable {r : EStateM.Result Interrupt Store Unit} {q : EStateM.Result Fault Machine Bool}
  {s : Store} {f : Fault}

theorem of_halt (h : Alike r (.ok true m)) : r = .ok () m.store := by
  cases h with
  | halt => rfl

theorem of_fail (h : Alike r (.error f m)) : r = .error (.failed f) m.store := by
  cases h with
  | fail => rfl

theorem of_running (h : Alike r (.ok false m)) : ∃ s, r = .error .exhausted s := by
  cases h with
  | exhausted => exact ⟨_, rfl⟩

theorem halts (h : Alike (.ok () s) q) : ∃ m, q = .ok true m ∧ m.store = s := by
  cases h with
  | halt => exact ⟨_, rfl, rfl⟩

theorem fails (h : Alike (.error (.failed f) s) q) : ∃ m, q = .error f m ∧ m.store = s := by
  cases h with
  | fail => exact ⟨_, rfl, rfl⟩

theorem runs (h : Alike (.error .exhausted s) q) :
    ∃ m, q = .ok false m ∧ m.written = s.written := by
  cases h with
  | exhausted hw => exact ⟨_, rfl, hw⟩

end Alike

/-- Runs of a machine and evaluation of the tree `ns` come to the same end, or to none, and
a function that is declared in the tree is evaluated by its own body. -/
structure Adequate (host : Host) (ns : List Node) (m : Machine) : Prop where
  functions : ∀ id q f params body, q ∈ Script.parts ns id → q.node = .function f params body →
    Script.routine? ns q.scoping.next = some ⟨params, body, q.scoping.enterFunction params⟩
  halts : ∀ s, (∃ n m', run host n m = .ok true m' ∧ m'.store = s) ↔
    ∃ fuel, Script.evaluate host ns fuel = .ok () s
  fails : ∀ f s, (∃ n m', run host n m = .error f m' ∧ m'.store = s) ↔
    ∃ fuel, Script.evaluate host ns fuel = .error (.failed f) s
  diverges : (∀ n, ∃ m', run host n m = .ok false m') ↔
    ∀ fuel, ∃ s, Script.evaluate host ns fuel = .error .exhausted s
  output : ∀ fuel s, Script.evaluate host ns fuel = .error .exhausted s →
    ∃ n m', fuel ≤ n ∧ run host n m = .ok false m' ∧ m'.written = s.written

theorem alike_of_run {n : Nat} {r : EStateM.Result Fault Machine Bool}
    (h : run host n (ofProgram (assemble (Script.streams ns))) = r) (hr : ∀ m, r ≠ .ok false m) :
    Alike (Script.evaluate host ns n) r := by
  obtain ⟨k, hk, ha⟩ := exists_alike host ns n
  rwa [run_of_le hk (h ▸ hr), h] at ha

theorem adequate {s s' : TokenStream} {ns : List Node} (h : s.parse = .ok ns s') :
    ∃ p c, Program.ofNodes ns = .ok p c ∧ ∀ host, Adequate host ns (ofProgram p) := by
  have hns := TokenStream.statement_of_parse h
  obtain ⟨c, hc⟩ := Program.ofNodes_of_statement hns
  refine ⟨_, c, hc, fun host => ⟨?_, fun s => ⟨?_, ?_⟩, fun f s => ⟨?_, ?_⟩, ⟨?_, ?_⟩, ?_⟩⟩
  · intro id q f params body hq hf
    exact Script.routine?_of_mem_parts hq hf
  · rintro ⟨n, m, hrun, rfl⟩
    exact ⟨n, (alike_of_run hrun (by simp)).of_halt⟩
  · rintro ⟨fuel, he⟩
    obtain ⟨n, -, ha⟩ := exists_alike host ns fuel
    rw [he] at ha
    exact ⟨n, ha.halts⟩
  · rintro ⟨n, m, hrun, rfl⟩
    exact ⟨n, (alike_of_run hrun (by simp)).of_fail⟩
  · rintro ⟨fuel, he⟩
    obtain ⟨n, -, ha⟩ := exists_alike host ns fuel
    rw [he] at ha
    exact ⟨n, ha.fails⟩
  · intro hrun fuel
    obtain ⟨n, -, ha⟩ := exists_alike host ns fuel
    obtain ⟨m, hm⟩ := hrun n
    rw [hm] at ha
    exact ha.of_running
  · intro heval n
    obtain ⟨s, hs⟩ := heval n
    by_cases hend : ∀ m, run host n (ofProgram (assemble (Script.streams ns))) ≠ .ok false m
    · have ha := alike_of_run rfl hend
      rw [hs] at ha
      obtain ⟨m, hm, -⟩ := ha.runs
      exact ⟨m, hm⟩
    · simpa using hend
  · intro fuel s he
    obtain ⟨n, hn, ha⟩ := exists_alike host ns fuel
    rw [he] at ha
    obtain ⟨m, hm, hw⟩ := ha.runs
    exact ⟨n, m, hn, hm, hw⟩

theorem adequate_callInLoop :
    ∃ s s' ns p c n m, TokenStream.parse s = .ok ns s' ∧ Program.ofNodes ns = .ok p c ∧
      Adequate ⟨.unlimited, id⟩ ns (ofProgram p) ∧
      run ⟨.unlimited, id⟩ n (ofProgram p) = .ok true m ∧ m.global "y" = .number 2 := by
  have h : (TokenStream.mk ([.keyword .functionKw, .ident "f", .symbol .lparen, .ident "x",
      .symbol .rparen, .ident "y", .symbol .assign, .ident "x", .keyword .endKw, .keyword .forKw,
      .ident "i", .symbol .assign, .number 1, .symbol .comma, .number 3, .keyword .doKw,
      .ident "f", .symbol .lparen, .ident "i", .symbol .rparen,
      .keyword .endKw].map (⟨·, .start⟩)) .start).parse =
      .ok [.function "f" ["x"] [.assign false (.value (.variable "y")) (.value (.variable "x"))],
        .forLoop (.assign true (.value (.variable "i")) (.value (.number 1))) (.value (.number 3))
          [.call none "f" [.value (.variable "i")]]] ⟨[], .start⟩ := by
    cbv
  have heval : Script.evaluate ⟨.unlimited, id⟩
      [.function "f" ["x"] [.assign false (.value (.variable "y")) (.value (.variable "x"))],
        .forLoop (.assign true (.value (.variable "i")) (.value (.number 1))) (.value (.number 3))
          [.call none "f" [.value (.variable "i")]]] 3 =
      .ok () ⟨[], [("y", .number 2) :: ("f", .function (.compiled 1)) :: globals], initialHeap,
        .empty⟩ := by
    cbv
  obtain ⟨p, c, hc, ha⟩ := adequate h
  obtain ⟨n, m, hrun, hm⟩ := ((ha ⟨.unlimited, id⟩).halts _).2 ⟨3, heval⟩
  refine ⟨_, _, _, p, c, n, m, h, hc, ha _, hrun, ?_⟩
  have hframes : m.frames = _ := congrArg Store.frames hm
  rw [global, hframes]
  rfl

end Machine

end Scriptlet
