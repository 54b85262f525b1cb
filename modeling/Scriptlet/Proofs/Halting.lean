import Scriptlet.Proofs.Jumps
import Scriptlet.Proofs.Outlook

/-! Scripts that stop.  Only the ways back of loops lead back in a stream, and only a function of
the script leads from one stream to another.  A script that has neither loops nor functions goes
ahead with every step, whatever builtins it calls, so it comes to an end. -/

namespace Scriptlet

open Code Node

namespace Machine

variable {host : Host} {m m' : Machine}

/-- The machine makes `n` steps in the stream where it is, each of which leads ahead, and not one
more. -/
structure StopsAhead (host : Host) (m : Machine) (n : Nat) : Prop where
  runs : Runs host m n
  stops : ∀ m', step host (m.after host n) ≠ .ok true m'
  within : ∀ k ≤ n, (m.after host k).code = m.code ∧ (m.after host k).calls = []
  ahead : ∀ j k, j < k → k ≤ n → (m.after host j).ip < (m.after host k).ip

theorem run_eq_last {n fuel : Nat} (h : Runs host m n)
    (hstop : ∀ m', step host (m.after host n) ≠ .ok true m') (hfuel : n < fuel) :
    run host fuel m = run host 1 (m.after host n) := by
  obtain ⟨k, rfl⟩ := Nat.exists_eq_add_of_lt hfuel
  rw [Nat.add_assoc, run_add h, run_succ, run_succ]
  cases hs : step host (m.after host n) with
  | error f m' => rfl
  | ok b m' =>
    cases b with
    | true => exact absurd hs (hstop m')
    | false => rfl

theorem run_of_stops {n fuel : Nat} (h : Runs host m n)
    (hstop : ∀ m', step host (m.after host n) ≠ .ok true m') (hfuel : n < fuel) :
    (∃ m', run host fuel m = .ok true m') ∨ ∃ f m', run host fuel m = .error f m' := by
  rw [run_eq_last h hstop hfuel, run_succ]
  cases hs : step host (m.after host n) with
  | error f m' => exact .inr ⟨f, m', rfl⟩
  | ok b m' =>
    cases b with
    | true => exact absurd hs (hstop m')
    | false =>
      simp only [ended]
      split
      · exact .inl ⟨_, rfl⟩
      · exact .inr ⟨_, _, rfl⟩

theorem exists_stop_of_bounded {bound : Nat} (h : ∀ n, Runs host m n → n ≤ bound) :
    ∃ n, Runs host m n ∧ ∀ m', step host (m.after host n) ≠ .ok true m' := by
  classical
  have hexists : ∃ n, ¬ Runs host m (n + 1) := by
    refine ⟨bound, fun hruns => ?_⟩
    have := h _ hruns
    omega
  -- the least number after which a step does not go on
  have hruns : Runs host m (Nat.find hexists) := by
    cases hn : Nat.find hexists with
    | zero => exact runs_zero host m
    | succ n =>
      apply Decidable.of_not_not
      exact Nat.find_min hexists (by omega)
  refine ⟨_, hruns, fun m' hstep => ?_⟩
  exact Nat.find_spec hexists (hruns.add (runs_one hstep))

end Machine

namespace Script

variable {ns : List Node}

def IsStraight (ns : List Node) : Prop :=
  ∀ n, Occurs n ns → n.kind ≠ .forLoop ∧ n.kind ≠ .function

instance (ns : List Node) : Decidable (IsStraight ns) :=
  decidable_of_iff (∀ n ∈ preorderAll ns, n.kind ≠ .forLoop ∧ n.kind ≠ .function)
    (by simp only [mem_preorderAll_iff, IsStraight])

namespace IsStraight

theorem functions_eq_nil (h : IsStraight ns) : functions ns = [] := by
  rw [List.eq_nil_iff_forall_not_mem]
  intro d hd
  exact (h _ (occurs_of_mem_declaredAll hd)).2 rfl

theorem loops_eq_nil (h : IsStraight ns) (hns : CompilableAll ns) : loopsOfBlock 0 ns = [] := by
  have hnone : (preorderAll ns).filter (·.kind = .forLoop) = [] := by
    rw [List.filter_eq_nil_iff]
    intro n hn
    simpa using (h n (mem_preorderAll_iff.1 hn)).1
  have hperm := loops_perm hns
  rw [hnone, loops, h.functions_eq_nil] at hperm
  simpa using hperm.eq_nil

theorem streams_eq (h : IsStraight ns) (hns : CompilableAll ns) :
    streams ns = [lowerBlock .start 0 ns] := by
  have hlength := (describes_functions hns).length_eq
  rw [h.functions_eq_nil] at hlength
  rw [streams, List.eq_nil_of_length_eq_zero hlength.symm, List.map_nil]

theorem goesBack (h : IsStraight ns) (hns : CompilableAll ns) :
    GoesBack 0 (lowerBlock .start 0 ns) [] := by
  have hblock := goesBack_lowerBlock .start 0 ns hns
  rwa [h.loops_eq_nil hns] at hblock

end IsStraight

end Script

namespace Machine

open Script

variable {ns : List Node} {host : Host} {m m' : Machine}

theorem Sound.ahead_of_step (hm : Sound ns m) (h : IsStraight ns) (hns : CompilableAll ns)
    (hc : m.calls = []) (hstep : step host m = .ok true m') :
    m'.code = m.code ∧ m'.calls = [] ∧ m.ip < m'.ip := by
  obtain ⟨i, js, hf, ht⟩ | ⟨-, a, calls, hcalls, -⟩ := cases_of_step hm.placed hstep
  · obtain ⟨hp, is, hs, hi⟩ := hf
    have hgoes : GoesBack 0 is [] := by
      rw [h.streams_eq hns] at hs
      cases List.mem_singleton.1 (List.mem_of_getElem? hs)
      exact h.goesBack hns
    have hlocated : (m.ip, i) ∈ located 0 is := by
      obtain ⟨pre, post, rfl, hip⟩ := hi
      exact mem_located_iff.2 ⟨pre, js ++ post, by simp, by rw [hip, Nat.zero_add]⟩
    cases ht.shifts.2 with
    | within hcode hcalls hip =>
      refine ⟨hcode, hcalls.trans hc, ?_⟩
      have hwidth := i.width_pos
      rcases hip with hip | htarget
      · omega
      · cases i with
        | jump t =>
          have hback : (m.ip, t) ∈ (located 0 is).filterMap jump? :=
            List.mem_filterMap.2 ⟨_, hlocated, rfl⟩
          rw [hgoes.back] at hback
          cases hback
        | jumpIfFalse t =>
          cases htarget
          exact hgoes.ahead m.ip _ hlocated
        | _ => cases htarget
    | @into args id vs _ hstack =>
      -- the one stream is that of the script, which no function has
      have hlinked := hm.linked id (.stack (by simp [hstack]))
      rw [hp, size_code_assemble, h.streams_eq hns, List.length_singleton] at hlinked
      omega
    | back hcalls => simp [hc] at hcalls
  · simp [hc] at hcalls

theorem ahead_of_runs (h : IsStraight ns) (hns : CompilableAll ns) {n : Nat}
    (hruns : Runs host (ofProgram (assemble (streams ns))) n) :
    ∀ k ≤ n, ((ofProgram (assemble (streams ns))).after host k).code = 0 ∧
      ((ofProgram (assemble (streams ns))).after host k).calls = [] ∧
      ∀ j < k, ((ofProgram (assemble (streams ns))).after host j).ip <
        ((ofProgram (assemble (streams ns))).after host k).ip := by
  intro k hk
  induction k with
  | zero => exact ⟨rfl, rfl, fun j hj => absurd hj (Nat.not_lt_zero j)⟩
  | succ k ih =>
    obtain ⟨hcode, hcalls, hahead⟩ := ih (by omega)
    obtain ⟨m', hstep⟩ := hruns k hk
    have hsucc : (ofProgram (assemble (streams ns))).after host (k + 1) = m' := by
      rw [after_succ, successor, hstep, stateOf_ok]
    obtain ⟨hcode', hcalls', hip⟩ :=
      (sound_after ns host k).ahead_of_step h hns hcalls hstep
    rw [hsucc]
    refine ⟨hcode'.trans hcode, hcalls', fun j hj => ?_⟩
    rcases Nat.lt_succ_iff_lt_or_eq.1 hj with hj | rfl
    · exact Nat.lt_trans (hahead j hj) hip
    · exact hip

theorem Placed.ip_le {streams : List (List Instruction)} (hm : m.Placed streams)
    {is : List Instruction} (hs : streams[m.code]? = some is) : m.ip ≤ extent is := by
  obtain ⟨i, js, -, is', hs', pre, post, rfl, hip⟩ | ⟨-, is', hs', hip⟩ := hm
  · cases hs.symm.trans hs'
    rw [hip, List.append_assoc, extent_append]
    exact Nat.le_add_right _ _
  · cases hs.symm.trans hs'
    exact Nat.le_of_eq hip

theorem le_extent_of_runs (h : IsStraight ns) (hns : CompilableAll ns) {n : Nat}
    (hruns : Runs host (ofProgram (assemble (streams ns))) n) :
    n ≤ extent (lowerBlock .start 0 ns) := by
  have hahead := ahead_of_runs h hns hruns
  -- Every step leads to a higher address.
  have hle (k : Nat) (hk : k ≤ n) :
      k ≤ ((ofProgram (assemble (streams ns))).after host k).ip := by
    induction k with
    | zero => exact Nat.zero_le _
    | succ k ih =>
      exact Nat.lt_of_le_of_lt (ih (by omega)) ((hahead _ hk).2.2 k (Nat.lt_succ_self k))
  have hplaced := (sound_after ns host n).placed
  have hcode := (hahead n (Nat.le_refl n)).1
  refine Nat.le_trans (hle n (Nat.le_refl n)) (hplaced.ip_le ?_)
  rw [hcode]
  rfl

theorem exists_stopsAhead (h : IsStraight ns) (hns : CompilableAll ns) (host : Host) :
    ∃ n, StopsAhead host (ofProgram (assemble (streams ns))) n ∧
      n ≤ extent (lowerBlock .start 0 ns) := by
  have hbound (n : Nat) (hn : Runs host (ofProgram (assemble (streams ns))) n) :=
    le_extent_of_runs h hns hn
  obtain ⟨n, hruns, hstop⟩ := exists_stop_of_bounded hbound
  have hahead := ahead_of_runs h hns hruns
  refine ⟨n, ⟨hruns, hstop, fun k hk => ⟨(hahead k hk).1, (hahead k hk).2.1⟩, ?_⟩,
    le_extent_of_runs h hns hruns⟩
  intro j k hj hk
  exact (hahead k hk).2.2 j hj

end Machine

namespace Script

/-- In every stream of a script, a jump that takes a condition leads ahead, and those that lead
back are the jumps of loops, one for each.  Hence a script without loops and functions goes ahead
and stops, at a halt or a fault, before it has executed an instruction twice.  A run of it is just
these steps, as far as its fuel goes, and ends with the one that goes no further. -/
theorem only_loops_go_back {ns : List Node} {p : Program} {c : Compiler}
    (h : Program.ofNodes ns = .ok p c) :
    (loops ns).length = p.code.size ∧
    ((loops ns).flatten.map Loop.node).Perm ((preorderAll ns).filter (·.kind = .forLoop)) ∧
    (∀ (id : Nat) slots, p.code[id]? = some slots →
      ∃ ls, (loops ns)[id]? = some ls ∧ Slot.LoopsBack slots ls) ∧
    (IsStraight ns → ∀ host, ∃ n slots, p.code[0]? = some slots ∧ n ≤ slots.size ∧
      Machine.StopsAhead host (Machine.ofProgram p) n ∧
      (∀ fuel ≤ n, Machine.run host fuel (Machine.ofProgram p) =
        .ok false ((Machine.ofProgram p).after host fuel)) ∧
      ∀ fuel, n < fuel →
        Machine.run host fuel (Machine.ofProgram p) =
          Machine.run host 1 ((Machine.ofProgram p).after host n) ∧
        ((∃ m, Machine.run host fuel (Machine.ofProgram p) = .ok true m) ∨
          ∃ f m, Machine.run host fuel (Machine.ofProgram p) = .error f m)) := by
  obtain ⟨hns, rfl⟩ := Program.ofNodes_eq_ok_iff.1 ⟨c, h⟩
  refine ⟨?_, loops_perm hns, fun id slots hid => ?_, fun hstraight host => ?_⟩
  · rw [size_code_assemble, length_loops hns]
  · obtain ⟨is, his, rfl⟩ := exists_of_code_assemble hid
    obtain ⟨ls, hls, hgoes⟩ := exists_goesBack hns his
    exact ⟨ls, hls, hgoes.loopsBack⟩
  · obtain ⟨n, hstops, hn⟩ := Machine.exists_stopsAhead hstraight hns host
    have hmain : (streams ns)[0]? = some (lowerBlock .start 0 ns) := rfl
    refine ⟨n, _, code_assemble hmain, by simpa using hn, hstops, fun fuel hfuel => ?_,
      fun fuel hfuel => ⟨?_, ?_⟩⟩
    · exact Machine.run_of_runs (hstops.runs.mono hfuel)
    · exact Machine.run_eq_last hstops.runs hstops.stops hfuel
    · exact Machine.run_of_stops hstops.runs hstops.stops hfuel

def straight : List Node :=
  [.assign false (.value (.variable "t")) (.value .table),
    .ifThen (.notEqual (.value (.variable "t")) (.value (.boolean false)))
      [.call none "print" [.value (.string "on")],
        .ifThen (.call (some "table") "len" [.value (.variable "t")])
          [.call (some "table") "sort" [.value (.variable "t")], .ret (.value (.number 1))]],
    .call none "t" []]

theorem only_loops_go_back_straight :
    ∃ p c, Program.ofNodes straight = .ok p c ∧ IsStraight straight ∧
      ∀ host, ∃ n slots, p.code[0]? = some slots ∧ n ≤ slots.size ∧
        Machine.StopsAhead host (Machine.ofProgram p) n ∧
        (∀ fuel ≤ n, Machine.run host fuel (Machine.ofProgram p) =
          .ok false ((Machine.ofProgram p).after host fuel)) ∧
        ∀ fuel, n < fuel →
          Machine.run host fuel (Machine.ofProgram p) =
            Machine.run host 1 ((Machine.ofProgram p).after host n) ∧
          ((∃ m, Machine.run host fuel (Machine.ofProgram p) = .ok true m) ∨
            ∃ f m, Machine.run host fuel (Machine.ofProgram p) = .error f m) := by
  have hstraight : IsStraight straight := by decide
  have hp : ∃ p c, Program.ofNodes straight = .ok p c := ⟨_, _, rfl⟩
  obtain ⟨p, c, hp⟩ := hp
  exact ⟨p, c, hp, hstraight, (only_loops_go_back hp).2.2.2 hstraight⟩

end Script

end Scriptlet
