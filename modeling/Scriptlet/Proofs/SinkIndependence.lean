import Scriptlet.Proofs.Outlook

/-! Two sinks for one program.  As long as neither refuses a line, no step tells them apart, and
runs differ by their flush alone.  A sink that refuses a line breaks off the run that a sink
without limits lets go on. -/

namespace Scriptlet.Machine

variable {host : Host} {address : Nat → Nat} {s t : Sink} {m m' : Machine}

def Refused (host : Host) (m : Machine) : Prop :=
  ∃ line kept reason, m.line? host.address = some line ∧
    host.sink.write m.written line = .refused kept reason

def Unrefused (host : Host) (m : Machine) (n : Nat) : Prop :=
  ∀ k, k < n → Runs host m k → ¬ Refused host (m.after host k)

def lines (host : Host) (m : Machine) : Nat → List ByteArray
  | 0 => []
  | n + 1 => lines host m n ++ ((m.after host n).line? host.address).toList

def flushed (s : Sink) : EStateM.Result Fault Machine Bool → EStateM.Result Fault Machine Bool
  | .ok true m => ended s m
  | r => r

theorem not_refused_unlimited (address : Nat → Nat) (m : Machine) :
    ¬ Refused ⟨.unlimited, address⟩ m := by
  rintro ⟨line, kept, reason, -, h⟩
  cases h

theorem unrefused_unlimited (address : Nat → Nat) (m : Machine) (n : Nat) :
    Unrefused ⟨.unlimited, address⟩ m n := fun _ _ _ => not_refused_unlimited address _

theorem Unrefused.mono {n k : Nat} (h : Unrefused host m n) (hk : k ≤ n) : Unrefused host m k :=
  fun j hj => h j (Nat.lt_of_lt_of_le hj hk)

theorem Unrefused.head {n : Nat} (h : Unrefused host m (n + 1)) : ¬ Refused host m :=
  h 0 (Nat.succ_pos n) (runs_zero host m)

theorem Unrefused.tail {n : Nat} (h : Unrefused host m (n + 1))
    (hstep : step host m = .ok true m') : Unrefused host m' n := by
  intro k hk hr
  rw [← after_succ_of_step hstep]
  exact h (k + 1) (Nat.succ_lt_succ hk) (runs_succ_of_step hstep hr)

theorem step_of_not_refused {line : ByteArray} (h : ¬ Refused host m)
    (hl : m.line? host.address = some line) : step host m = .ok true (m.printed line) := by
  rw [step_of_line? hl]
  cases hw : host.sink.write m.written line with
  | taken => rfl
  | refused kept reason => exact absurd ⟨line, kept, reason, hl, hw⟩ h

theorem step_eq_of_not_refused (hs : ¬ Refused ⟨s, address⟩ m) (ht : ¬ Refused ⟨t, address⟩ m) :
    step ⟨s, address⟩ m = step ⟨t, address⟩ m := by
  cases hl : m.line? address with
  | none => exact step_congr hl _ _
  | some line => rw [step_of_not_refused hs hl, step_of_not_refused ht hl]

theorem exists_written_step (host : Host) (m : Machine) :
    ∃ rest, (m.successor host).written = m.written ++ rest := by
  cases hl : m.line? host.address with
  | none => exact ⟨.empty, by rw [successor, (spares_step hl host).written, ByteArray.append_empty]⟩
  | some line =>
    rw [successor, step_of_line? hl]
    cases host.sink.write m.written line with
    | taken => exact ⟨line, rfl⟩
    | refused kept reason => exact ⟨line.extract 0 kept, rfl⟩

theorem exists_written_after (host : Host) (m : Machine) (n : Nat) :
    ∃ rest, (m.after host n).written = m.written ++ rest := by
  induction n with
  | zero => exact ⟨.empty, ByteArray.append_empty.symm⟩
  | succ n ih =>
    obtain ⟨added, hn⟩ := ih
    obtain ⟨rest, hstep⟩ := exists_written_step host (m.after host n)
    exact ⟨added ++ rest, by rw [after_succ, hstep, hn, ByteArray.append_assoc]⟩

theorem exists_written_run (host : Host) (fuel : Nat) (m : Machine) :
    ∃ rest, (stateOf (run host fuel m)).written = m.written ++ rest := by
  obtain ⟨n, hn⟩ := exists_after_of_run host fuel m
  rw [hn]
  exact exists_written_after host m n

theorem runs_and_after_of_unrefused {k : Nat} (hs : Unrefused ⟨s, address⟩ m k)
    (ht : Unrefused ⟨t, address⟩ m k) (h : Runs ⟨s, address⟩ m k) :
    Runs ⟨t, address⟩ m k ∧ m.after ⟨s, address⟩ k = m.after ⟨t, address⟩ k := by
  induction k with
  | zero => exact ⟨runs_zero _ m, rfl⟩
  | succ k ih =>
    have hk : Runs ⟨s, address⟩ m k := h.mono (Nat.le_succ k)
    obtain ⟨htk, hafter⟩ := ih (hs.mono (Nat.le_succ k)) (ht.mono (Nat.le_succ k)) hk
    have hstep : step ⟨s, address⟩ (m.after ⟨t, address⟩ k) =
        step ⟨t, address⟩ (m.after ⟨t, address⟩ k) := by
      refine step_eq_of_not_refused ?_ (ht k (Nat.lt_succ_self k) htk)
      rw [← hafter]
      exact hs k (Nat.lt_succ_self k) hk
    obtain ⟨m', hm'⟩ := h k (Nat.lt_succ_self k)
    rw [hafter, hstep] at hm'
    refine ⟨htk.add (runs_one hm'), ?_⟩
    rw [after_succ, after_succ, hafter, successor, successor, hstep]

theorem run_eq_flushed {n : Nat} (h : Unrefused ⟨s, address⟩ m n) :
    run ⟨s, address⟩ n m = flushed s (run ⟨.unlimited, address⟩ n m) := by
  induction n generalizing m with
  | zero => rfl
  | succ n ih =>
    have heq := step_eq_of_not_refused h.head (not_refused_unlimited address m)
    rw [run_succ, run_succ, ← heq]
    cases hstep : step ⟨s, address⟩ m with
    | error f m' => rfl
    | ok b m' =>
      cases b with
      | true => exact ih (h.tail hstep)
      | false => rfl

theorem isOutput_of_run_unlimited {fuel : Nat} {f : Fault}
    (h : run ⟨.unlimited, address⟩ fuel m = .error f m') : f.isOutput = false := by
  obtain ⟨n, -, hstep | ⟨-, reason, hflush, -⟩⟩ := exists_of_run_eq_error h
  · cases hl : (m.after ⟨.unlimited, address⟩ n).line? address with
    | none =>
      have hspares := spares_step hl ⟨.unlimited, address⟩
      rw [hstep] at hspares
      exact hspares.2
    | some line =>
      rw [step_of_not_refused (not_refused_unlimited address _) hl] at hstep
      cases hstep
  · cases hflush

theorem unrefused_of_runs {k : Nat} (h : Runs host m k) : Unrefused host m k := by
  rintro j hj - ⟨line, kept, reason, hl, hw⟩
  obtain ⟨m', hstep⟩ := h j hj
  rw [step_of_line? hl, hw] at hstep
  cases hstep

theorem Runs.unlimited {k : Nat} (h : Runs ⟨s, address⟩ m k) :
    Runs ⟨.unlimited, address⟩ m k ∧
      m.after ⟨s, address⟩ k = m.after ⟨.unlimited, address⟩ k :=
  runs_and_after_of_unrefused (unrefused_of_runs h) (unrefused_unlimited address m k) h

theorem run_of_refused {line : ByteArray} {k fuel kept : Nat} {reason : String}
    (hr : Runs host m k) (hl : (m.after host k).line? host.address = some line)
    (hw : host.sink.write (m.after host k).written line = .refused kept reason) (hf : k < fuel) :
    run host fuel m = .error (.output reason) ((m.after host k).interrupted line kept) := by
  obtain ⟨j, rfl⟩ := Nat.exists_eq_add_of_lt hf
  have hstep := step_of_line? hl
  rw [hw] at hstep
  rw [Nat.add_assoc, run_add hr, run_succ, hstep]

theorem lines_unlimited {n : Nat} (h : Runs ⟨s, address⟩ m n) :
    lines ⟨s, address⟩ m n = lines ⟨.unlimited, address⟩ m n := by
  induction n with
  | zero => rfl
  | succ n ih =>
    have hn := h.mono (Nat.le_succ n)
    rw [lines, lines, ih hn, hn.unlimited.2]

theorem written_after {n : Nat} (h : Runs host m n) :
    (m.after host n).written = (lines host m n).foldl (· ++ ·) m.written := by
  induction n with
  | zero => rfl
  | succ n ih =>
    obtain ⟨m', hstep⟩ := h n (Nat.lt_succ_self n)
    rw [lines, List.foldl_append, ← ih (h.mono (Nat.le_succ n)), after_succ, successor]
    cases hl : (m.after host n).line? host.address with
    | none => exact (spares_step hl host).written
    | some line =>
      have hline := step_of_line? hl
      rw [hstep] at hline ⊢
      cases hw : host.sink.write (m.after host n).written line with
      | taken =>
        rw [hw] at hline
        cases hline
        rfl
      | refused kept reason =>
        rw [hw] at hline
        cases hline

theorem exists_written_of_printed {line : ByteArray} {k fuel : Nat} (kept : Nat)
    (hr : Runs host m (k + 1)) (hafter : m.after host (k + 1) = (m.after host k).printed line)
    (hf : k < fuel) :
    ∃ rest, (stateOf (run host fuel m)).written =
      ((m.after host k).interrupted line kept).written ++ rest := by
  obtain ⟨j, rfl⟩ := Nat.exists_eq_add_of_le hf
  obtain ⟨rest, hrest⟩ := exists_written_run host j (m.after host (k + 1))
  have hline : line.extract 0 kept ++ line.extract kept line.size = line := by
    simp [ByteArray.extract_append_extract]
  refine ⟨line.extract kept line.size ++ rest, ?_⟩
  calc (stateOf (run host (k + 1 + j) m)).written
      = ((m.after host k).written ++ line) ++ rest := by rw [run_add hr, hrest, hafter]; rfl
    _ = ((m.after host k).written ++ (line.extract 0 kept ++ line.extract kept line.size)) ++
          rest := by rw [hline]
    _ = _ := by simp only [interrupted, ByteArray.append_assoc]

theorem size_lineOf_pos (address : Nat → Nat) (v : Value) : 0 < (lineOf address v).size := by
  have hnewline : ("\n" : String).toUTF8.size = 1 := rfl
  rw [lineOf, String.toUTF8_eq_toByteArray, String.toByteArray_append, ByteArray.size_append]
  rw [String.toUTF8_eq_toByteArray] at hnewline
  omega

theorem size_written_lt {line : ByteArray} {j k : Nat} (h : Runs host m k) (hjk : j < k)
    (hl : (m.after host j).line? host.address = some line) :
    (m.after host j).written.size < (m.after host k).written.size := by
  obtain ⟨args, v, vs, -, -, rfl⟩ := cases_of_line? hl
  have hpos := size_lineOf_pos host.address v
  have hnot := unrefused_of_runs h j hjk (h.mono (Nat.le_of_lt hjk))
  obtain ⟨i, rfl⟩ := Nat.exists_eq_add_of_le hjk
  obtain ⟨rest, hrest⟩ := exists_written_after host (m.after host (j + 1)) i
  have hnext := after_one (step_of_not_refused hnot hl)
  rw [after_add, hrest, after_add, hnext, printed, ByteArray.size_append, ByteArray.size_append]
  omega

theorem eq_of_written_eq {line line' : ByteArray} {j k : Nat} (hj : Runs host m j)
    (hk : Runs host m k) (hlj : (m.after host j).line? host.address = some line)
    (hlk : (m.after host k).line? host.address = some line')
    (h : (m.after host j).written = (m.after host k).written) : j = k := by
  rcases Nat.lt_trichotomy j k with hlt | heq | hlt
  · have := size_written_lt hk hlt hlj
    rw [h] at this
    omega
  · exact heq
  · have := size_written_lt hj hlt hlk
    rw [h] at this
    omega

/-- Without limits, `m` has written `taken` when it comes to print at the step `k`. -/
structure PrintsAt (address : Nat → Nat) (m : Machine) (taken : ByteArray) (k : Nat) : Prop where
  runs : Runs ⟨.unlimited, address⟩ m k
  prints : ∃ line, (m.after ⟨.unlimited, address⟩ k).line? address = some line
  written : (m.after ⟨.unlimited, address⟩ k).written = taken

theorem PrintsAt.unique {taken : ByteArray} {j k : Nat} (hj : PrintsAt address m taken j)
    (hk : PrintsAt address m taken k) : j = k := by
  obtain ⟨hrj, ⟨line, hlj⟩, hwj⟩ := hj
  obtain ⟨hrk, ⟨line', hlk⟩, hwk⟩ := hk
  exact eq_of_written_eq hrj hrk hlj hlk (hwj.trans hwk.symm)

open Classical in
/-- The sink that judges each line of `m` by its number. -/
noncomputable def sinkOf (address : Nat → Nat) (m : Machine) (verdict : Nat → Verdict) : Sink where
  write taken _ :=
    if h : ∃ k, PrintsAt address m taken k then
      verdict (lines ⟨.unlimited, address⟩ m h.choose).length
    else .taken
  flush _ := none

theorem write_sinkOf {taken : ByteArray} {k : Nat} (h : PrintsAt address m taken k)
    (verdict : Nat → Verdict) (chunk : ByteArray) :
    (sinkOf address m verdict).write taken chunk =
      verdict (lines ⟨.unlimited, address⟩ m k).length := by
  have hex : ∃ k, PrintsAt address m taken k := ⟨k, h⟩
  rw [sinkOf]
  dsimp only
  rw [dif_pos hex, hex.choose_spec.unique h]

/-- Sinks decide by the bytes that they have taken, which is enough to decide by anything:
however the lines of a run are taken or refused in turn, there is a sink that does so. -/
theorem exists_sink_of_verdicts (address : Nat → Nat) (m : Machine) (verdict : Nat → Verdict) :
    ∃ s : Sink, ∀ k line, Runs ⟨s, address⟩ m k →
      (m.after ⟨s, address⟩ k).line? address = some line →
      s.write (m.after ⟨s, address⟩ k).written line = verdict (lines ⟨s, address⟩ m k).length := by
  refine ⟨sinkOf address m verdict, fun k line hr hl => ?_⟩
  obtain ⟨hrk, hk⟩ := hr.unlimited
  rw [lines_unlimited hr, hk]
  rw [hk] at hl
  exact write_sinkOf ⟨hrk, ⟨line, hl⟩, rfl⟩ verdict line

/-- What a sink is to a run.  Two sinks that refuse no line see the same machines, and the runs
come to the same but for what the flush of each makes of a halt.  A sink that refuses a line
has seen all machines until then, and it ends the run there, having taken a beginning of what
is written without limits. -/
theorem sink_independent (address : Nat → Nat) (m : Machine) :
    (∀ s t n, Unrefused ⟨s, address⟩ m n → Unrefused ⟨t, address⟩ m n →
      (∀ k, k ≤ n → Runs ⟨s, address⟩ m k →
        Runs ⟨t, address⟩ m k ∧ m.after ⟨s, address⟩ k = m.after ⟨t, address⟩ k) ∧
      ∃ r, run ⟨s, address⟩ n m = flushed s r ∧ run ⟨t, address⟩ n m = flushed t r ∧
        ∀ f m', r = .error f m' → f.isOutput = false) ∧
    ∀ s k line kept reason, Runs ⟨s, address⟩ m k →
      (m.after ⟨s, address⟩ k).line? address = some line →
      s.write (m.after ⟨s, address⟩ k).written line = .refused kept reason →
      (∀ j, j ≤ k → m.after ⟨s, address⟩ j = m.after ⟨.unlimited, address⟩ j) ∧
      Runs ⟨.unlimited, address⟩ m (k + 1) ∧
      lines ⟨.unlimited, address⟩ m (k + 1) = lines ⟨s, address⟩ m k ++ [line] ∧
      ∃ m', (∀ fuel, k < fuel → run ⟨s, address⟩ fuel m = .error (.output reason) m') ∧
        m'.written = (lines ⟨s, address⟩ m k).foldl (· ++ ·) m.written ++ line.extract 0 kept ∧
        ∀ fuel, k < fuel → ∃ rest,
          (stateOf (run ⟨.unlimited, address⟩ fuel m)).written = m'.written ++ rest := by
  constructor
  · intro s t n hs ht
    constructor
    · intro k hk
      exact runs_and_after_of_unrefused (hs.mono hk) (ht.mono hk)
    · exact ⟨_, run_eq_flushed hs, run_eq_flushed ht, fun f m' => isOutput_of_run_unlimited⟩
  · intro s k line kept reason hr hl hw
    -- Up to the line that is refused, the sink might as well be without limits.
    obtain ⟨hrk, hk⟩ := hr.unlimited
    have hl' := hk ▸ hl
    have hstep := step_of_not_refused (not_refused_unlimited address _) hl'
    have hrk' : Runs ⟨.unlimited, address⟩ m (k + 1) := hrk.add (runs_one hstep)
    have hafter : m.after ⟨.unlimited, address⟩ (k + 1) =
        (m.after ⟨.unlimited, address⟩ k).printed line := by
      rw [after_add, after_one hstep]
    refine ⟨fun j hj => (hr.mono hj).unlimited.2, hrk', ?_,
      (m.after ⟨s, address⟩ k).interrupted line kept, ?_, ?_, ?_⟩
    · rw [lines_unlimited hr, lines]
      dsimp only
      rw [hl', Option.toList_some]
    · intro fuel hf
      exact run_of_refused hr hl hw hf
    · rw [interrupted, written_after hr]
    · intro fuel hf
      rw [hk]
      exact exists_written_of_printed kept hrk' hafter hf

def oneLine : Machine :=
  { ofProgram ⟨#[#[.ofOpcode .getEnv, .ofOpcode .call]]⟩ with
    stack := [.string "print", .boolean true] }

theorem line?_oneLine (host : Host) :
    Runs host oneLine 1 ∧ (oneLine.after host 1).line? host.address =
      some (lineOf host.address (.boolean true)) := by
  have hstack : (oneLine.after host 1).stack = [.function (.builtin .print), .boolean true] := rfl
  have hcall : (oneLine.after host 1).outlook = .instruction (.call 0) := by cbv
  exact ⟨runs_one rfl, line?_of_call host.address hcall hstack⟩

theorem sink_independent_oneLine :
    ∃ full gone : Sink, ∃ m',
      run ⟨full, fun _ => 0⟩ 5 oneLine = .error (.output "full") m' ∧
      (∃ rest, (stateOf (run ⟨.unlimited, fun _ => 0⟩ 5 oneLine)).written =
        m'.written ++ rest) ∧
      ∃ r, run ⟨gone, fun _ => 0⟩ 5 oneLine = flushed gone r ∧
        run ⟨.unlimited, fun _ => 0⟩ 5 oneLine = flushed .unlimited r := by
  have hgone : Unrefused ⟨⟨fun _ _ => .taken, fun _ => some "gone"⟩, fun _ => 0⟩ oneLine 5 := by
    rintro k - - ⟨line, kept, reason, -, hw⟩
    cases hw
  obtain ⟨-, r, hr, hr', -⟩ := (sink_independent (fun _ => 0) oneLine).1 _ .unlimited 5 hgone
    (unrefused_unlimited _ oneLine 5)
  obtain ⟨hruns, hl⟩ := line?_oneLine ⟨⟨fun _ _ => .refused 1 "full", fun _ => none⟩, fun _ => 0⟩
  obtain ⟨-, -, -, m', hrun, -, hrest⟩ :=
    (sink_independent (fun _ => 0) oneLine).2 _ 1 _ 1 "full" hruns hl rfl
  exact ⟨_, _, m', hrun 5 (by decide), hrest 5 (by decide), r, hr, hr'⟩

end Scriptlet.Machine
