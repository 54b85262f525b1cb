import Scriptlet.Proofs.Agreement
import Scriptlet.Proofs.Outlook

/-! The operand stack of a run of a parsed script.  If calls pass enough arguments, no
instruction lacks an operand.  If they pass just as many as are taken, then every name is in
its place, a call leaves what was below its arguments and one result, and between the
statements of the script and at its halt the stack is empty. -/

namespace Scriptlet

open Code

def Instruction.uses : Instruction → Nat
  | call args => args + 1
  | i => i.operands

def Opcode.takesName : Opcode → Bool
  | .getEnv | .setEnv | .setEnvGlobal => true
  | _ => false

namespace OperandEffect

variable {s t u : List (Option String)} {i : Instruction} {is : List Instruction} {base a : Nat}

theorem uses_le (h : operandEffect s i = some t) : i.uses ≤ s.length := by
  cases i with
  | call args =>
    obtain ⟨a, r, rfl, hle, -⟩ := Machine.exists_of_call h
    exact Nat.succ_le_succ hle
  | ret =>
    obtain ⟨a, rfl⟩ := Machine.exists_of_ret h
    exact Nat.le_refl 1
  | getEnv | increment | pop | jumpIfFalse =>
    cases s with
    | nil => cases h
    | cons => simp [Instruction.uses, Instruction.operands]
  | setEnv | setEnvGlobal | notEqual | getTable | swap =>
    obtain _ | ⟨a, _ | ⟨b, s⟩⟩ := s
    · cases h
    · cases h
    · simp [Instruction.uses, Instruction.operands]
  | setTable =>
    obtain _ | ⟨a, _ | ⟨b, _ | ⟨c, s⟩⟩⟩ := s
    · cases h
    · cases h
    · cases h
    · simp [Instruction.uses, Instruction.operands]
  | _ => exact Nat.zero_le _

theorem operands_le_uses (i : Instruction) : i.operands ≤ i.uses := by
  cases i with
  | call args => exact Nat.le_add_left 1 args
  | _ => exact Nat.le_refl _

theorem scan_append_eq (h : operandEffect.scan s is = some t)
    (h' : operandEffect.scan (s ++ u) is = some r) : r = t ++ u := by
  induction is generalizing s with
  | nil =>
    cases h
    cases h'
    rfl
  | cons i is ih =>
    rw [Effect.scan_cons] at h h'
    obtain ⟨s₁, hs₁, h⟩ := Option.bind_eq_some_iff.1 h
    obtain ⟨s₂, hs₂, h'⟩ := Option.bind_eq_some_iff.1 h'
    refine ih h ?_
    suffices s₂ = s₁ ++ u by rwa [← this]
    by_cases hi : i = .ret
    · -- A return can be read both ways only if there is nothing below.
      subst hi
      obtain ⟨a, rfl⟩ := Machine.exists_of_ret hs₁
      obtain ⟨b, hb⟩ := Machine.exists_of_ret hs₂
      obtain ⟨-, rfl⟩ := List.cons.inj hb
      cases hs₁
      cases hs₂
      rfl
    · rw [framed hi hs₁ u] at hs₂
      exact (Option.some.inj hs₂).symm

theorem at_append (h : operandEffect.At base [] is a u)
    (hf : operandEffect.Flows base s is t) : operandEffect.At base s is a (u ++ s) := by
  obtain ⟨pre, post, rfl, rfl, hu⟩ := h
  obtain ⟨r, hr, -⟩ := Effect.exists_scan_of_append hf.scan
  cases scan_append_eq (s := []) hu hr
  exact ⟨pre, post, rfl, rfl, hr⟩

end OperandEffect

namespace Machine

variable {host : Host} {ns : List Node} {hns : ∀ n ∈ ns, n.Statement} {m m' : Machine}
  {R : Nat → Nat → Prop} {Q : List (Option String) → List Value → Prop}
  {t s : List (Option String)} {ts : List (List (Option String))}

namespace Agrees

theorem uses_le (hQ : Kept R Q) {i : Instruction} {js : List Instruction}
    (h : Agrees hns Q m t ts) (hf : m.Faces (Script.streams ns) (i :: js)) :
    i.uses + (pending ts).length ≤ m.stack.length := by
  obtain ⟨t', he, -⟩ := h.layered.read hf
  have hle := OperandEffect.uses_le he
  have hlen := hQ.length_le h.stack
  rw [List.length_append] at hlen
  omega

theorem not_stackUnderflow (hQ : Kept R Q) (h : Agrees hns Q m t ts) (hpass : Passes ns R m) :
    Machine.step host m ≠ .error .stackUnderflow m' := by
  intro hstep
  obtain ⟨i, js, hf, hfails⟩ := fails_of_step h.layered.placed hstep
  have hle := h.uses_le hQ hf
  cases hfails with
  | underflow hlt =>
    have := OperandEffect.operands_le_uses i
    omega
  | @tooFew args b vs hs hlt =>
    have hR := hQ.arity_le (hpass args _ vs hf.head hs)
    rw [hs, List.length_cons, Instruction.uses] at hle
    rw [Script.arity] at hR
    omega
  | builtin hb => cases hb

theorem not_wrongKind (h : Agrees hns Matches m t ts) {op : Opcode} (hop : m.op? = some op)
    (ht : op.takesName) {a b : ValueKind} : Machine.step host m ≠ .error (.wrongKind a b) m' := by
  intro hstep
  obtain ⟨i, js, hf, hfails⟩ := fails_of_step h.layered.placed hstep
  rw [hf.op?] at hop
  cases hop
  obtain ⟨t', he, -⟩ := h.layered.read hf
  have hm := h.stack
  cases hfails with
  | notNumber => cases ht
  | builtin => cases ht
  | notName hs hv =>
    match t, he with
    | some x :: _, _ =>
      rw [hs] at hm
      cases hm
      exact hv rfl
  | notTarget hi hs hv =>
    rcases hi with rfl | rfl <;>
    match t, he with
    | _ :: some x :: _, _ =>
      rw [hs] at hm
      cases hm.tail
      exact hv rfl

theorem stack_of_halt (h : Agrees hns Matches m t ts)
    (hstep : Machine.step host m = .ok false m') : m'.stack = [] := by
  have hm := h.stack
  obtain ⟨i, js, hf⟩ | hend := h.layered.placed
  · obtain ⟨_, hs, -⟩ | ⟨_, hs, rfl, hc, v, hv, -⟩ | ⟨_, _, hs, -⟩ := step_of_faces_cases hf host
    · rw [hs] at hstep
      cases hstep
    · rw [hs] at hstep
      cases hstep
      obtain ⟨t', he, -⟩ := h.layered.read hf
      obtain ⟨x, rfl⟩ := exists_of_ret he
      cases h.layered.layers.eq_nil hc
      rw [hv] at hm
      exact List.length_eq_zero_iff.1 hm.tail.length_eq.symm
    · rw [hs] at hstep
      cases hstep
  · rw [step_of_atEnd hend] at hstep
    cases hc : m.calls with
    | cons a calls =>
      rw [hc] at hstep
      cases hstep
    | nil =>
      rw [hc] at hstep
      cases hstep
      cases eq_nil_of_atEnd h.layered hend
      cases h.layered.layers.eq_nil hc
      exact List.length_eq_zero_iff.1 hm.length_eq.symm

theorem stack_of_boundary (h : Agrees hns Matches m t ts) (hc : m.calls = [])
    (hcode : m.code = 0) (hip : m.ip ∈ Node.boundaries .start 0 ns) : m.stack = [] := by
  have hm := h.stack
  obtain ⟨t', rest, heq, hat⟩ := h.layered.layers.active
  cases heq
  rw [hcode] at hat
  cases hat.unique ⟨_, rfl, Node.at_boundaries .start 0 ns hns hip⟩
  cases h.layered.layers.eq_nil hc
  exact List.length_eq_zero_iff.1 hm.length_eq.symm

end Agrees

inductive Rooted : Nat → List Activation → Prop
  | script : Rooted 0 []
  | call {code : Nat} {a : Activation} {calls : List Activation} : code ≠ 0 →
    Rooted a.code calls → Rooted code (a :: calls)

namespace Rooted

theorem eq_nil {code : Nat} {calls : List Activation} (h : Rooted code calls) (hc : code = 0) :
    calls = [] := by
  cases h with
  | script => rfl
  | call hne _ => exact absurd hc hne

theorem back {code : Nat} {a : Activation} {calls rest : List Activation}
    (h : Rooted code calls) (hc : calls = a :: rest) : Rooted a.code rest := by
  cases h with
  | script => cases hc
  | call _ h =>
    cases hc
    exact h

theorem moves {streams : List (List Instruction)} (h : Rooted m.code m.calls) (hl : m.Linked)
    (hm : m.Moves host streams m') : Rooted m'.code m'.calls := by
  cases hm with
  | atEnd _ hc => exact h.back hc
  | stays hp =>
    obtain ⟨k, w, rfl⟩ := hp
    exact h
  | transition _ ht =>
    cases ht.shifts.2 with
    | within hcode hcalls _ =>
      rw [hcode, hcalls]
      exact h
    | into hs _ hcalls hcode _ =>
      have hpos := (hl _ (.stack (hs ▸ List.mem_cons_self))).1
      rw [hcode, hcalls]
      exact .call (Nat.ne_of_gt hpos) h
    | back hc hcalls hcode _ =>
      rw [hcode, hcalls]
      exact h.back hc

end Rooted

theorem rooted_after (ns : List Node) (host : Host) (n : Nat) :
    Rooted ((ofProgram (assemble (Script.streams ns))).after host n).code
      ((ofProgram (assemble (Script.streams ns))).after host n).calls := by
  induction n with
  | zero => exact .script
  | succ n ih =>
    obtain ⟨⟨ts, hl⟩, hlinked⟩ := sound_after ns host n
    exact ih.moves hlinked (moves_successor hl.placed host)

theorem Transition.drop_suffix {i : Instruction} {js : List Instruction}
    (h : Transition host m i m') (hf : m.Faces (Script.streams ns) (i :: js))
    (hpass : Passes ns (· = ·) m) : m.stack.drop i.uses <:+ m'.stack := by
  cases h with
  | literal => exact (List.drop_suffix _ _).trans (List.suffix_cons _ _)
  | newTable => exact (List.drop_suffix _ _).trans (List.suffix_cons _ _)
  | notEqual hs | increment hs | getEnv hs | getTable hs =>
    rw [hs]
    exact List.suffix_cons _ _
  | swap hs =>
    rw [hs]
    exact (List.suffix_cons _ _).trans (List.suffix_cons _ _)
  | pop hs | setEnv hs | setEnvGlobal hs | setTable hs | jumpIfFalse hs =>
    rw [hs]
    exact List.suffix_refl _
  | enterScope | leaveScope | jump | noOp => exact List.drop_suffix _ _
  | @call args id vs hs hid =>
    rw [hs]
    exact List.drop_suffix args vs
  | @builtin args b vs m₁ hs hb =>
    have hargs := hpass args _ vs hf.head hs
    obtain ⟨ws, v, hm⟩ := answered_of_callBuiltin hb
    obtain ⟨as, has, hvs⟩ := hm.args
    have hvs : vs = as ++ ws := hvs
    rw [hm.machine, hs, hvs, Instruction.uses, List.drop_succ_cons, ← hargs, Script.arity, ← has,
      List.drop_left]
    exact List.suffix_cons _ _
  | ret hs hc =>
    rw [hs]
    exact List.suffix_cons _ _

theorem exists_pending_le {R : Reading (Option String) (Script.streams ns)} {code ip : Nat}
    {later calls : List Activation} {b : Activation}
    (h : R.Layers code ip (later ++ b :: calls) (t :: ts)) :
    ∃ s rest, R.Layers b.code b.ip calls (s :: rest) ∧
      (s.tail ++ pending rest).length ≤ (pending ts).length := by
  induction later generalizing code ip t ts with
  | nil =>
    obtain ⟨s, rest, rfl, -⟩ := h.tail.active
    exact ⟨s, rest, h.tail, Nat.le_refl _⟩
  | cons a later ih =>
    obtain ⟨s, rest, rfl, -⟩ := h.tail.active
    obtain ⟨s', rest', hl, hle⟩ := ih h.tail
    refine ⟨s', rest', hl, Nat.le_trans hle ?_⟩
    rw [pending_cons, List.length_append]
    exact Nat.le_add_left _ _

/-- While an activation is at an address with the operands `u` above `s`, or waits there for a
result, no instruction reaches the operands that the stack had when there were only `s`. -/
theorem Agrees.uses_le_of_above {m₀ : Machine} {ss : List (List (Option String))}
    {u : List (Option String)} {c a : Nat} {i : Instruction} {js : List Instruction}
    (h₀ : Agrees hns Matches m₀ s ss) (h : Agrees hns Matches m t ts)
    (ha : m.Above m₀.calls c a) (hat : (Script.operands ns hns).At c a (u ++ s))
    (hf : m.Faces (Script.streams ns) (i :: js)) (hactive : m.calls = m₀.calls → i.uses ≤ u.length)
    (hwait : m.calls ≠ m₀.calls → u ≠ []) : m₀.stack.length + i.uses ≤ m.stack.length := by
  have hlen₀ := h₀.stack.length_eq
  have hlen := h.stack.length_eq
  rw [List.length_append] at hlen₀ hlen
  cases ha with
  | active hc =>
    have hl := h.layered.layers
    rw [hc] at hl
    cases hl.tail_eq h₀.layered.layers
    obtain ⟨t', rest, heq, hat'⟩ := hl.active
    cases heq
    rw [hat'.unique hat, List.length_append] at hlen
    have := hactive hc
    omega
  | @waiting later b hc =>
    -- The operands of the waiting activation are still pending, all but the result.
    have hl := h.layered.layers
    rw [hc] at hl
    obtain ⟨t', rest, hl, hle⟩ := exists_pending_le hl
    cases hl.tail_eq h₀.layered.layers
    obtain ⟨t', rest, heq, hat'⟩ := hl.active
    cases heq
    cases hat'.unique hat
    have hu := List.length_pos_iff.2 (hwait (ne_of_waiting hc))
    have huses := h.uses_le kept_matches hf
    rw [List.length_append, List.length_tail, List.length_append] at hle
    omega

theorem Spans.suffix {id start i n : Nat} {is js : List Instruction}
    (h : Spans (m.after host) id start (start + extent js) i n)
    (hs : (Script.streams ns)[id]? = some is)
    (hjs : Stands is start js) (hflows : ∀ s, operandEffect.Flows start s js (none :: s))
    (hrun : Runs host m n) (hpass : ∀ k, k < n → Passes ns (· = ·) (m.after host k))
    (hm : ∀ k, (m.after host k).Placed (Script.streams ns))
    (hagree : ∀ k, k ≤ n → ∃ t ts, Agrees hns Matches (m.after host k) t ts) {k : Nat}
    (hi : i ≤ k) (hn : k ≤ n) : (m.after host i).stack <:+ (m.after host k).stack := by
  obtain ⟨s, ss, h₀⟩ := hagree i (Nat.le_trans hi hn)
  induction hi with
  | refl => exact List.suffix_refl _
  | @step k hi ih =>
    have ih := ih (Nat.le_of_lt hn)
    obtain ⟨t, ts, hk⟩ := hagree k (Nat.le_of_lt hn)
    obtain ⟨m', hstep⟩ := hrun k hn
    have hm' : m.after host (k + 1) = m' := by rw [after_succ, successor, hstep, stateOf_ok]
    rw [hm']
    obtain ⟨i', js', hf, ht⟩ | ⟨-, a, calls, -, rfl⟩ := cases_of_step (hm k) hstep
    · obtain ⟨a, u, ha, hat, hwait⟩ :=
        h.above hs hjs (hflows []) (course_after host m) hm hi (Nat.le_of_lt hn)
      have hwhole : (Script.operands ns hns).At id a (u ++ s) := by
        obtain ⟨_, _, heq, hs₀⟩ := h₀.layered.layers.active
        cases heq
        rw [h.enters.1, h.enters.2] at hs₀
        exact hs₀.part hs hjs (OperandEffect.at_append hat (hflows s))
      -- What the instruction takes was pushed in the stretch, by this activation or by a later one.
      have hle : (m.after host i).stack.length + i'.uses ≤ (m.after host k).stack.length := by
        refine h₀.uses_le_of_above hk ha hwhole hf (fun hcalls => ?_) fun hne hu => ?_
        · obtain ⟨-, hcode, rfl⟩ := ha.eq_active (Nat.le_of_eq (congrArg List.length hcalls))
          obtain ⟨t', he, -⟩ := h.step hs hjs (hflows []) hi hn hcalls hcode hat hf
          exact OperandEffect.uses_le he
        · obtain ⟨args, t₀, he⟩ := hwait hne
          obtain ⟨_, _, -, -, rfl⟩ := exists_of_call he
          cases hu
      refine (List.suffix_of_suffix_length_le ih (List.drop_suffix _ _) ?_).trans
        (ht.drop_suffix hf (hpass k hn))
      rw [List.length_drop]
      omega
    · exact ih.trans (List.suffix_cons _ _)

/-- A call of the script has its first instruction, which is the first one of its first
argument if it has any, at `start` in the stream `id`, and its result is there at `stop`. -/
def CallAt (ns : List Node) (id start stop : Nat) : Prop :=
  ∃ q ∈ Script.parts ns id, (∃ receiver f args, q.node = .call receiver f args) ∧
    q.base = start ∧ q.base + extent q.row = stop

theorem CallAt.exists_flows {id start stop : Nat} (h : CallAt ns id start stop)
    (hns : ∀ n ∈ ns, n.Statement) :
    ∃ is js, (Script.streams ns)[id]? = some is ∧ Stands is start js ∧ stop = start + extent js ∧
      ∀ s, operandEffect.Flows start s js (none :: s) := by
  obtain ⟨⟨σ, base, n⟩, hq, ⟨receiver, f, args, rfl⟩, rfl, rfl⟩ := h
  obtain ⟨is, hs, hjs⟩ := Script.stands_of_mem_parts hq
  have hn := Script.hereditary_of_mem_parts Node.hereditary_statement hns hq
  exact ⟨is, _, hs, hjs, rfl, (hn.toExpression rfl).pushesOne σ base⟩

theorem Spans.stack {id start stop i n : Nat} (h : Spans (m.after host) id start stop i n)
    (hcall : CallAt ns id start stop) (hns : ∀ n ∈ ns, n.Statement) (hrun : Runs host m n)
    (hpass : ∀ k, k < n → Passes ns (· = ·) (m.after host k))
    (hagree : ∀ k, k ≤ n → ∃ t ts, Agrees hns Matches (m.after host k) t ts)
    (hm : ∀ k, (m.after host k).Placed (Script.streams ns)) :
    ∃ v, (m.after host n).stack = v :: (m.after host i).stack := by
  obtain ⟨is, js, hs, hjs, rfl, hflows⟩ := hcall.exists_flows hns
  obtain ⟨vs, hvs⟩ := h.suffix hs hjs hflows hrun hpass hm hagree h.le (Nat.le_refl n)
  suffices hlen : vs.length = 1 by
    obtain ⟨v, rfl⟩ := List.length_eq_one_iff.1 hlen
    exact ⟨v, hvs.symm⟩
  obtain ⟨s, ss, h₀⟩ := hagree i h.le
  obtain ⟨t, ts, hn⟩ := hagree n (Nat.le_refl n)
  obtain ⟨a, u, ha, -⟩ :=
    h.above hs hjs (hflows s) (course_after host m) hm h.le (Nat.le_refl n)
  obtain ⟨hcalls, hcode, -⟩ := ha.eq_active (Nat.le_of_eq h.leaves.1)
  have hl := hn.layered.layers
  rw [hcode, h.leaves.2, hcalls] at hl
  cases hl.tail_eq h₀.layered.layers
  have hl₀ := h₀.layered.layers
  rw [h.enters.1, h.enters.2] at hl₀
  obtain ⟨_, _, heq, hat₀⟩ := hl₀.active
  cases heq
  obtain ⟨_, _, heq, hat⟩ := hl.active
  cases heq
  cases hat.unique (hat₀.part hs hjs (.stop (hflows s).scan))
  have hlen₀ := h₀.stack.length_eq
  have hlen := hn.stack.length_eq
  rw [← hvs] at hlen
  simp only [List.length_append, List.length_cons] at hlen hlen₀
  omega

/-- How a program whose tree is `ns` keeps its operands, as long as it runs and its calls pass
enough arguments, or just as many as are taken. -/
structure OperandDiscipline (host : Host) (ns : List Node) (m : Machine) : Prop where
  operands : ∀ n m', Runs host m n → (∀ k, k ≤ n → Passes ns (· ≤ ·) (m.after host k)) →
    step host (m.after host n) ≠ .error .stackUnderflow m'
  calls : ∀ n id start stop i, Runs host m n →
    (∀ k, k < n → Passes ns (· = ·) (m.after host k)) → CallAt ns id start stop →
    Spans (m.after host) id start stop i n →
    ∃ v, (m.after host n).stack = v :: (m.after host i).stack
  names : ∀ n op a b m', Runs host m n → (∀ k, k < n → Passes ns (· = ·) (m.after host k)) →
    (m.after host n).op? = some op → op.takesName →
    step host (m.after host n) ≠ .error (.wrongKind a b) m'
  boundaries : ∀ n, Runs host m n → (∀ k, k < n → Passes ns (· = ·) (m.after host k)) →
    (m.after host n).code = 0 → (m.after host n).ip ∈ Node.boundaries .start 0 ns →
    (m.after host n).stack = []
  halts : ∀ n m', Runs host m n → (∀ k, k < n → Passes ns (· = ·) (m.after host k)) →
    step host (m.after host n) = .ok false m' → m'.stack = []

theorem operandDiscipline {s s' : TokenStream} {ns : List Node} (h : s.parse = .ok ns s') :
    ∃ p c, Program.ofNodes ns = .ok p c ∧ ∀ host, OperandDiscipline host ns (ofProgram p) := by
  have hns := TokenStream.statement_of_parse h
  obtain ⟨c, hc⟩ := Program.ofNodes_of_statement hns
  refine ⟨_, c, hc, fun host => ⟨?_, ?_, ?_, ?_, ?_⟩⟩
  · intro n m' hrun hpass
    obtain ⟨t, ts, hn⟩ := agrees_after kept_length hns hrun fun k hk => hpass k (Nat.le_of_lt hk)
    exact hn.not_stackUnderflow kept_length (hpass n (Nat.le_refl n))
  · intro n id start stop i hrun hpass hcall hspan
    refine hspan.stack hcall hns hrun hpass (fun k hk => ?_)
      fun k => (sound_after ns host k).placed
    exact agrees_after kept_matches hns (fun j hj => hrun j (Nat.lt_of_lt_of_le hj hk))
      fun j hj => hpass j (Nat.lt_of_lt_of_le hj hk)
  · intro n op a b m' hrun hpass hop hname
    obtain ⟨t, ts, hn⟩ := agrees_after kept_matches hns hrun hpass
    exact hn.not_wrongKind hop hname
  · intro n hrun hpass hcode hip
    obtain ⟨t, ts, hn⟩ := agrees_after kept_matches hns hrun hpass
    exact hn.stack_of_boundary ((rooted_after ns host n).eq_nil hcode) hcode hip
  · intro n m' hrun hpass hstep
    obtain ⟨t, ts, hn⟩ := agrees_after kept_matches hns hrun hpass
    exact hn.stack_of_halt hstep

theorem passes_of_op? (h : m.op? ≠ some .call) : Passes ns R m :=
  fun _ _ _ hf => absurd hf.op? h

theorem passes_of_stands {is : List Instruction} {f : Callable} {vs : List Value} {args : Nat}
    (hs : (Script.streams ns)[m.code]? = some is) (hcall : Stands is m.ip [.call args])
    (hstack : m.stack = .function f :: vs) (h : R (Script.arity ns f) args) : Passes ns R m := by
  intro args' f' vs' hf hs'
  cases hf.eq_head hs hcall
  cases hstack.symm.trans hs'
  exact h

/-- The script `function f(x) return x end print(f(1))`. -/
def nestedCall : List Node :=
  [.function "f" ["x"] [.ret (.value (.variable "x"))],
    .call none "print" [.call none "f" [.value (.number 1)]]]

theorem passes_nestedCall {k : Nat} (hk : k < 18) :
    Passes nestedCall (· = ·) ((ofProgram (assemble (Script.streams nestedCall))).after
      ⟨.unlimited, fun a => a⟩ k) := by
  have hcalls : ∀ k < 18, k ≠ 6 → k ≠ 16 → ((ofProgram (assemble (Script.streams
      nestedCall))).after ⟨.unlimited, fun a => a⟩ k).op? ≠ some .call := by decide +kernel
  have hmain : (Script.streams nestedCall)[0]? = some (Node.lowerBlock .start 0 nestedCall) := rfl
  by_cases h6 : k = 6
  · subst h6
    have hat : reaches ⟨.unlimited, fun a => a⟩ (ofProgram (assemble (Script.streams nestedCall)))
        6 fun m => m.code = 0 ∧ m.ip = 10 ∧
          m.stack = [.function (.compiled 1), .number 1] := by decide +kernel
    obtain ⟨hcode, hip, hstack⟩ := of_decide_eq_true (runs_of_reaches hat).2
    refine passes_of_stands (hcode ▸ hmain) (hip ▸ ?_) hstack rfl
    exact ⟨[.pushId "f", .pushFunction 1, .setEnvGlobal, .pushNumber 1, .pushId "f", .getEnv],
      [.pushId "print", .getEnv, .call 1, .pop], rfl, rfl⟩
  by_cases h16 : k = 16
  · subst h16
    have hat : reaches ⟨.unlimited, fun a => a⟩ (ofProgram (assemble (Script.streams nestedCall)))
        16 fun m => m.code = 0 ∧ m.ip = 14 ∧
          m.stack = [.function (.builtin .print), .number 1] := by decide +kernel
    obtain ⟨hcode, hip, hstack⟩ := of_decide_eq_true (runs_of_reaches hat).2
    refine passes_of_stands (hcode ▸ hmain) (hip ▸ ?_) hstack rfl
    exact ⟨[.pushId "f", .pushFunction 1, .setEnvGlobal, .pushNumber 1, .pushId "f", .getEnv,
      .call 1, .pushId "print", .getEnv], [.pop], rfl, rfl⟩
  · exact passes_of_op? (hcalls k hk h6 h16)

theorem operandDiscipline_nestedCall :
    ∃ s s' p c ms v w m', TokenStream.parse s = .ok nestedCall s' ∧
      Program.ofNodes nestedCall = .ok p c ∧
      ms = (ofProgram p).after ⟨.unlimited, fun a => a⟩ ∧
      CallAt nestedCall 0 5 11 ∧ Spans ms 0 5 11 3 14 ∧ (ms 14).stack = v :: (ms 3).stack ∧
      CallAt nestedCall 0 5 15 ∧ Spans ms 0 5 15 3 17 ∧ (ms 17).stack = w :: (ms 3).stack ∧
      step ⟨.unlimited, fun a => a⟩ (ms 18) = .ok false m' ∧ m'.stack = [] := by
  have hparse : (TokenStream.mk ([.keyword .functionKw, .ident "f", .symbol .lparen, .ident "x",
      .symbol .rparen, .keyword .returnKw, .ident "x", .keyword .endKw, .ident "print",
      .symbol .lparen, .ident "f", .symbol .lparen, .number 1, .symbol .rparen,
      .symbol .rparen].map (⟨·, .start⟩)) .start).parse = .ok nestedCall ⟨[], .start⟩ := by
    cbv
  have hinner : CallAt nestedCall 0 5 11 :=
    ⟨_, List.mem_cons_of_mem _ (List.mem_cons_of_mem _ List.mem_cons_self), ⟨none, "f", _, rfl⟩,
      rfl, rfl⟩
  have houter : CallAt nestedCall 0 5 15 :=
    ⟨_, List.mem_cons_of_mem _ List.mem_cons_self, ⟨none, "print", _, rfl⟩, rfl, rfl⟩
  obtain ⟨c', hc'⟩ := Program.ofNodes_of_statement (TokenStream.statement_of_parse hparse)
  obtain ⟨p, c, hc, hd⟩ := operandDiscipline hparse
  cases hc.symm.trans hc'
  have hreach : reaches ⟨.unlimited, fun a => a⟩
      (ofProgram (assemble (Script.streams nestedCall))) 18
      fun m => m.op? = none ∧ m.calls = [] := by decide +kernel
  obtain ⟨hrun, hat⟩ := runs_of_reaches hreach
  have hspan : Spans ((ofProgram (assemble (Script.streams nestedCall))).after
      ⟨.unlimited, fun a => a⟩) 0 5 11 3 14 :=
    ⟨by decide, by decide +kernel, by decide +kernel, by decide +kernel⟩
  have hspan' : Spans ((ofProgram (assemble (Script.streams nestedCall))).after
      ⟨.unlimited, fun a => a⟩) 0 5 15 3 17 :=
    ⟨by decide, by decide +kernel, by decide +kernel, by decide +kernel⟩
  have hhalt : ∃ m', step ⟨.unlimited, fun a => a⟩ ((ofProgram (assemble (Script.streams
      nestedCall))).after ⟨.unlimited, fun a => a⟩ 18) = .ok false m' := by
    obtain ⟨hop, hcalls⟩ := of_decide_eq_true hat
    obtain ⟨i, js, hf⟩ | hend := (sound_after nestedCall ⟨.unlimited, fun a => a⟩ 18).placed
    · rw [hf.op?] at hop
      cases hop
    · rw [step_of_atEnd hend, hcalls]
      exact ⟨_, rfl⟩
  obtain ⟨v, hv⟩ := (hd _).calls 14 _ _ _ _ (hrun.mono (by decide))
    (fun k hk => passes_nestedCall (Nat.lt_trans hk (by decide))) hinner hspan
  obtain ⟨w, hw⟩ := (hd _).calls 17 _ _ _ _ (hrun.mono (by decide))
    (fun k hk => passes_nestedCall (Nat.lt_trans hk (by decide))) houter hspan'
  obtain ⟨m', hstep⟩ := hhalt
  have hnil := (hd _).halts 18 m' hrun (fun k hk => passes_nestedCall hk) hstep
  exact ⟨_, _, _, _, _, v, w, m', hparse, hc, rfl, hinner, hspan, hv, houter, hspan', hw, hstep,
    hnil⟩

end Machine

end Scriptlet
