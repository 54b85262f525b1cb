import Scriptlet.Proofs.FrameDiscipline
import Scriptlet.Proofs.OperandDiscipline
import Scriptlet.Proofs.Outlook
import Scriptlet.Proofs.Statements

/-! Assignments to variables.  No jump leads into the code of an assignment, so whoever comes to
bind its name has begun it.  Till then the name is the lowest operand of the assignment, and as
long as calls pass just as many arguments as are taken, it is still in its place when it is
bound. -/

namespace Scriptlet

open Code

namespace Frame

theorem get?_bind_self (f : Frame) (x : String) (v : Value) : (f.bind x v).get? x = some v := by
  simp [get?, bind]

theorem get?_bind_of_ne (f : Frame) {x y : String} (h : y ≠ x) (v : Value) :
    (f.bind x v).get? y = f.get? y := by
  have hyx : (y == x) = false := beq_eq_false_iff_ne.2 h
  rw [get?, bind, List.lookup_cons, hyx]
  induction f with
  | nil => rfl
  | cons e f ih =>
    obtain ⟨z, w⟩ := e
    by_cases hz : z = x
    · subst hz
      simpa [get?, List.lookup_cons, hyx] using ih
    · simp only [ne_eq, hz, not_false_eq_true, decide_true, List.filter_cons_of_pos,
        List.lookup_cons, get?]
      cases y == z with
      | true => rfl
      | false => exact ih

end Frame

namespace Machine

variable {host : Host} {ns : List Node} {hns : ∀ n ∈ ns, n.Statement} {m m' : Machine}
  {R : Nat → Nat → Prop} {Q : List (Option String) → List Value → Prop} {x : String}
  {id start store a i n : Nat} {t s : List (Option String)} {ts ss : List (List (Option String))}

/-- An assignment to the variable `x` in the stream `id` has its first instruction, which pushes
the name, at `start`, and its last one, which binds the name, at `store`. -/
def AssignAt (ns : List Node) (id start store : Nat) (x : String) : Prop :=
  ∃ q ∈ Script.parts ns id, (∃ isLocal e, q.node = .assign isLocal (.value (.variable x)) e) ∧
    q.base = start ∧ q.base + extent q.row = store + 1

theorem AssignAt.exists_row (h : AssignAt ns id start store x) (hns : ∀ n ∈ ns, n.Statement) :
    ∃ is js isDeclared, (Script.streams ns)[id]? = some is ∧
      Stands is start ([.pushId x] ++ js ++ [Node.lowerStore isDeclared]) ∧
      store = start + 2 + extent js ∧ operandEffect.scan [] js = some [none] ∧
      (Script.operands ns hns).At id start [] := by
  obtain ⟨⟨σ, base, n⟩, hq, ⟨isLocal, e, rfl⟩, rfl, hstore⟩ := h
  obtain ⟨is, hs, hstands⟩ := Script.stands_of_mem_parts hq
  have hn := Script.hereditary_of_mem_parts Node.hereditary_statement hns hq
  have he : e.Expression := by
    cases hn with
    | expression h => cases h.isExpression
    | assign _ _ h => exact h
  simp only [Part.row, Node.lower] at hstands hstore
  refine ⟨is, _, _, hs, hstands, ?_, (he.pushesOne _ _ []).scan, Script.at_of_mem_parts hns hq rfl⟩
  have hname : extent [.pushId x] = 2 := rfl
  rw [extent_append, extent_append, hname, Node.extent_lowerStore] at hstore
  dsimp only
  omega

theorem operands_in_assignment {js : List Instruction} {op : Instruction}
    (hjs : operandEffect.scan [] js = some [none])
    (h : operandEffect.At start [] ([.pushId x] ++ js ++ [op]) a t) (hlt : start < a)
    (hle : a ≤ start + 2 + extent js) :
    ∃ u, t = u ++ [some x] ∧ (a = start + 2 + extent js → u = [none]) := by
  obtain ⟨pre, post, hrow, rfl, hscan⟩ := h
  cases pre with
  | nil => exact absurd hlt (Nat.lt_irrefl _)
  | cons i pre =>
    obtain ⟨rfl, hrest⟩ := List.cons.inj hrow
    have hrest : js ++ [op] = pre ++ post := hrest
    have hwidth : (Instruction.pushId x).width = 2 := rfl
    rw [extent_cons, hwidth] at hle ⊢
    obtain ⟨r, rfl, -⟩ := exists_append_of_le hrest.symm (by omega)
    obtain ⟨u, hu, hr⟩ := Effect.exists_scan_of_append hjs
    have hscan : operandEffect.scan ([] ++ [some x]) pre = some t := hscan
    refine ⟨u, OperandEffect.scan_append_eq hu hscan, fun heq => ?_⟩
    rw [extent_append] at heq
    have hnil : r = [] := eq_nil_of_extent_eq_zero (by omega)
    subst hnil
    exact Option.some.inj hr

theorem lt_of_jump {is js : List Instruction} {op : Instruction}
    (hs : (Script.streams ns)[id]? = some is)
    (hrow : Stands is start ([.pushId x] ++ js ++ [op]))
    (hjs : operandEffect.scan [] js = some [none])
    (hstart : (Script.operands ns hns).At id start []) {b : Nat} {j : Instruction}
    {ks : List Instruction} (hj : Stands is b (j :: ks)) (ha : j.target? = some a)
    (hlt : start < a) : start + 2 + extent js < a := by
  apply Nat.lt_of_not_le
  intro hle
  have hend : a ≤ start + extent ([.pushId x] ++ js ++ [op]) := by
    rw [extent_append, extent_append, ← Nat.add_assoc, ← Nat.add_assoc]
    exact Nat.le_add_right_of_le hle
  have hat := hstart.ofPart hs hrow (Script.at_of_jump hns hs hj ha) (Nat.le_of_lt hlt) hend
  obtain ⟨u, hu, -⟩ := operands_in_assignment hjs hat hlt hle
  simp at hu

def MatchesOver (vs : List Value) (s : List (Option String)) (ws : List Value) : Prop :=
  ∃ us, ws = us ++ vs ∧ Matches s us

theorem keeps_matchesOver (vs : List Value) : Keeps (· = ·) (MatchesOver vs) where
  length_le := by
    rintro s _ ⟨us, rfl, h⟩
    rw [List.length_append, h.length_eq]
    exact Nat.le_add_right _ _
  push := by
    rintro s _ v ⟨us, rfl, h⟩
    exact ⟨v :: us, rfl, .any v h⟩
  name := by
    rintro s _ x ⟨us, rfl, h⟩
    exact ⟨.string x :: us, rfl, .name x h⟩
  pop := by
    rintro a s v ws ⟨us, hus, h⟩
    cases us with
    | nil => cases h
    | cons u us =>
      obtain ⟨rfl, rfl⟩ := List.cons.inj hus
      exact ⟨us, rfl, h.tail⟩
  swap := by
    rintro a b s v w ws ⟨us, hus, h⟩
    have hlen := h.length_eq
    match us, hus with
    | u :: u' :: us, hus =>
      simp only [List.cons_append, List.cons.injEq] at hus
      obtain ⟨rfl, rfl, rfl⟩ := hus
      exact ⟨w :: v :: us, rfl, kept_matches.swap h⟩
  arity_le h := Nat.le_of_eq h
  pass := by
    rintro arity args s _ h hs ⟨us, rfl, hus⟩
    exact ⟨us, rfl, kept_matches.pass h hs hus⟩

theorem Spans.agreesOver {stop : Nat} (h : Spans (m.after host) id start stop i n) (hQ : Keeps R Q)
    (h₀ : AgreesOver hns Q ss (m.after host i) t ts)
    (hss : ss.length = (m.after host i).calls.length) (hrun : Runs host m n)
    (hpass : ∀ k, i ≤ k → k < n → Passes ns R (m.after host k)) {k : Nat} (hi : i ≤ k)
    (hk : k ≤ n) : ∃ t ts, AgreesOver hns Q ss (m.after host k) t ts := by
  induction hi with
  | refl => exact ⟨t, ts, h₀⟩
  | @step k hi ih =>
    obtain ⟨t, ts, hagree⟩ := ih (Nat.le_of_lt hk)
    obtain ⟨m', hstep⟩ := hrun k hk
    have hm' : m.after host (k + 1) = m' := by rw [after_succ, successor, hstep, stateOf_ok]
    have hlen : ss.length ≤ (m.after host (k + 1)).calls.length := by
      rw [hss]
      rcases Nat.lt_or_eq_of_le hk with hlt | heq
      · exact (h.inside (k + 1) (Nat.le_succ_of_le hi) hlt).1
      · rw [show k + 1 = n from heq]
        exact Nat.le_of_eq h.leaves.1.symm
    rw [hm'] at hlen ⊢
    exact hagree.step hQ (hpass k hi hk) hstep hlen

/-- The step from `m` to `m'` binds `x` to `v` in one frame, the innermost or the global one as
the operation has it, and no other binding changes. -/
def Binds (m : Machine) (x : String) (v : Value) (m' : Machine) : Prop :=
  ∃ above f g below, m.frames = above ++ f :: below ∧ m'.frames = above ++ g :: below ∧
    (m.op? = some .setEnv ∧ above = [] ∨ m.op? = some .setEnvGlobal ∧ below = []) ∧
    g.get? x = some v ∧ ∀ y, y ≠ x → g.get? y = f.get? y

theorem binds_of_bind {v : Value} {above below : List Frame} {f : Frame}
    (hf : m.frames = above ++ f :: below) (hf' : m'.frames = above ++ f.bind x v :: below)
    (hop : m.op? = some .setEnv ∧ above = [] ∨ m.op? = some .setEnvGlobal ∧ below = []) :
    m.Binds x v m' :=
  ⟨above, f, f.bind x v, below, hf, hf', hop, f.get?_bind_self x v,
    fun _ hy => f.get?_bind_of_ne hy v⟩

theorem exists_binds_of_store {isDeclared : Bool} {v : Value} {vs : List Value}
    (hf : m.Faces (Script.streams ns) [Node.lowerStore isDeclared])
    (hs : m.stack = v :: .string x :: vs) (hframes : m.frames ≠ []) (host : Host) :
    ∃ m', step host m = .ok true m' ∧ m'.stack = vs ∧ m.Binds x v m' := by
  cases isDeclared with
  | true =>
    obtain ⟨f, fs, hfs⟩ := List.exists_cons_of_ne_nil hframes
    have ht : Transition host m .setEnv _ := .setEnv hs hfs
    exact ⟨_, ht.step hf, rfl, binds_of_bind hfs rfl (.inl ⟨hf.op?, rfl⟩)⟩
  | false =>
    have ht : Transition host m .setEnvGlobal _ := .setEnvGlobal hs hframes
    obtain ⟨fs, f, hfs⟩ := (List.eq_nil_or_concat m.frames).resolve_left hframes
    rw [List.concat_eq_append] at hfs
    refine ⟨_, ht.step hf, rfl, binds_of_bind hfs ?_ (.inr ⟨hf.op?, rfl⟩)⟩
    simp only [bindGlobal, hfs]
    exact modify_concat fs f _

theorem layered_after {α : Type} (R : Reading α (Script.streams ns)) (host : Host) (k : Nat) :
    ∃ ts, R.Layered ((ofProgram (assemble (Script.streams ns))).after host k) ts := by
  induction k with
  | zero => exact ⟨_, .start R (Script.streams_ne_nil ns)⟩
  | succ k ih =>
    obtain ⟨ts, h⟩ := ih
    exact h.successor host

theorem AssignAt.exists_spans (h : AssignAt ns id start store x) (hns : ∀ n ∈ ns, n.Statement)
    (hrun : Runs host (ofProgram (assemble (Script.streams ns))) n)
    (hcode : ((ofProgram (assemble (Script.streams ns))).after host n).code = id)
    (hip : ((ofProgram (assemble (Script.streams ns))).after host n).ip = store) :
    ∃ i, Spans ((ofProgram (assemble (Script.streams ns))).after host) id start store i n := by
  obtain ⟨is, js, isDeclared, hs, hrow, hstore, hjs, hstart⟩ := h.exists_row hns
  have hm (k : Nat) := (frameDepth_after ns host k).placed
  subst hcode
  obtain ⟨i, hi⟩ := exists_advances hs hrow (fun hj ha => lt_of_jump hs hrow hjs hstart hj ha) hm
    rfl rfl hrun (.active rfl) (by omega) (by omega)
  rw [hip] at hi
  exact ⟨i, hi.spans rfl hip⟩

theorem Spans.exists_operands {m : Machine} {stop : Nat}
    (h : Spans (m.after host) id start stop i n)
    (hstart : (Script.operands ns hns).At id start []) (hcode : (m.after host n).code = id)
    (hl : ∃ ts, (Script.operands ns hns).Layered (m.after host i) ts) (hrun : Runs host m n)
    (hpass : ∀ k, i ≤ k → k < n → Passes ns (· = ·) (m.after host k)) :
    ∃ t us, (Script.operands ns hns).At id stop t ∧
      (m.after host n).stack = us ++ (m.after host i).stack ∧ Matches t us := by
  obtain ⟨ts, hl⟩ := hl
  obtain ⟨t, ss, rfl, hat⟩ := hl.layers.active
  rw [h.enters.1, h.enters.2] at hat
  cases hat.unique hstart
  have hlen := hl.layers.length_eq
  have h₀ : AgreesOver hns (MatchesOver (m.after host i).stack) ss (m.after host i) [] [] :=
    ⟨hl, by simp, [], rfl, .nil⟩
  obtain ⟨t, ts, hagree⟩ := h.agreesOver (keeps_matchesOver _) h₀ (Nat.succ.inj hlen) hrun hpass
    h.le (Nat.le_refl n)
  have hlen' := hagree.layered.layers.length_eq
  rw [h.leaves.1] at hlen'
  cases ts with
  | cons r ts =>
    simp only [List.length_cons, List.length_append] at hlen hlen'
    omega
  | nil =>
    obtain ⟨t', rest, heq, hat⟩ := hagree.layered.layers.active
    cases heq
    rw [hcode, h.leaves.2] at hat
    obtain ⟨us, hus, hmatch⟩ := hagree.stack
    rw [pending, List.flatMap_nil, List.append_nil] at hmatch
    exact ⟨t, us, hat, hus, hmatch⟩

theorem Spans.stack_of_assignAt {m : Machine} (h : Spans (m.after host) id start store i n)
    (hassign : AssignAt ns id start store x) (hns : ∀ n ∈ ns, n.Statement)
    (hcode : (m.after host n).code = id)
    (hl : ∃ ts, (Script.operands ns hns).Layered (m.after host i) ts) (hrun : Runs host m n)
    (hpass : ∀ k, i ≤ k → k < n → Passes ns (· = ·) (m.after host k)) :
    ∃ v, (m.after host n).stack = v :: .string x :: (m.after host i).stack := by
  obtain ⟨is, js, isDeclared, hs, hrow, hstore, hjs, hstart⟩ := hassign.exists_row hns
  obtain ⟨t, us, hat, hus, hmatch⟩ := h.exists_operands hstart hcode hl hrun hpass
  have hend : store ≤ start + extent ([.pushId x] ++ js ++ [Node.lowerStore isDeclared]) := by
    have hname : extent [.pushId x] = 2 := rfl
    rw [extent_append, extent_append, hname]
    omega
  obtain ⟨u, rfl, hu⟩ := operands_in_assignment hjs
    (hstart.ofPart hs hrow hat (by omega) hend) (by omega) (Nat.le_of_eq hstore)
  rw [hu hstore] at hmatch
  cases hmatch with
  | any v hmatch =>
    cases hmatch with
    | name _ hmatch =>
      cases hmatch
      exact ⟨v, hus⟩

/-- From step `i` to step `n` an assignment to `x` pushes the name and then runs the code of its
value, in one activation. -/
structure Evaluates (host : Host) (m : Machine) (id start store : Nat) (x : String) (i n : Nat) :
    Prop where
  enters : (m.after host i).code = id ∧ (m.after host i).ip = start
  name : m.after host (i + 1) =
    { m.after host i with stack := .string x :: (m.after host i).stack, ip := start + 2 }
  value : Spans (m.after host) id (start + 2) store (i + 1) n

theorem Spans.evaluates {m : Machine} {is js : List Instruction}
    (h : Spans (m.after host) id start store i n) (hs : (Script.streams ns)[id]? = some is)
    (hrow : Stands is start (.pushId x :: js)) (hstore : start < store)
    (hp : (m.after host i).program = assemble (Script.streams ns)) :
    Evaluates host m id start store x i n := by
  obtain ⟨hle, ⟨rfl, rfl⟩, hinside, hcalls, hip⟩ := h
  have hlt : i < n := by
    apply Nat.lt_of_le_of_ne hle
    rintro rfl
    omega
  have hf : (m.after host i).Faces (Script.streams ns) (.pushId x :: js) := ⟨hp, is, hs, hrow⟩
  have ht : Transition host (m.after host i) (.pushId x) _ := .literal rfl
  have hname : m.after host (i + 1) = _ := ht.successor hf
  refine ⟨⟨rfl, rfl⟩, hname, hlt, ?_, fun k hi hk => ?_, ?_, hip⟩
  · rw [hname]
    exact ⟨rfl, rfl⟩
  · rw [hname]
    exact hinside k (Nat.le_of_succ_le hi) hk
  · rw [hname]
    exact hcalls

/-- An assignment binds the variable that it names.  Whoever is about to bind the name of an
assignment has begun it at some step `i`.  If all calls since then have passed just as many
arguments as were taken, the stack is as it was at `i`, but with the name and the value on top;
they are taken from it, the name is bound to the value, and no other binding changes. -/
theorem assignment_binds {s s' : TokenStream} {ns : List Node} (h : s.parse = .ok ns s') :
    ∃ p c, Program.ofNodes ns = .ok p c ∧ ∀ host n id start store x,
      Runs host (ofProgram p) n → AssignAt ns id start store x →
      ((ofProgram p).after host n).code = id → ((ofProgram p).after host n).ip = store →
      ∃ i, Evaluates host (ofProgram p) id start store x i n ∧
        ((∀ k, i < k → k < n → Passes ns (· = ·) ((ofProgram p).after host k)) →
          ∃ v m', ((ofProgram p).after host n).stack =
              v :: .string x :: ((ofProgram p).after host i).stack ∧
            step host ((ofProgram p).after host n) = .ok true m' ∧
            m'.stack = ((ofProgram p).after host i).stack ∧
            ((ofProgram p).after host n).Binds x v m') := by
  have hns := TokenStream.statement_of_parse h
  obtain ⟨c, hc⟩ := Program.ofNodes_of_statement hns
  refine ⟨_, c, hc, fun host n id start store x hrun hassign hcode hip => ?_⟩
  obtain ⟨is, js, isDeclared, hs, hrow, hstore, -⟩ := hassign.exists_row hns
  obtain ⟨i, hspan⟩ := hassign.exists_spans hns hrun hcode hip
  obtain ⟨ts, hl⟩ := layered_after (Script.operands ns hns) host i
  have heval : Evaluates host _ id start store x i n :=
    hspan.evaluates hs hrow (by omega) hl.program
  refine ⟨i, heval, fun hpass => ?_⟩
  have hpass' (k : Nat) (hi : i ≤ k) (hk : k < n) :
      Passes ns (· = ·) ((ofProgram (assemble (Script.streams ns))).after host k) := by
    rcases Nat.lt_or_eq_of_le hi with hlt | rfl
    · exact hpass k hlt hk
    · -- The first instruction pushes a name, so it is no call.
      intro args f vs hf
      rw [← heval.enters.1] at hs
      cases hf.eq_head hs (heval.enters.2 ▸ hrow)
  obtain ⟨v, hv⟩ := hspan.stack_of_assignAt hassign hns hcode ⟨ts, hl⟩ hrun hpass'
  obtain ⟨ts', hl'⟩ := layered_after (Script.operands ns hns) host n
  have hf : ((ofProgram (assemble (Script.streams ns))).after host n).Faces (Script.streams ns)
      [Node.lowerStore isDeclared] := by
    refine ⟨hl'.program, is, by rw [hcode, hs], ?_⟩
    have hlast := hrow.right
    rw [extent_append, ← Nat.add_assoc] at hlast
    rw [hip, hstore]
    exact hlast
  obtain ⟨m', hstep, hs', hbinds⟩ := exists_binds_of_store hf hv
    (List.length_pos_iff.1 (frameDepth_after ns host n).pos) host
  exact ⟨v, m', hv, hstep, hs', hbinds⟩

/-- The script `function f(a) return a end x = f(1)`. -/
def exactCall : List Node :=
  [.function "f" ["a"] [.ret (.value (.variable "a"))],
    .assign false (.value (.variable "x")) (.call none "f" [.value (.number 1)])]

theorem passes_exactCall {k : Nat} (hk : k < 15) :
    Passes exactCall (· = ·) ((ofProgram (assemble (Script.streams exactCall))).after
      ⟨.unlimited, fun a => a⟩ k) := by
  have hcalls : ∀ k < 15, k ≠ 7 → ((ofProgram (assemble (Script.streams exactCall))).after
      ⟨.unlimited, fun a => a⟩ k).op? ≠ some .call := by decide +kernel
  have hmain : (Script.streams exactCall)[0]? = some (Node.lowerBlock .start 0 exactCall) := rfl
  by_cases h7 : k = 7
  · subst h7
    have hat : reaches ⟨.unlimited, fun a => a⟩ (ofProgram (assemble (Script.streams exactCall))) 7
        fun m => m.code = 0 ∧ m.ip = 12 ∧
          m.stack = [.function (.compiled 1), .number 1, .string "x"] := by decide +kernel
    obtain ⟨hcode, hip, hstack⟩ := of_decide_eq_true (runs_of_reaches hat).2
    refine passes_of_stands (hcode ▸ hmain) (hip ▸ ?_) hstack rfl
    exact ⟨[.pushId "f", .pushFunction 1, .setEnvGlobal, .pushId "x", .pushNumber 1, .pushId "f",
      .getEnv], [.setEnvGlobal], rfl, rfl⟩
  · exact passes_of_op? (hcalls k hk h7)

theorem assignment_binds_exactCall :
    ∃ s s' p c i v m', TokenStream.parse s = .ok exactCall s' ∧
      Program.ofNodes exactCall = .ok p c ∧ AssignAt exactCall 0 5 13 "x" ∧
      Evaluates ⟨.unlimited, fun a => a⟩ (ofProgram p) 0 5 13 "x" i 15 ∧
      step ⟨.unlimited, fun a => a⟩ ((ofProgram p).after ⟨.unlimited, fun a => a⟩ 15) =
        .ok true m' ∧
      ((ofProgram p).after ⟨.unlimited, fun a => a⟩ 15).Binds "x" v m' := by
  have hparse : (TokenStream.mk ([.keyword .functionKw, .ident "f", .symbol .lparen, .ident "a",
      .symbol .rparen, .keyword .returnKw, .ident "a", .keyword .endKw, .ident "x", .symbol .assign,
      .ident "f", .symbol .lparen, .number 1, .symbol .rparen].map (⟨·, .start⟩)) .start).parse =
      .ok exactCall ⟨[], .start⟩ := by
    cbv
  have hassign : AssignAt exactCall 0 5 13 "x" :=
    ⟨_, List.mem_cons_of_mem _ List.mem_cons_self, ⟨false, _, rfl⟩, rfl, rfl⟩
  have hreach : reaches ⟨.unlimited, fun a => a⟩ (ofProgram (assemble (Script.streams exactCall)))
      15 fun m => m.code = 0 ∧ m.ip = 13 := by decide +kernel
  obtain ⟨hrun, hat⟩ := runs_of_reaches hreach
  obtain ⟨hcode, hip⟩ := of_decide_eq_true hat
  obtain ⟨c', hc'⟩ := Program.ofNodes_of_statement (TokenStream.statement_of_parse hparse)
  obtain ⟨p, c, hc, hbinds⟩ := assignment_binds hparse
  cases hc.symm.trans hc'
  obtain ⟨i, heval, hpass⟩ := hbinds _ 15 0 5 13 "x" hrun hassign hcode hip
  obtain ⟨v, m', -, hstep, -, hbinds⟩ := hpass fun k _ hk => passes_exactCall hk
  exact ⟨_, _, _, _, i, v, m', hparse, hc, hassign, heval, hstep, hbinds⟩

/-- A run of a parsed script in which the store of an assignment to `x` is done, and binds `y`
and not `x`. -/
def BindsOther (ns : List Node) : Prop :=
  ∃ s s' p c host n id start store m', TokenStream.parse s = .ok ns s' ∧
    Program.ofNodes ns = .ok p c ∧ Runs host (ofProgram p) n ∧ AssignAt ns id start store "x" ∧
    ((ofProgram p).after host n).code = id ∧ ((ofProgram p).after host n).ip = store ∧
    step host ((ofProgram p).after host n) = .ok true m' ∧
    (∀ v, ¬ ((ofProgram p).after host n).Binds "x" v m') ∧
    ((ofProgram p).after host n).lookup "y" = .nil ∧ m'.lookup "y" = .number 1

theorem bindsOther_of_reaches {s s' : TokenStream} (hparse : s.parse = .ok ns s')
    (hassign : AssignAt ns id start store "x")
    (h : reaches host (ofProgram (assemble (Script.streams ns))) n
      fun m => m.code = id ∧ m.ip = store ∧ m.lookup "y" = .nil)
    (h' : reaches host (ofProgram (assemble (Script.streams ns))) (n + 1)
      fun m => m.lookup "y" = .number 1 ∧ ∀ f ∈ m.frames, f.get? "x" = none) :
    BindsOther ns := by
  obtain ⟨c, hc⟩ := Program.ofNodes_of_statement (TokenStream.statement_of_parse hparse)
  obtain ⟨hrun, hat⟩ := runs_of_reaches h
  obtain ⟨hcode, hip, hy⟩ := of_decide_eq_true hat
  obtain ⟨hrun', hat'⟩ := runs_of_reaches h'
  obtain ⟨hy', hx⟩ := of_decide_eq_true hat'
  obtain ⟨m', hstep⟩ := hrun' n (Nat.lt_succ_self n)
  rw [after_succ, successor, hstep, stateOf_ok] at hy' hx
  refine ⟨s, s', _, c, host, n, id, start, store, m', hparse, hc, hrun, hassign, hcode, hip, hstep,
    ?_, hy, hy'⟩
  rintro v ⟨above, f, g, below, -, hframes, -, hg, -⟩
  rw [hx g (by simp [hframes])] at hg
  cases hg

/-- The script `function f(a) return 1 end x = f("y", 2)`. -/
def surplusArgument : List Node :=
  [.function "f" ["a"] [.ret (.value (.number 1))],
    .assign false (.value (.variable "x"))
      (.call none "f" [.value (.string "y"), .value (.number 2)])]

/-- The script `function f(a) return 1 end function g() x = f() end g("y")`. -/
def missingArgument : List Node :=
  [.function "f" ["a"] [.ret (.value (.number 1))],
    .function "g" [] [.assign false (.value (.variable "x")) (.call none "f" [])],
    .call none "g" [.value (.string "y")]]

/-- A surplus argument stays on the stack above the name, and a missing one is taken from where
the name is.  Either way, another string may come to be where the name should be. -/
theorem bindsOther_of_arity : BindsOther surplusArgument ∧ BindsOther missingArgument := by
  constructor
  · have hparse : (TokenStream.mk ([.keyword .functionKw, .ident "f", .symbol .lparen, .ident "a",
        .symbol .rparen, .keyword .returnKw, .number 1, .keyword .endKw, .ident "x",
        .symbol .assign, .ident "f", .symbol .lparen, .string "y", .symbol .comma, .number 2,
        .symbol .rparen].map (⟨·, .start⟩)) .start).parse =
        .ok surplusArgument ⟨[], .start⟩ := by
      cbv
    have hassign : AssignAt surplusArgument 0 5 15 "x" :=
      ⟨_, List.mem_cons_of_mem _ List.mem_cons_self, ⟨false, _, rfl⟩, rfl, rfl⟩
    have h : reaches ⟨.unlimited, fun a => a⟩
        (ofProgram (assemble (Script.streams surplusArgument))) 15
        fun m => m.code = 0 ∧ m.ip = 15 ∧ m.lookup "y" = .nil := by decide +kernel
    exact bindsOther_of_reaches hparse hassign h (by decide +kernel)
  · have hparse : (TokenStream.mk ([.keyword .functionKw, .ident "f", .symbol .lparen, .ident "a",
        .symbol .rparen, .keyword .returnKw, .number 1, .keyword .endKw, .keyword .functionKw,
        .ident "g", .symbol .lparen, .symbol .rparen, .ident "x", .symbol .assign, .ident "f",
        .symbol .lparen, .symbol .rparen, .keyword .endKw, .ident "g", .symbol .lparen,
        .string "y", .symbol .rparen].map (⟨·, .start⟩)) .start).parse =
        .ok missingArgument ⟨[], .start⟩ := by
      cbv
    have hassign : AssignAt missingArgument 2 1 7 "x" :=
      ⟨_, List.mem_cons_self, ⟨false, _, rfl⟩, rfl, rfl⟩
    have h : reaches ⟨.unlimited, fun a => a⟩
        (ofProgram (assemble (Script.streams missingArgument))) 21
        fun m => m.code = 2 ∧ m.ip = 7 ∧ m.lookup "y" = .nil := by decide +kernel
    exact bindsOther_of_reaches hparse hassign h (by decide +kernel)

end Machine

end Scriptlet
