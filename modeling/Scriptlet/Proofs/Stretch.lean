import Scriptlet.Proofs.Assignment
import Scriptlet.Proofs.LexicalScope

/-! What a block of statements leaves as it was.  One activation runs a block from its beginning to
its end, with calls in between.  If they pass just as many arguments as are taken, the stack is
the same at the end as at the beginning, no frame is left open, and a name that the block does not
store in its own scope has the value that it had in the frame of that scope. -/

namespace Scriptlet

open Code

namespace Node

/-- The statement stores a value under the name in the scope that it stands in.  The body of an
`if` is in the scope around it; loops and functions have their own. -/
inductive Rebinds (x : String) : Node → Prop
  | here {n : Node} : Script.Stores x n → Rebinds x n
  | branch {condition n : Node} {body : List Node} : n ∈ body → Rebinds x n →
    Rebinds x (.ifThen condition body)

/-- No store into the innermost frame that the row makes in the scope around it is for the name
`x`, if the operands `s` are there at its beginning. -/
def Spares (x : String) (s : List (Option String)) (is : List Instruction) : Prop :=
  ∀ pre post o y u, is = pre ++ .setEnv :: post → scopeEffect.scan [] pre = some [] →
    operandEffect.scan s pre = some (o :: some y :: u) → y ≠ x

namespace Spares

variable {x : String} {s t : List (Option String)} {is js : List Instruction}

theorem of_notMem (h : .setEnv ∉ is) : Spares x s is := by
  rintro pre post o y u rfl
  exact absurd (List.mem_append_right pre List.mem_cons_self) h

theorem append (h : Spares x s is) (hscopes : scopeEffect.scan [] is = some [])
    (ht : operandEffect.scan s is = some t) (h' : Spares x t js) : Spares x s (is ++ js) := by
  intro pre post o y u hcut hpre hoperands
  have hright {r : List Instruction} (hr : pre = is ++ r) (hjs : js = r ++ .setEnv :: post) :
      y ≠ x := by
    subst hr
    rw [Effect.scan_append_of_eq hscopes] at hpre
    rw [Effect.scan_append_of_eq ht] at hoperands
    exact h' r post o y u hjs hpre hoperands
  obtain ⟨r, hr, hjs⟩ | ⟨r, rfl, hr⟩ := List.append_eq_append_iff.1 hcut
  · exact hright hr hjs
  · cases r with
    | nil =>
      have hpre : pre = pre ++ [] ++ [] := by simp
      exact hright hpre hr.symm
    | cons i r =>
      obtain ⟨rfl, -⟩ := List.cons.inj hr
      exact h pre r o y u rfl hpre hoperands

theorem scope {base : Nat} (h : KeepsScopes base is) :
    Spares x s ([.enterScope] ++ is ++ [.leaveScope]) := by
  intro pre post o y u hcut hpre
  cases pre with
  | nil => cases hcut
  | cons i pre =>
    obtain ⟨rfl, hrest⟩ := List.cons.inj hcut
    have hrest : is ++ [.leaveScope] = pre ++ .setEnv :: post := hrest
    have hpre : scopeEffect.scan [()] pre = some [] := hpre
    obtain ⟨r, rfl, hr⟩ | ⟨r, rfl, -⟩ := List.append_eq_append_iff.1 hrest
    · rw [Effect.scan_append_of_eq (h [()]).scan] at hpre
      cases r with
      | nil => cases hr
      | cons j r => simp at hr
    · obtain ⟨w, hw, -⟩ := Effect.exists_scan_of_append (h []).scan
      have := framed_scopeEffect.scan hw [()]
      rw [List.nil_append, hpre] at this
      simp at this

end Spares

theorem setEnv_notMem_lowerArguments {args : List Node}
    (h : ∀ n ∈ args, ∀ σ base, .setEnv ∉ lower σ base n) (σ : Scoping) (base : Nat) :
    .setEnv ∉ lowerArguments σ base args := by
  induction args generalizing σ base with
  | nil => exact List.not_mem_nil
  | cons n ns ih =>
    obtain ⟨hn, hns⟩ := List.forall_mem_cons.1 h
    rw [lowerArguments, List.mem_append]
    exact not_or.2 ⟨hn σ base, ih hns _ _⟩

mutual

theorem Postfixed.setEnv_notMem {n : Node} :
    Postfixed n → ∀ σ base, .setEnv ∉ lower σ base n
  | .value l => fun _ _ => by
    cases l with
    | boolean b => cases b <;> simp [lower, lowerLiteral]
    | _ => simp [lower, lowerLiteral, load]
  | .call r f h => fun σ base => by
    have hargs := setEnv_notMem_lowerArguments (fun n hn => (h n hn).setEnv_notMem) σ base
    cases r <;> simp [lower, lowerCallee, load, hargs]
  | .index b h => fun σ base => by
    simp [lower, load, h.setEnv_notMem]

theorem Expression.setEnv_notMem {n : Node} :
    Expression n → ∀ σ base, .setEnv ∉ lower σ base n
  | .postfixed h => h.setEnv_notMem
  | .notEqual hl hr => fun σ base => by
    simp [lower, hl.setEnv_notMem, hr.setEnv_notMem]

end

theorem spares_lowerStore {x y : String} (h : y ≠ x) (isDeclared : Bool) :
    Spares x [none, some y] [lowerStore isDeclared] := by
  intro pre post o z u hcut _ hoperands
  cases pre with
  | nil =>
    cases hoperands
    exact h
  | cons i pre => simp at hcut

theorem spares_lowerBlock {x : String} {ns : List Node} (hns : ∀ n ∈ ns, Statement n)
    (h : ∀ n ∈ ns, ∀ σ base, Spares x [] (lowerStatement σ base n)) (σ : Scoping) (base : Nat) :
    Spares x [] (lowerBlock σ base ns) := by
  induction ns generalizing σ base with
  | nil => exact .of_notMem List.not_mem_nil
  | cons n ns ih =>
    obtain ⟨hn, hs⟩ := List.forall_mem_cons.1 h
    obtain ⟨hstatement, hstatements⟩ := List.forall_mem_cons.1 hns
    have hscopes : KeepsScopes base (lowerStatement σ base n) := by
      refine (keepsScopes_lower σ base n).appendPlain ?_
      split <;> rfl
    exact (hn σ base).append (hscopes []).scan (hstatement.settles σ base).scan
      (ih hstatements hs _ _)

theorem Statement.spares {x : String} {n : Node} (h : Statement n) (hx : ¬ Rebinds x n)
    (σ : Scoping) (base : Nat) : Spares x [] (lowerStatement σ base n) := by
  induction h generalizing σ base with
  | expression h =>
    rw [lowerStatement, if_pos h.isExpression]
    exact .of_notMem (by simp [h.setEnv_notMem])
  | @assign isLocal y v hv =>
    rw [lowerStatement_of_not rfl, lower]
    have hne : y ≠ x := by
      rintro rfl
      exact hx (.here (.assign isLocal v))
    have hvalue : KeepsScopes base ([.pushId y] ++ lower (σ.declareIf isLocal y) (base + 2) v) :=
      KeepsScopes.append (.plain rfl base) (keepsScopes_lower _ _ v) rfl
    exact .append (.of_notMem (by simp [hv.setEnv_notMem])) (hvalue []).scan
      (hv.pushesOne _ (base + 2) [some y]).scan (spares_lowerStore hne _)
  | assignIndex b hk hv =>
    rw [lowerStatement_of_not rfl, lower]
    exact .of_notMem (by simp [load, hk.setEnv_notMem, hv.setEnv_notMem])
  | @ifThen condition body hc hb ih =>
    rw [lowerStatement_of_not rfl, lower]
    have hcondition := hc.pushesOne σ base []
    refine .append (.of_notMem (by simp [hc.setEnv_notMem])) ?_ ?_
      (spares_lowerBlock hb (fun n hn => ih n hn fun hn' => hx (.branch hn hn')) _ _)
    · rw [Effect.scan_append_of_eq (keepsScopes_lower σ base condition []).scan]
      simp
    · rw [Effect.scan_append_of_eq hcondition.scan]
      rfl
  | forLoop y hv he hb =>
    rw [lowerStatement_of_not rfl, lower_forLoop rfl]
    exact .scope (keepsScopes_lowerTurns (keepsScopes_lower _ _ _)
      (fun b => keepsScopes_lower _ b _) fun b => keepsScopes_lowerBlock _ b _)
  | @function f params body hb ih =>
    rw [lowerStatement_of_not rfl, lower]
    have hne : f ≠ x := by
      rintro rfl
      exact hx (.here (.function params body))
    have hnames : Spares x [] [.pushId f, .pushFunction σ.next] := .of_notMem (by simp)
    exact hnames.append rfl rfl (spares_lowerStore hne _)
  | ret hv =>
    rw [lowerStatement_of_not rfl, lower]
    exact .of_notMem (by simp [hv.setEnv_notMem])

def JumpsAhead (base : Nat) (is : List Instruction) : Prop :=
  ∀ i ∈ is, ∀ a, i.target? = some a → base < a

namespace JumpsAhead

variable {base start : Nat} {is js : List Instruction}

theorem straight (h : ∀ i ∈ is, i.target? = none) (base : Nat) : JumpsAhead base is := by
  intro i hi a ha
  rw [h i hi] at ha
  cases ha

theorem plain (h : is.all Instruction.isPlain) (base : Nat) : JumpsAhead base is :=
  .straight (fun i hi => Instruction.target?_of_isPlain (List.all_eq_true.1 h i hi)) base

theorem append (h : JumpsAhead base is) (h' : JumpsAhead start js) (hs : base ≤ start) :
    JumpsAhead base (is ++ js) := by
  intro i hi a ha
  rcases List.mem_append.1 hi with hi | hi
  · exact h i hi a ha
  · exact Nat.lt_of_le_of_lt hs (h' i hi a ha)

theorem jump {i : Instruction} {a : Nat} (hi : i.target? = some a) (h : base < a) :
    JumpsAhead base [i] := by
  intro j hj b hb
  cases List.mem_singleton.1 hj
  cases hi.symm.trans hb
  exact h

end JumpsAhead

theorem jumpsAhead_lowerBlock {ns : List Node}
    (h : ∀ n ∈ ns, ∀ σ base, JumpsAhead base (lowerStatement σ base n)) (σ : Scoping)
    (base : Nat) : JumpsAhead base (lowerBlock σ base ns) := by
  induction ns generalizing σ base with
  | nil => exact .plain rfl base
  | cons n ns ih =>
    obtain ⟨hn, hns⟩ := List.forall_mem_cons.1 h
    exact (hn σ base).append (ih hns _ _) (Nat.le_add_right _ _)

theorem Statement.jumpsAhead {n : Node} (h : Statement n) (σ : Scoping) (base : Nat) :
    JumpsAhead base (lowerStatement σ base n) := by
  induction h generalizing σ base with
  | expression h =>
    rw [lowerStatement, if_pos h.isExpression]
    exact .plain (by simp [h.isPlain_lower, Instruction.isPlain]) base
  | assign isLocal y hv =>
    rw [lowerStatement_of_not rfl]
    exact .plain (isPlain_assign hv isLocal y σ base) base
  | assignIndex b hk hv =>
    rw [lowerStatement_of_not rfl, lower]
    exact .plain (by simp [load, hk.isPlain_lower, hv.isPlain_lower, Instruction.isPlain]) base
  | ifThen hc hb ih =>
    rw [lowerStatement_of_not rfl, lower]
    refine .append (.append (.plain (hc.isPlain_lower σ base) base) (.jump rfl ?_)
      (Nat.le_refl base)) (jumpsAhead_lowerBlock ih _ _) ?_
    · omega
    · omega
  | forLoop y hv he hb ih =>
    rw [lowerStatement_of_not rfl, lower_forLoop rfl, lowerTurns]
    have hle : base ≤ base := Nat.le_refl base
    have hinitial := JumpsAhead.plain (isPlain_assign hv true y (σ.enter []) (base + 1)) base
    have htest {σ : Scoping} {b : Nat} {bound : Node} (he : Expression bound) :
        JumpsAhead base (load y ++ lower σ b bound ++ [.notEqual]) :=
      .plain (by simp [load, he.isPlain_lower, Instruction.isPlain]) base
    have hadvance (b : Nat) : JumpsAhead b (lowerAdvance y) := .plain rfl b
    have hbody {σ : Scoping} {b : Nat} := (jumpsAhead_lowerBlock ih σ b).append (hadvance b)
      (Nat.le_refl b)
    have hscope {i : Instruction} (hi : i.target? = none) : JumpsAhead base [i] :=
      .straight (by simpa using hi) base
    refine .append (.append (hscope rfl) (.append (.append (.append (.append hinitial (htest he)
      hle) (.jump rfl ?_) hle) hbody ?_) (.jump rfl ?_) hle) hle) (hscope rfl) hle
    · omega
    · omega
    · omega
  | function f params hb ih =>
    rw [lowerStatement_of_not rfl, lower]
    refine .plain ?_ base
    simpa [Instruction.isPlain] using isPlain_lowerStore (σ.isDeclared f)
  | ret hv =>
    rw [lowerStatement_of_not rfl, lower]
    exact .plain (by simp [hv.isPlain_lower, Instruction.isPlain]) base

end Node

namespace Machine

variable {host : Host} {ns : List Node} {hns : ∀ n ∈ ns, n.Statement} {m m' : Machine}
  {id start i j k : Nat} {row : List Instruction} {x : String}

/-- The first `n` steps go on, and the calls in them pass just as many arguments as are taken. -/
structure RunsExactly (host : Host) (ns : List Node) (m : Machine) (n : Nat) : Prop where
  runs : Runs host m n
  passes : ∀ k, k < n → Passes ns (· = ·) (m.after host k)

theorem runsExactly_zero (host : Host) (ns : List Node) (m : Machine) : RunsExactly host ns m 0 :=
  ⟨runs_zero host m, fun k hk => absurd hk (Nat.not_lt_zero k)⟩

theorem RunsExactly.mono {n k : Nat} (h : RunsExactly host ns m n) (hk : k ≤ n) :
    RunsExactly host ns m k :=
  ⟨h.runs.mono hk, fun j hj => h.passes j (Nat.lt_of_lt_of_le hj hk)⟩

theorem RunsExactly.add {n d : Nat} (h : RunsExactly host ns m n)
    (h' : RunsExactly host ns (m.after host n) d) : RunsExactly host ns m (n + d) := by
  refine ⟨h.runs.add h'.runs, fun k hk => ?_⟩
  rcases Nat.lt_or_ge k n with hlt | hge
  · exact h.passes k hlt
  · have := h'.passes (k - n) (by omega)
    rwa [← after_add, Nat.add_sub_cancel' hge] at this

/-- The row stands from `start` on in the stream `id`, at a place where there are no operands.  It
closes the scopes that it opens and takes the operands that it pushes. -/
structure BlockAt (ns : List Node) (hns : ∀ n ∈ ns, n.Statement) (id start : Nat)
    (row : List Instruction) : Prop where
  stands : ∃ is, (Script.streams ns)[id]? = some is ∧ Stands is start row
  scopes : KeepsScopes start row
  operands : operandEffect.Flows start [] row []
  bare : (Script.operands ns hns).At id start []

namespace Spans

theorem acts (h : Spans (m.after host) id start (start + extent row) i j)
    (hb : BlockAt ns hns id start row) (hm : ∀ k, FrameDepth ns (m.after host k)) :
    (m.after host j).calls = (m.after host i).calls ∧ (m.after host j).code = id := by
  obtain ⟨is, hs, hrow⟩ := hb.stands
  obtain ⟨a, t, ha, -⟩ := h.above hs hrow hb.operands (course_after host m)
    (fun k => (hm k).placed) h.le (Nat.le_refl j)
  obtain ⟨hcalls, hcode, -⟩ := ha.eq_active (Nat.le_of_eq h.leaves.1)
  exact ⟨hcalls, hcode⟩

theorem stack_eq (h : Spans (m.after host) id start (start + extent row) i j)
    (hb : BlockAt ns hns id start row) (hm : ∀ k, FrameDepth ns (m.after host k))
    (hl : ∃ ts, (Script.operands ns hns).Layered (m.after host i) ts)
    (hrun : RunsExactly host ns m j) : (m.after host j).stack = (m.after host i).stack := by
  obtain ⟨is, hs, hrow⟩ := hb.stands
  obtain ⟨t, us, hat, hus, hmatch⟩ := h.exists_operands hb.bare (h.acts hb hm).2 hl hrun.runs
    fun k _ hk => hrun.passes k hk
  cases hat.unique (hb.bare.part hs hrow (.stop hb.operands.scan))
  cases hmatch
  exact hus

theorem frames_le (h : Spans (m.after host) id start (start + extent row) i j)
    (hb : BlockAt ns hns id start row) (hm : ∀ k, FrameDepth ns (m.after host k)) (hi : i ≤ k)
    (hk : k ≤ j) :
    (m.after host i).frames.length ≤ (m.after host k).frames.length ∧
    ((m.after host i).frames.length = (m.after host k).frames.length →
      (m.after host k).code = id ∧ (m.after host k).calls = (m.after host i).calls ∧
      scopeEffect.At start [] row (m.after host k).ip []) := by
  obtain ⟨is, hs, hrow⟩ := hb.stands
  obtain ⟨ts, hl, hd⟩ := hm i
  obtain ⟨s, rest, rfl, hscopes⟩ := hl.layers.active
  rw [h.enters.1, h.enters.2] at hscopes
  obtain ⟨a, u, ha, hu, -⟩ := h.above hs hrow (hb.scopes []) (course_after host m)
    (fun k => (hm k).placed) hi hk
  have hat : (Script.scopes ns).At id a (u ++ s) :=
    hscopes.part hs hrow (framed_scopeEffect.at hu s)
  have hle := (hm k).above ha hd hat
  rw [List.length_append] at hle
  refine ⟨by omega, fun heq => ?_⟩
  have hnil : u = [] := List.length_eq_zero_iff.1 (by omega)
  subst hnil
  cases ha with
  | active hc => exact ⟨rfl, hc, hu⟩
  | waiting hc =>
    have := (hm k).waiting hc hd hat
    rw [List.nil_append] at this
    omega

theorem frames_eq (h : Spans (m.after host) id start (start + extent row) i j)
    (hb : BlockAt ns hns id start row) (hm : ∀ k, FrameDepth ns (m.after host k)) :
    (m.after host j).frames.length = (m.after host i).frames.length := by
  obtain ⟨is, hs, hrow⟩ := hb.stands
  obtain ⟨ts, hl, hd⟩ := hm i
  obtain ⟨s, rest, rfl, hscopes⟩ := hl.layers.active
  rw [h.enters.1, h.enters.2] at hscopes
  obtain ⟨hcalls, hcode⟩ := h.acts hb hm
  have hat : (Script.scopes ns).At (m.after host j).code (m.after host j).ip s := by
    rw [hcode, h.leaves.2]
    exact hscopes.part hs hrow (.stop (hb.scopes s).scan)
  exact (Nat.add_right_cancel ((hm j).active hcalls hd hat)).symm

end Spans

def binding (m : Machine) (d : Nat) (x : String) : Option Value :=
  (m.below d).head?.bind (·.get? x)

theorem binding_of_eq {d : Nat} (h : m.frames.length = d) :
    m.binding d x = m.frames.head?.bind (·.get? x) := by
  rw [binding, below, h, Nat.sub_self, List.drop_zero]

theorem binding_of_dropLast {d : Nat} (hd : 1 < d) (h : d ≤ m.frames.length)
    (h' : d ≤ m'.frames.length) (he : (m'.below d).dropLast = (m.below d).dropLast) :
    m'.binding d x = m.binding d x := by
  have hlen {m : Machine} (h : d ≤ m.frames.length) : 1 < (m.below d).length := by
    rw [below, List.length_drop]
    omega
  have hhead := congrArg List.head? he
  rw [List.head?_dropLast, List.head?_dropLast, if_pos (hlen h), if_pos (hlen h')] at hhead
  rw [binding, binding, hhead]

theorem Moves.binding_eq {streams : List (List Instruction)} {d : Nat}
    (h : m.Moves host streams m') (hd : 1 < d) (hle : d ≤ m.frames.length)
    (hle' : d ≤ m'.frames.length)
    (hstore : d = m.frames.length → ∀ js v y vs, m.Faces streams (.setEnv :: js) →
      m.stack = v :: .string y :: vs → y ≠ x) : m'.binding d x = m.binding d x := by
  rcases Nat.lt_or_eq_of_le hle with hlt | heq
  · exact binding_of_dropLast hd hle hle' (h.below (Nat.zero_lt_of_lt hd) hlt hle').1
  · have same (he : m'.below d = m.below d) : m'.binding d x = m.binding d x := by
      rw [binding, binding, he]
    cases h with
    | atEnd => exact same (below_of_suffix (List.drop_suffix _ _) hle')
    | stays hp =>
      obtain ⟨k, w, rfl⟩ := hp
      rfl
    | @transition i js _ hf ht =>
      cases ht with
      | @setEnv v y vs f fs hs hframes =>
        have hne := hstore heq js v y vs hf hs
        rw [binding_of_eq heq.symm, binding_of_eq (by simpa [hframes] using heq.symm)]
        simp [hframes, f.get?_bind_of_ne hne.symm v]
      | setEnvGlobal hs hframes =>
        exact binding_of_dropLast hd hle hle'
          (dropLast_below_bindGlobal m _ _ (Nat.zero_lt_of_lt hd))
      | enterScope | call => exact same (below_of_suffix_left (List.suffix_cons _ _) hle)
      | leaveScope => exact same (below_of_suffix (List.tail_suffix _) hle')
      | ret => exact same (below_of_suffix (List.drop_suffix _ _) hle')
      | builtin hs hb =>
        obtain ⟨vs, v, hm⟩ := answered_of_callBuiltin hb
        rw [hm.machine]
        rfl
      | _ => rfl

theorem Agrees.exists_name {t : List (Option String)} {ts : List (List (Option String))}
    {js : List Instruction} (h : Agrees hns Matches m t ts)
    (hf : m.Faces (Script.streams ns) (.setEnv :: js)) :
    ∃ o y u v vs, t = o :: some y :: u ∧ m.stack = v :: .string y :: vs := by
  obtain ⟨t', he, -⟩ := h.layered.read hf
  have hstack := h.stack
  match t, he with
  | o :: some y :: u, _ =>
    cases hs : m.stack with
    | nil =>
      rw [hs] at hstack
      cases hstack
    | cons v vs =>
      rw [hs] at hstack
      cases hstack.tail with
      | name _ h => exact ⟨o, y, u, v, _, rfl, rfl⟩

theorem Spans.binding_eq (h : Spans (m.after host) id start (start + extent row) i j)
    (hb : BlockAt ns hns id start row) (hrow : Node.Spares x [] row)
    (hm : ∀ k, FrameDepth ns (m.after host k))
    (hagree : ∀ k, k < j → ∃ t ts, Agrees hns Matches (m.after host k) t ts)
    (hd : 1 < (m.after host i).frames.length) (hi : i ≤ k) (hk : k ≤ j) :
    (m.after host k).binding (m.after host i).frames.length x =
      (m.after host i).binding (m.after host i).frames.length x := by
  induction hi with
  | refl => rfl
  | @step k hi ih =>
    rw [← ih (Nat.le_of_lt hk)]
    obtain ⟨hle, htop⟩ := h.frames_le hb hm hi (Nat.le_of_lt hk)
    refine (moves_successor (hm k).placed host).binding_eq hd hle
      (h.frames_le hb hm (Nat.le_succ_of_le hi) hk).1 fun heq js v y vs hf hs => ?_
    obtain ⟨hcode, hcalls, pre, post, rfl, hip, hscopes⟩ := htop heq
    obtain ⟨is, hstream, hstands⟩ := hb.stands
    obtain ⟨t, ts, ht⟩ := hagree k hk
    obtain ⟨o, z, u, w, ws, rfl, hs'⟩ := ht.exists_name hf
    rw [hs] at hs'
    cases hs'
    -- The store is in the block, and what is read before it is what its operands are.
    have hpost : ∃ post', post = .setEnv :: post' := by
      cases post with
      | nil =>
        rw [List.append_nil] at h
        exact absurd hip ((h.inside k hi hk).2 (by rw [hcalls]))
      | cons j post =>
        have hj := hstands.right
        rw [← hip] at hj
        cases hf.eq_head (hcode ▸ hstream) hj
        exact ⟨post, rfl⟩
    obtain ⟨post, rfl⟩ := hpost
    obtain ⟨t', rest, heq, hat⟩ := ht.layered.layers.active
    cases heq
    rw [hcode, hip] at hat
    obtain ⟨pre', post', hcut', hip', hscan⟩ := hb.bare.ofPart hstream hstands hat
      (Nat.le_add_right _ _) (by rw [extent_append]; omega)
    obtain ⟨rfl, -⟩ := append_inj hcut' (Nat.add_left_cancel hip')
    exact hrow pre post o y u rfl hscopes hscan

theorem Spans.mem_row {i' : Instruction} {js : List Instruction}
    (h : Spans (m.after host) id start (start + extent row) i j) (hb : BlockAt ns hns id start row)
    (hm : ∀ k, FrameDepth ns (m.after host k)) (hi : i ≤ k) (hk : k < j)
    (hcalls : (m.after host k).calls = (m.after host i).calls)
    (hf : (m.after host k).Faces (Script.streams ns) (i' :: js)) :
    start ≤ (m.after host k).ip ∧ i' ∈ row := by
  obtain ⟨is, hs, hrow⟩ := hb.stands
  obtain ⟨a, t, ha, hat, -⟩ := h.above hs hrow hb.operands (course_after host m)
    (fun k => (hm k).placed) hi (Nat.le_of_lt hk)
  obtain ⟨-, hcode, rfl⟩ := ha.eq_active (Nat.le_of_eq (by rw [hcalls]))
  refine ⟨hat.le.1, ?_⟩
  rcases hat.cases_stop with hstop | ⟨i'', js', hi''⟩
  · exact absurd hstop ((h.inside k hi hk).2 (by rw [hcalls]))
  · have hstands := hrow.trans hi''
    rw [Nat.add_sub_cancel' hat.le.1] at hstands
    cases hf.eq_head (hcode ▸ hs) hstands
    obtain ⟨pre, post, rfl, -⟩ := hi''
    simp

theorem Spans.not_above_start (h : Spans (m.after host) id start (start + extent row) i j)
    (hb : BlockAt ns hns id start row) (hahead : Node.JumpsAhead start row) (hstart : 0 < start)
    (hm : ∀ k, FrameDepth ns (m.after host k)) (hrun : Runs host m j) (hi : i ≤ k) (hk : k < j) :
    ¬ (m.after host (k + 1)).Above (m.after host i).calls id start := by
  have next {k : Nat} (hi : i ≤ k) (hk : k < j)
      (hwait : (m.after host i).calls.length < (m.after host k).calls.length →
        ¬ (m.after host k).Above (m.after host i).calls id start) :
      ¬ (m.after host (k + 1)).Above (m.after host i).calls id start := by
    intro ha
    obtain ⟨m', hstep⟩ := hrun k hk
    rw [after_succ, successor, hstep, stateOf_ok] at ha
    obtain ⟨ha, hlater⟩ | ⟨hcalls, hcode, i', js, hf, hgo⟩ | hzero :=
      ha.of_step (hm k).placed hstep
    · exact hwait hlater ha
    · obtain ⟨hle, hmem⟩ := h.mem_row hb hm hi hk hcalls hf
      rcases hgo with hgo | hgo
      · have := i'.width_pos
        omega
      · exact absurd (hahead i' hmem start hgo) (Nat.lt_irrefl start)
    · omega
  induction hi with
  | refl => exact next (Nat.le_refl i) hk fun hlt => absurd hlt (Nat.lt_irrefl _)
  | @step k hi ih => exact next (Nat.le_succ_of_le hi) hk fun _ => ih (Nat.lt_of_succ_lt hk)

end Machine

end Scriptlet
