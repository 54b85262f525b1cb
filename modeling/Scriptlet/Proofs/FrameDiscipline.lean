import Scriptlet.Proofs.CodeSafety
import Scriptlet.Proofs.Parts
import Scriptlet.Proofs.Spans

/-! The frames of a running program.  The global frame is at the bottom; every call and every
open scope has a frame above it.  So the number of frames is known from the address and the
calls, a call or a loop leaves the frames below its own as they were, and only the store for
global names reaches the bottom. -/

namespace Scriptlet

open Code

namespace Machine

variable {host : Host} {ns : List Node} {m m' : Machine} {ms : Nat → Machine}

/-- The number of frames over the layers of scopes: the global one, one for each call, and one
for each open scope. -/
inductive Depths : List Activation → List (List Unit) → Nat → Prop
  | script {t : List Unit} : Depths [] [t] (1 + t.length)
  | call {a : Activation} {calls : List Activation} {t : List Unit} {ts : List (List Unit)} :
    Depths calls ts a.depth → Depths (a :: calls) (t :: ts) (a.depth + 1 + t.length)

namespace Depths

variable {calls : List Activation} {t t' : List Unit} {ts : List (List Unit)} {n n' : Nat}

theorem replace (h : Depths calls (t :: ts) n) (hn : n' + t.length = n + t'.length) :
    Depths calls (t' :: ts) n' := by
  cases h with
  | script =>
    rw [show n' = 1 + t'.length by omega]
    exact .script
  | @call a _ _ _ h =>
    rw [show n' = a.depth + 1 + t'.length by omega]
    exact .call h

theorem length_lt (h : Depths calls (t :: ts) n) : t.length < n := by
  cases h <;> omega

theorem tail {a : Activation} (h : Depths (a :: calls) (t :: ts) n) : Depths calls ts a.depth := by
  cases h with
  | call h => exact h

theorem eq_of_nil (h : Depths [] (t :: ts) n) : n = 1 + t.length := by
  cases h with
  | script => rfl

theorem add_eq_add {ts' : List (List Unit)} (h : Depths calls (t :: ts) n)
    (h' : Depths calls (t' :: ts') n') : n + t'.length = n' + t.length := by
  cases h with
  | script =>
    cases h' with
    | script => omega
  | call _ =>
    cases h' with
    | call _ => omega

theorem lt_of_mem (h : Depths calls ts n) : ∀ a ∈ calls, a.depth < n := by
  induction h with
  | script => simp
  | @call a calls t ts _ ih =>
    intro b hb
    rcases List.mem_cons.1 hb with rfl | hb
    · omega
    · have := ih b hb
      omega

theorem pairwise (h : Depths calls ts n) :
    calls.Pairwise fun later earlier => earlier.depth < later.depth := by
  induction h with
  | script => exact .nil
  | call h ih => exact .cons h.lt_of_mem ih

end Depths

def FrameDepth (ns : List Node) (m : Machine) : Prop :=
  ∃ ts, (Script.scopes ns).Layered m ts ∧ Depths m.calls ts m.frames.length

theorem isPlain_of_literal? {i : Instruction} {v : Value} (h : literal? i = some v) :
    i.isPlain := by
  cases i <;> cases h <;> rfl

namespace FrameDepth

theorem within {t : List Unit} {ts : List (List Unit)} {i : Instruction} {js : List Instruction}
    (hl : (Script.scopes ns).Layered m (t :: ts)) (hd : Depths m.calls (t :: ts) m.frames.length)
    (hf : m.Faces (Script.streams ns) (i :: js)) (hp : m'.program = m.program)
    (hcode : m'.code = m.code) (hcalls : m'.calls = m.calls)
    (hip : m'.ip = m.ip + i.width ∨ i.target? = some m'.ip)
    (hn : ∀ t', scopeEffect t i = some t' →
      m'.frames.length + t.length = m.frames.length + t'.length) : FrameDepth ns m' := by
  obtain ⟨t', ht', hl'⟩ := hl.within hf hp hcode hcalls hip
  refine ⟨_, hl', ?_⟩
  rw [hcalls]
  exact hd.replace (hn t' ht')

theorem within_plain {t : List Unit} {ts : List (List Unit)} {i : Instruction}
    {js : List Instruction} (hl : (Script.scopes ns).Layered m (t :: ts))
    (hd : Depths m.calls (t :: ts) m.frames.length) (hf : m.Faces (Script.streams ns) (i :: js))
    (hi : i.isPlain) (hp : m'.program = m.program) (hcode : m'.code = m.code)
    (hcalls : m'.calls = m.calls) (hip : m'.ip = m.ip + i.width)
    (hn : m'.frames.length = m.frames.length) : FrameDepth ns m' := by
  refine within hl hd hf hp hcode hcalls (.inl hip) fun t' ht' => ?_
  rw [scopeEffect_of_isPlain hi] at ht'
  cases ht'
  rw [hn]

theorem into {t : List Unit} {ts : List (List Unit)} {args id : Nat} {js : List Instruction}
    (hl : (Script.scopes ns).Layered m (t :: ts)) (hd : Depths m.calls (t :: ts) m.frames.length)
    (hf : m.Faces (Script.streams ns) (.call args :: js)) (hid : id < m.program.code.size)
    (hp : m'.program = m.program)
    (hcalls : m'.calls = ⟨m.ip + 1, m.code, m.frames.length⟩ :: m.calls) (hcode : m'.code = id)
    (hip : m'.ip = 0) (hn : m'.frames.length = m.frames.length + 1) : FrameDepth ns m' := by
  obtain ⟨t', ht', hl'⟩ := hl.into hf hid hp hcalls hcode hip
  have ht' : scopeEffect t (.call args) = some t' := ht'
  rw [scopeEffect_of_isPlain rfl] at ht'
  cases ht'
  refine ⟨_, hl', ?_⟩
  rw [hcalls, hn]
  exact .call hd

theorem back {t : List Unit} {ts : List (List Unit)} {a : Activation} {calls : List Activation}
    (hl : (Script.scopes ns).Layered m (t :: ts)) (hd : Depths m.calls (t :: ts) m.frames.length)
    (hc : m.calls = a :: calls) (hp : m'.program = m.program) (hcalls : m'.calls = calls)
    (hcode : m'.code = a.code) (hip : m'.ip = a.ip)
    (hframes : m'.frames = m.frames.drop (m.frames.length - a.depth)) : FrameDepth ns m' := by
  refine ⟨ts, hl.back hc hp hcalls hcode hip, ?_⟩
  have hlt := hd.lt_of_mem a (by simp [hc])
  have hlen : m'.frames.length = a.depth := by
    rw [hframes, List.length_drop]
    omega
  rw [hc] at hd
  rw [hcalls, hlen]
  exact hd.tail

theorem moves (h : FrameDepth ns m) (hm : m.Moves host (Script.streams ns) m') :
    FrameDepth ns m' := by
  obtain ⟨ts, hl, hd⟩ := h
  obtain ⟨t, rest, rfl, -⟩ := hl.layers.active
  cases hm with
  | atEnd _ hc => exact back hl hd hc rfl rfl rfl rfl rfl
  | stays hp =>
    have hl' := hl.popped hp
    obtain ⟨k, w, rfl⟩ := hp
    exact ⟨_, hl', hd⟩
  | transition hf ht =>
    cases ht with
    | enterScope =>
      refine within hl hd hf rfl rfl rfl (.inl rfl) fun t' ht' => ?_
      cases ht'
      simp only [List.length_cons]
      omega
    | leaveScope hlen =>
      refine within hl hd hf rfl rfl rfl (.inl rfl) fun t' ht' => ?_
      cases t with
      | nil => cases ht'
      | cons _ t =>
        cases ht'
        simp only [List.length_tail, List.length_cons]
        omega
    | jump =>
      refine within hl hd hf rfl rfl rfl (.inr rfl) fun t' ht' => ?_
      rw [scopeEffect_jump] at ht'
      cases ht'
      rfl
    | @jumpIfFalse a v vs hs =>
      refine within hl hd hf rfl rfl rfl ?_ fun t' ht' => ?_
      · cases v.isTruthy with
        | true => exact .inl rfl
        | false => exact .inr rfl
      · rw [scopeEffect_jumpIfFalse] at ht'
        cases ht'
        rfl
    | call hs hid => exact into hl hd hf hid rfl rfl rfl rfl rfl
    | ret hs hc => exact back hl hd hc rfl rfl rfl rfl rfl
    | builtin hs hb =>
      obtain ⟨vs, v, hm⟩ := answered_of_callBuiltin hb
      rw [hm.machine]
      exact within_plain hl hd hf rfl rfl rfl rfl rfl rfl
    | literal hv => exact within_plain hl hd hf (isPlain_of_literal? hv) rfl rfl rfl rfl rfl
    | setEnv hs hframes => exact within_plain hl hd hf rfl rfl rfl rfl rfl (by simp [hframes])
    | setEnvGlobal hs hframes =>
      exact within_plain hl hd hf rfl rfl rfl rfl rfl (by simp [bindGlobal])
    | _ => exact within_plain hl hd hf rfl rfl rfl rfl rfl rfl

theorem placed (h : FrameDepth ns m) : m.Placed (Script.streams ns) := by
  obtain ⟨ts, hl, -⟩ := h
  exact hl.placed

theorem pos (h : FrameDepth ns m) : 0 < m.frames.length := by
  obtain ⟨ts, hl, hd⟩ := h
  obtain ⟨t, rest, rfl, -⟩ := hl.layers.active
  exact Nat.zero_lt_of_lt hd.length_lt

theorem one_lt (h : FrameDepth ns m) {js : List Instruction}
    (hf : m.Faces (Script.streams ns) (.leaveScope :: js)) : 1 < m.frames.length := by
  obtain ⟨ts, hl, hd⟩ := h
  obtain ⟨t, rest, rfl, -⟩ := hl.layers.active
  obtain ⟨t', ht', -⟩ := hl.read hf
  cases t with
  | nil => cases ht'
  | cons _ t =>
    have := hd.length_lt
    rw [List.length_cons] at this
    omega

theorem not_scopeUnderflow (h : FrameDepth ns m) :
    step host m ≠ .error .scopeUnderflow m' := by
  intro hstep
  obtain ⟨i, js, hf, hfails⟩ := fails_of_step h.placed hstep
  cases hfails with
  | noFrame hframes =>
    have := h.pos
    rw [hframes] at this
    cases this
  | lastFrame hlen => exact absurd (h.one_lt hf) (Nat.not_lt.2 hlen)
  | builtin hb => cases hb

theorem length_of_atEnd (h : FrameDepth ns m) (hm : m.AtEnd (Script.streams ns))
    (hc : m.calls = []) : m.frames.length = 1 := by
  obtain ⟨ts, hl, hd⟩ := h
  obtain ⟨-, is, hs, hip⟩ := hm
  obtain ⟨t, rest, rfl, hat⟩ := hl.layers.active
  have hend : (Script.scopes ns).At m.code m.ip [] := by
    obtain ⟨-, rfl⟩ | ⟨k, r, -, -, rfl⟩ := Script.stream_cases hs
    · rw [hip, ← Nat.zero_add (extent _)]
      exact ⟨_, hs, .stop (Node.keepsScopes_lowerBlock .start 0 ns []).scan⟩
    · rw [hip, ← Nat.zero_add (extent _)]
      exact ⟨_, hs, .stop (r.keepsScopes_lower []).scan⟩
  cases hat.unique hend
  rw [hc] at hd
  exact hd.eq_of_nil

end FrameDepth

theorem frameDepth_of_reachable (h : Reachable (ofProgram (assemble (Script.streams ns))) m) :
    FrameDepth ns m := by
  apply h.keeps
  · exact ⟨_, .start _ (Script.streams_ne_nil ns), .script⟩
  · intro m host hm
    exact hm.moves (moves_successor hm.placed host)

theorem frameDepth_after (ns : List Node) (host : Host) (n : Nat) :
    FrameDepth ns ((ofProgram (assemble (Script.streams ns))).after host n) :=
  frameDepth_of_reachable ((course_after host _).reachable n)

def below (m : Machine) (d : Nat) : List Frame := m.frames.drop (m.frames.length - d)

theorem drop_eq_of_suffix {l₁ l₂ : List α} (h : l₁ <:+ l₂) {d : Nat} (hd : d ≤ l₁.length) :
    l₂.drop (l₂.length - d) = l₁.drop (l₁.length - d) := by
  obtain ⟨l, rfl⟩ := h
  rw [List.length_append, Nat.add_sub_assoc hd, ← List.drop_drop, List.drop_left]

theorem below_of_suffix {d : Nat} (h : m'.frames <:+ m.frames) (hd : d ≤ m'.frames.length) :
    m'.below d = m.below d := (drop_eq_of_suffix h hd).symm

theorem below_of_suffix_left {d : Nat} (h : m.frames <:+ m'.frames) (hd : d ≤ m.frames.length) :
    m'.below d = m.below d := drop_eq_of_suffix h hd

theorem modify_concat (l : List α) (x : α) (f : α → α) :
    (l ++ [x]).modify ((l ++ [x]).length - 1) f = l ++ [f x] := by
  induction l with
  | nil => rfl
  | cons y l ih => simpa using ih

theorem dropLast_below_bindGlobal (m : Machine) (x : String) (v : Value) {d : Nat} (hd : 0 < d) :
    ((m.bindGlobal x v).below d).dropLast = (m.below d).dropLast := by
  obtain hnil | ⟨fs, f, hf⟩ := List.eq_nil_or_concat m.frames
  · simp [Machine.below, bindGlobal, hnil]
  · rw [List.concat_eq_append] at hf
    have hle : (fs ++ [f]).length - d ≤ fs.length := by
      rw [List.length_append, List.length_singleton]
      omega
    simp only [Machine.below, bindGlobal, hf, List.length_modify]
    rw [modify_concat, List.drop_append_of_le_length hle, List.drop_append_of_le_length hle,
      List.dropLast_concat, List.dropLast_concat]

theorem Moves.below {streams : List (List Instruction)} (h : m.Moves host streams m') {d : Nat}
    (hpos : 0 < d) (hd : d < m.frames.length) (hd' : d ≤ m'.frames.length) :
    (m'.below d).dropLast = (m.below d).dropLast ∧
      (m.op? ≠ some .setEnvGlobal → m'.below d = m.below d) := by
  have same (he : m'.below d = m.below d) : (m'.below d).dropLast = (m.below d).dropLast ∧
      (m.op? ≠ some .setEnvGlobal → m'.below d = m.below d) := ⟨by rw [he], fun _ => he⟩
  cases h with
  | atEnd _ _ => exact same (below_of_suffix (List.drop_suffix _ _) hd')
  | stays hp =>
    obtain ⟨k, w, rfl⟩ := hp
    exact same rfl
  | transition hf ht =>
    cases ht with
    | @setEnv v x vs f fs hs hframes =>
      rw [hframes, List.length_cons] at hd
      have hfs : d ≤ fs.length := Nat.le_of_lt_succ hd
      have hold := drop_eq_of_suffix (List.suffix_cons f fs) hfs
      have hnew := drop_eq_of_suffix (List.suffix_cons (f.bind x v) fs) hfs
      refine same ?_
      simp only [Machine.below, hframes]
      exact hnew.trans hold.symm
    | setEnvGlobal hs hframes =>
      exact ⟨dropLast_below_bindGlobal m _ _ hpos, fun hop => absurd hf.op? hop⟩
    | enterScope | call => exact same (below_of_suffix_left (List.suffix_cons _ _) (Nat.le_of_lt hd))
    | leaveScope => exact same (below_of_suffix (List.tail_suffix _) hd')
    | ret => exact same (below_of_suffix (List.drop_suffix _ _) hd')
    | builtin hs hb =>
      obtain ⟨vs, v, hm⟩ := answered_of_callBuiltin hb
      rw [hm.machine]
      exact ⟨rfl, fun _ => rfl⟩
    | _ => exact same rfl

theorem getLast?_below {d : Nat} (hpos : 0 < d) (hd : d ≤ m.frames.length) :
    (m.below d).getLast? = m.frames.getLast? := by
  rw [Machine.below, List.getLast?_drop, if_neg (by omega)]

/-- From step `i` to step `j`, no frame is opened or closed on balance, those above the global
one are as they were, and the global one changes only by the store that is meant for it. -/
structure FramesKept (ms : Nat → Machine) (i j : Nat) : Prop where
  length : (ms j).frames.length = (ms i).frames.length
  inner : (ms j).frames.dropLast = (ms i).frames.dropLast
  global : ∀ k, i ≤ k → k < j → (ms k).op? ≠ some .setEnvGlobal →
    (ms (k + 1)).frames.getLast? = (ms k).frames.getLast?

theorem framesKept_of_lt {i j : Nat} (hc : Course m ms) (hm : ∀ k, FrameDepth ns (ms k))
    (hij : i < j) (hopen : (ms (i + 1)).frames = [] :: (ms i).frames)
    (hin : ∀ k, i < k → k < j → (ms i).frames.length < (ms k).frames.length)
    (hlen : (ms j).frames.length = (ms i).frames.length) :
    FramesKept ms i j := by
  have hpos := (hm i).pos
  have hle {k : Nat} (hi : i < k) (hj : k ≤ j) :
      (ms i).frames.length ≤ (ms k).frames.length := by
    rcases Nat.lt_or_eq_of_le hj with hj | rfl
    · exact Nat.le_of_lt (hin k hi hj)
    · exact Nat.le_of_eq hlen.symm
  -- The steps in between run above the frames of step `i`, so they leave those alone.
  have hstep {k : Nat} (hi : i < k) (hj : k < j) :
      ((ms (k + 1)).below (ms i).frames.length).dropLast =
          ((ms k).below (ms i).frames.length).dropLast ∧
        ((ms k).op? ≠ some .setEnvGlobal →
          (ms (k + 1)).below (ms i).frames.length = (ms k).below (ms i).frames.length) := by
    obtain ⟨host, hmoves⟩ := hc.moves (hm k).placed
    exact hmoves.below hpos (hin k hi hj) (hle (Nat.lt_succ_of_lt hi) hj)
  have hbelow {k : Nat} (hi : i < k) (hj : k ≤ j) :
      ((ms k).below (ms i).frames.length).dropLast =
        (ms i).frames.dropLast := by
    induction hi with
    | refl => simp [below, hopen]
    | @step k hi ih =>
      rw [← ih (Nat.le_of_lt hj)]
      exact (hstep hi hj).1
  refine ⟨hlen, ?_, ?_⟩
  · rw [← hbelow hij (Nat.le_refl j), below, hlen, Nat.sub_self, List.drop_zero]
  · intro k hi hj hop
    rcases Nat.lt_or_eq_of_le hi with hi | rfl
    · rw [← getLast?_below hpos (hle (Nat.lt_succ_of_lt hi) hj),
        ← getLast?_below hpos (hle hi (Nat.le_of_lt hj))]
      exact congrArg List.getLast? ((hstep hi hj).2 hop)
    · rw [hopen]
      obtain ⟨f, fs, hf⟩ := List.exists_cons_of_length_pos hpos
      rw [hf, List.getLast?_cons_cons]

/-- Step `i` calls a function, which returns by the step before `j`. -/
structure Returns (ms : Nat → Machine) (i j : Nat) : Prop where
  lt : i < j
  calls : (ms (i + 1)).calls.length = (ms i).calls.length + 1
  inside : ∀ k, i < k → k < j → (ms i).calls.length < (ms k).calls.length
  returns : (ms j).calls.length ≤ (ms i).calls.length

theorem Moves.calls {streams : List (List Instruction)} (h : m.Moves host streams m')
    (hc : m'.calls.length = m.calls.length + 1) :
    m'.calls = ⟨m.ip + 1, m.code, m.frames.length⟩ :: m.calls ∧ m'.frames = [] :: m.frames := by
  cases h with
  | atEnd _ hcalls =>
    rw [hcalls, List.length_cons] at hc
    simp only [returned] at hc
    omega
  | stays hp =>
    obtain ⟨k, w, rfl⟩ := hp
    exact absurd hc (Nat.ne_of_lt (Nat.lt_succ_self _))
  | transition hf ht =>
    cases ht with
    | call hs hid => exact ⟨rfl, rfl⟩
    | ret hs hcalls =>
      simp only [returned, hcalls, List.length_cons] at hc
      omega
    | builtin hs hb =>
      obtain ⟨vs, v, hm⟩ := answered_of_callBuiltin hb
      rw [hm.machine] at hc
      exact absurd hc (Nat.ne_of_lt (Nat.lt_succ_self _))
    | _ => exact absurd hc (Nat.ne_of_lt (Nat.lt_succ_self _))

theorem Returns.framesKept {i j : Nat} (h : Returns ms i j) (hc : Course m ms)
    (hm : ∀ k, FrameDepth ns (ms k)) : FramesKept ms i j := by
  obtain ⟨host, hmoves⟩ := hc.moves (hm i).placed
  obtain ⟨hcalls, hopen⟩ := hmoves.calls h.calls
  have hwait {k : Nat} (hi : i < k) (hj : k < j) : ∃ later, (ms k).calls =
      later ++ ⟨(ms i).ip + 1, (ms i).code, (ms i).frames.length⟩ ::
        (ms i).calls := by
    induction hi with
    | refl => exact ⟨[], hcalls⟩
    | @step k hi ih =>
      obtain ⟨later, hl⟩ := ih (Nat.lt_of_succ_lt hj)
      obtain ⟨host, hmoves⟩ := hc.moves (hm k).placed
      rcases hmoves.waiting hl with hl' | ⟨hback, -⟩
      · exact hl'
      · have := h.inside (k + 1) (Nat.lt_succ_of_lt hi) hj
        rw [hback] at this
        exact absurd this (Nat.lt_irrefl _)
  have hlt {k : Nat} (hi : i < k) (hj : k < j) :
      (ms i).frames.length < (ms k).frames.length := by
    obtain ⟨later, hl⟩ := hwait hi hj
    obtain ⟨ts, -, hd⟩ := hm k
    rw [hl] at hd
    exact hd.lt_of_mem _ (List.mem_append_right later List.mem_cons_self)
  refine framesKept_of_lt hc hm h.lt hopen (fun k => hlt) ?_
  -- The step that returns is the last one, and it closes all frames above those of the call.
  obtain ⟨k, rfl⟩ : ∃ k, j = k + 1 := ⟨j - 1, by have := h.lt; omega⟩
  have hik : i < k := by
    rcases Nat.lt_or_eq_of_le (Nat.le_of_lt_succ h.lt) with hik | rfl
    · exact hik
    · have := h.returns
      rw [h.calls] at this
      omega
  obtain ⟨later, hl⟩ := hwait hik (Nat.lt_succ_self k)
  obtain ⟨host, hmoves⟩ := hc.moves (hm k).placed
  rcases hmoves.waiting hl with ⟨later', hl'⟩ | ⟨-, -, -, hframes⟩
  · have := h.returns
    rw [hl', List.length_append, List.length_cons] at this
    omega
  · have hlt := hlt hik (Nat.lt_succ_self k)
    rw [hframes, List.length_drop]
    exact Nat.sub_sub_self (Nat.le_of_lt hlt)

/-- A loop of the script has its first instruction, which opens its scope, at `enter` in the
stream `id`, and its last one, which closes it, at `leave`. -/
def LoopAt (ns : List Node) (id enter leave : Nat) : Prop :=
  ∃ q ∈ Script.parts ns id, (∃ initial bound body, q.node = .forLoop initial bound body) ∧
    q.base = enter ∧ q.base + extent q.row = leave + 1

theorem LoopAt.exists_turns {id enter leave : Nat} (h : LoopAt ns id enter leave)
    (hns : Node.CompilableAll ns) :
    ∃ is turns, (Script.streams ns)[id]? = some is ∧ KeepsScopes (enter + 1) turns ∧
      Stands is enter ([.enterScope] ++ turns ++ [.leaveScope]) ∧
      leave = enter + 1 + extent turns := by
  obtain ⟨⟨σ, base, n⟩, hq, ⟨initial, bound, body, rfl⟩, rfl, hleave⟩ := h
  obtain ⟨is, hs, hstands⟩ := Script.stands_of_mem_parts hq
  have hloop := Script.hereditary_of_mem_parts Node.hereditary_compilable
    (Node.compilableAll_iff.1 hns) hq
  obtain ⟨x, hx⟩ := Option.isSome_iff_exists.1 hloop.1
  simp only [Part.row, Node.lower_forLoop hx] at hleave hstands
  refine ⟨is, _, hs, ?_, hstands, ?_⟩
  · exact Node.keepsScopes_lowerTurns (Node.keepsScopes_lower _ _ initial)
      (fun b => Node.keepsScopes_lower _ b bound) fun b => Node.keepsScopes_lowerBlock _ b body
  · rw [extent_append, extent_append, ← Nat.add_assoc, ← Nat.add_assoc] at hleave
    exact (Nat.succ.inj hleave).symm

/-- One run of a loop: step `i` opens its scope, and step `j` is about to close it again. -/
structure Loops (ms : Nat → Machine) (id enter leave i j : Nat) : Prop where
  enters : (ms i).code = id ∧ (ms i).ip = enter
  turns : Spans ms id (enter + 1) leave (i + 1) j

theorem exists_append_of_at {base a : Nat} {is : List Instruction} {s t : List Unit}
    (h : KeepsScopes base is) (ht : scopeEffect.At base s is a t) : ∃ u, t = u ++ s := by
  obtain ⟨pre, post, rfl, -, ht⟩ := ht
  obtain ⟨u, hu, -⟩ := Effect.exists_scan_of_append (h []).scan
  have := framed_scopeEffect.scan hu s
  rw [List.nil_append, ht] at this
  exact ⟨u, Option.some.inj this⟩

theorem exists_of_waiting {R : Reading Unit (Script.streams ns)} {code ip n : Nat}
    {later calls : List Activation} {b : Activation} {ts : List (List Unit)}
    (hl : R.Layers code ip (later ++ b :: calls) ts) (hd : Depths (later ++ b :: calls) ts n) :
    ∃ ts, R.Layers b.code b.ip calls ts ∧ Depths calls ts b.depth := by
  induction later generalizing code ip ts n with
  | nil =>
    cases hl with
    | call _ hl => exact ⟨_, hl, hd.tail⟩
  | cons a later ih =>
    cases hl with
    | call _ hl => exact ih hl hd.tail

theorem FrameDepth.active {calls : List Activation} {s t : List Unit} {ts : List (List Unit)}
    {d : Nat} (h : FrameDepth ns m) (hc : m.calls = calls) (hd : Depths calls (s :: ts) d)
    (ht : (Script.scopes ns).At m.code m.ip t) : d + t.length = m.frames.length + s.length := by
  obtain ⟨ts', hl, hd'⟩ := h
  obtain ⟨t', rest, rfl, ht'⟩ := hl.layers.active
  cases ht.unique ht'
  rw [hc] at hd'
  exact hd.add_eq_add hd'

theorem FrameDepth.waiting {calls later : List Activation} {b : Activation} {s t : List Unit}
    {ts : List (List Unit)} {d : Nat} (h : FrameDepth ns m) (hc : m.calls = later ++ b :: calls)
    (hd : Depths calls (s :: ts) d) (ht : (Script.scopes ns).At b.code b.ip t) :
    d + t.length < m.frames.length + s.length := by
  obtain ⟨ts', hl, hd'⟩ := h
  have hlt := hd'.lt_of_mem b (by simp [hc])
  have hlayers := hl.layers
  rw [hc] at hlayers hd'
  obtain ⟨ts'', hl, hd''⟩ := exists_of_waiting hlayers hd'
  obtain ⟨t', rest, rfl, ht'⟩ := hl.active
  cases ht.unique ht'
  have := hd.add_eq_add hd''
  omega

theorem FrameDepth.above {calls : List Activation} {c a : Nat} {s t : List Unit}
    {ts : List (List Unit)} {d : Nat} (h : FrameDepth ns m) (ha : m.Above calls c a)
    (hd : Depths calls (s :: ts) d) (ht : (Script.scopes ns).At c a t) :
    d + t.length ≤ m.frames.length + s.length := by
  cases ha with
  | active hc => exact Nat.le_of_eq (h.active hc hd ht)
  | waiting hc => exact Nat.le_of_lt (h.waiting hc hd ht)

theorem Loops.framesKept {id enter leave i j : Nat} (h : Loops ms id enter leave i j)
    (hat : LoopAt ns id enter leave) (hns : Node.CompilableAll ns) (hc : Course m ms)
    (hm : ∀ k, FrameDepth ns (ms k)) : FramesKept ms i (j + 1) := by
  obtain ⟨is, turns, hs, hkeeps, hstands, rfl⟩ := hat.exists_turns hns
  obtain ⟨ts, hl, hd⟩ := hm i
  obtain ⟨s, rest, rfl, hscopes⟩ := hl.layers.active
  obtain ⟨rfl, rfl⟩ := h.enters
  have hface : (ms i).Faces (Script.streams ns) (.enterScope :: (turns ++ [.leaveScope])) :=
    ⟨hl.program, is, hs, by simpa using hstands⟩
  obtain ⟨host, hnext⟩ := hc.next i
  have hopen := hnext.trans ((@Transition.enterScope host _).successor hface)
  have hcalls : (ms (i + 1)).calls = (ms i).calls := by rw [hopen]
  have hturns : Stands is ((ms i).ip + 1) (turns ++ [.leaveScope]) := hstands.tail
  have hscope : scopeEffect.scan s [.enterScope] = some (() :: s) := rfl
  have habove {k : Nat} (hi : i < k) (hj : k ≤ j) :
      ∃ a t, (ms k).Above (ms i).calls (ms i).code a ∧
        scopeEffect.At ((ms i).ip + 1) (() :: s) turns a t := by
    obtain ⟨a, t, ha, ht, -⟩ := h.turns.above hs hturns.left (hkeeps (() :: s)) hc
      (fun k => (hm k).placed) hi hj
    rw [hcalls] at ha
    exact ⟨a, t, ha, ht⟩
  have hpart {a : Nat} {t : List Unit}
      (ht : scopeEffect.At ((ms i).ip + 1) (() :: s) turns a t) :
      (Script.scopes ns).At (ms i).code a t :=
    hscopes.part hs hstands (ht.right hscope).left
  have hin {k : Nat} (hi : i < k) (hj : k ≤ j) :
      (ms i).frames.length < (ms k).frames.length := by
    obtain ⟨a, t, ha, ht⟩ := habove hi hj
    obtain ⟨u, rfl⟩ := exists_append_of_at hkeeps ht
    have := (hm k).above ha hd (hpart ht)
    rw [List.length_append, List.length_cons] at this
    omega
  -- Back at the end of the turns, only the scope of the loop is open above those before it.
  obtain ⟨a, t, ha, -⟩ := habove h.turns.le (Nat.le_refl j)
  obtain ⟨hcj, hcode, -⟩ := ha.eq_active
    (Nat.le_of_eq (h.turns.leaves.1.trans (congrArg List.length hcalls)))
  have hip := h.turns.leaves.2
  obtain ⟨ts, hlj, hdj⟩ := hm j
  obtain ⟨t, rest, rfl, ht⟩ := hlj.layers.active
  rw [hcode, hip] at ht
  cases ht.unique (hpart (.stop (hkeeps (() :: s)).scan))
  rw [hcj] at hdj
  have hlen := hd.add_eq_add hdj
  rw [List.length_cons] at hlen
  have hleave : (ms j).Faces (Script.streams ns) [.leaveScope] := by
    refine ⟨hlj.program, is, hcode ▸ hs, ?_⟩
    rw [hip]
    exact hturns.right
  have hpos := (hm i).pos
  obtain ⟨host, hlast⟩ := hc.next j
  have hclose := hlast.trans ((@Transition.leaveScope host (ms j) (by omega)).successor hleave)
  refine framesKept_of_lt hc hm (Nat.lt_succ_of_lt h.turns.le) (congrArg frames hopen)
    (fun k hi hj => hin hi (Nat.le_of_lt_succ hj)) ?_
  rw [hclose, List.length_tail]
  omega

/-- How a program whose tree is `ns` keeps its frames, whatever state of it is reached. -/
structure FrameDiscipline (ns : List Node) (m : Machine) : Prop where
  frames : ∀ m', Reachable m m' → m'.frames ≠ []
  increasing : ∀ m', Reachable m m' →
    m'.calls.Pairwise fun later earlier => earlier.depth < later.depth
  depths : ∀ m', Reachable m m' → ∀ a ∈ m'.calls, a.depth < m'.frames.length
  scopes : ∀ m', Reachable m m' → ∀ host m'', step host m' ≠ .error .scopeUnderflow m''
  calls : ∀ ms i j, Course m ms → Returns ms i j → FramesKept ms i j
  loops : ∀ ms id enter leave i j, Course m ms → LoopAt ns id enter leave →
    Loops ms id enter leave i j → FramesKept ms i (j + 1)
  halts : ∀ m', Reachable m m' → m'.op? = none → ∀ host m'', step host m' = .ok false m'' →
    ∃ f, m''.frames = [f]

theorem frameDiscipline {ns : List Node} {p : Program} {c : Compiler}
    (h : Program.ofNodes ns = .ok p c) : FrameDiscipline ns (ofProgram p) := by
  obtain ⟨hns, rfl⟩ := Program.ofNodes_eq_ok_iff.1 ⟨c, h⟩
  have hm {ms : Nat → Machine} (hc : Course (ofProgram (assemble (Script.streams ns))) ms)
      (k : Nat) : FrameDepth ns (ms k) := frameDepth_of_reachable (hc.reachable k)
  refine ⟨?_, ?_, ?_, ?_, ?_, ?_, ?_⟩
  · intro m' hr
    exact List.ne_nil_of_length_pos (frameDepth_of_reachable hr).pos
  · intro m' hr
    obtain ⟨ts, -, hd⟩ := frameDepth_of_reachable hr
    exact hd.pairwise
  · intro m' hr
    obtain ⟨ts, -, hd⟩ := frameDepth_of_reachable hr
    exact hd.lt_of_mem
  · intro m' hr host m''
    exact (frameDepth_of_reachable hr).not_scopeUnderflow
  · intro ms i j hc hret
    exact hret.framesKept hc (hm hc)
  · intro ms id enter leave i j hc hat hloop
    exact hloop.framesKept hat hns hc (hm hc)
  · intro m' hr hop host m'' hstep
    have hdepth := frameDepth_of_reachable hr
    obtain ⟨i, js, hf⟩ | hend := hdepth.placed
    · rw [hf.op?] at hop
      cases hop
    · rw [step_of_atEnd hend] at hstep
      cases hc : m'.calls with
      | cons a calls =>
        rw [hc] at hstep
        cases hstep
      | nil =>
        rw [hc] at hstep
        cases hstep
        exact List.length_eq_one_iff.1 (hdepth.length_of_atEnd hend hc)

/-- The script `function f(x) return x end for i = 1, 3 do f(i) end`. -/
def callInLoop : List Node :=
  [.function "f" ["x"] [.ret (.value (.variable "x"))],
    .forLoop (.assign true (.value (.variable "i")) (.value (.number 1))) (.value (.number 3))
      [.call none "f" [.value (.variable "i")]]]

theorem frameDiscipline_callInLoop :
    ∃ p c ms, Program.ofNodes callInLoop = .ok p c ∧ Course (ofProgram p) ms ∧
      Returns ms 16 24 ∧ FramesKept ms 16 24 ∧
      LoopAt callInLoop 0 5 37 ∧ Loops ms 0 5 37 3 62 ∧ FramesKept ms 3 63 := by
  have hns : Node.CompilableAll callInLoop := by
    simp [callInLoop, Node.CompilableAll, Node.Compilable, Compiler.loopVariable?]
  obtain ⟨c, h⟩ := Program.ofNodes_of_compilable hns
  have hcourse := course_after ⟨.unlimited, fun a => a⟩
    (ofProgram (assemble (Script.streams callInLoop)))
  have hinside : ∀ k < 24, 16 < k → ((ofProgram (assemble (Script.streams callInLoop))).after
      ⟨.unlimited, fun a => a⟩ 16).calls.length < ((ofProgram (assemble (Script.streams
      callInLoop))).after ⟨.unlimited, fun a => a⟩ k).calls.length := by decide +kernel
  have hreturns : Returns ((ofProgram (assemble (Script.streams callInLoop))).after
      ⟨.unlimited, fun a => a⟩) 16 24 :=
    ⟨by decide, by decide +kernel, fun k hi hk => hinside k hk hi, by decide +kernel⟩
  have hat : LoopAt callInLoop 0 5 37 :=
    ⟨_, List.mem_cons_of_mem _ List.mem_cons_self, ⟨_, _, _, rfl⟩, rfl, rfl⟩
  have hloops : Loops ((ofProgram (assemble (Script.streams callInLoop))).after
      ⟨.unlimited, fun a => a⟩) 0 5 37 3 62 :=
    ⟨by decide +kernel, by decide, by decide +kernel, by decide +kernel, by decide +kernel⟩
  obtain ⟨-, -, -, -, hcalls, hleaves, -⟩ := frameDiscipline h
  exact ⟨_, c, _, h, hcourse, hreturns, hcalls _ _ _ hcourse hreturns, hat, hloops,
    hleaves _ _ _ _ _ _ hcourse hat hloops⟩

end Machine

end Scriptlet
