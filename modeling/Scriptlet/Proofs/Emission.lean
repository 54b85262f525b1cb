import Scriptlet.Proofs.Lowering

/-! The compiler emits the code that `Node.lower` gives.  `Compiler.Yields` follows the
compiler through its stages: what it has answered, which routines its code has grown by, and
what is known afterwards.  It comes to an answer for a node just if the node is compilable. -/

namespace Scriptlet

open Code

namespace Compiler

def scoping (c : Compiler) : Scoping := ⟨c.scopes, c.code.size⟩

/-- The compiler `c` does `x` with the result `a`; the routines `rs` are added to its code,
and then `σ` is known. -/
def Yields (c : Compiler) (x : Emit α) (a : α) (rs : List Routine) (σ : Scoping) : Prop :=
  ∃ c', x c = .ok a c' ∧ c'.scoping = σ ∧
    c'.code.toList = c.code.toList ++ rs.map fun r => (slots r.lower).toArray

namespace Yields

variable {c : Compiler} {σ τ : Scoping} {rs rs' : List Routine}

theorem pure (h : c.scoping = σ) (a : α) : Yields c (pure a) a [] σ := ⟨c, rfl, h, by simp⟩

theorem bind {x : Emit α} {f : α → Emit β} {a : α} {b : β} (h : Yields c x a rs σ)
    (k : ∀ c', c'.scoping = σ → Yields c' (f a) b rs' τ) :
    Yields c (x >>= f) b (rs ++ rs') τ := by
  obtain ⟨c', hx, hσ, hc'⟩ := h
  obtain ⟨c'', hf, hτ, hc''⟩ := k c' hσ
  refine ⟨c'', ?_, hτ, ?_⟩
  · rw [bind_of_ok hx, hf]
  · rw [hc'', hc', List.map_append, List.append_assoc]

theorem next {x : Emit α} {f : α → Emit β} {a : α} {b : β} (h : Yields c x a [] σ)
    (k : ∀ c', c'.scoping = σ → Yields c' (f a) b rs τ) : Yields c (x >>= f) b rs τ :=
  h.bind k

theorem map {x : Emit α} {g : α → β} {a : α} {b : β} (h : Yields c x a rs σ) (hb : g a = b) :
    Yields c (x >>= fun a => Pure.pure (g a)) b rs σ := by
  obtain ⟨c', hx, hσ, hc'⟩ := h
  exact ⟨c', by rw [bind_of_ok hx, ← hb]; rfl, hσ, hc'⟩

end Yields

theorem yields_openScope {c : Compiler} {σ : Scoping} (h : c.scoping = σ) (names : List String) :
    Yields c (openScope names) () [] (σ.enter names) := by
  subst h
  exact ⟨{ c with scopes := names :: c.scopes }, rfl, rfl, by simp⟩

theorem yields_closeScope {c : Compiler} {σ τ : Scoping} (h : c.scoping = τ)
    (ht : τ.scopes.tail = σ.scopes) : Yields c closeScope () [] (σ.leave τ) := by
  subst h
  refine ⟨{ c with scopes := c.scopes.tail }, rfl, ?_, by simp⟩
  simp only [scoping] at ht
  simp [scoping, Scoping.leave, ht]

theorem get_ok (c : Compiler) : (get : Emit Compiler) c = .ok c c := rfl

theorem yields_declareIf {c : Compiler} {σ : Scoping} (h : c.scoping = σ) (hσ : σ.scopes ≠ [])
    (isLocal : Bool) (x : String) :
    Yields c (declareIf isLocal x) () [] (σ.declareIf isLocal x) := by
  cases isLocal with
  | false => exact Yields.pure h ()
  | true =>
    subst h
    obtain ⟨scope, outer, hs⟩ := List.exists_cons_of_ne_nil hσ
    have hc : c.scopes = scope :: outer := hs
    refine ⟨{ c with scopes := (x :: scope) :: outer }, ?_, ?_, by simp⟩
    · simp only [declareIf, declare, if_true, bind_of_ok (get_ok c), hc]
      rfl
    · simp [Scoping.declareIf, Scoping.declare, scoping, hc]

theorem yields_storeOp {c : Compiler} {σ : Scoping} (h : c.scoping = σ) (x : String) :
    Yields c (storeOp x) (Node.lowerStore (σ.isDeclared x)).opcode [] σ := by
  subst h
  refine ⟨c, ?_, rfl, by simp⟩
  have hd : c.scoping.isDeclared x = c.isDeclared x := rfl
  rw [storeOp, bind_of_ok (get_ok c), hd]
  cases c.isDeclared x <;> rfl

theorem slots_lowerLiteral (l : Literal) : slots (Node.lowerLiteral l) = literal l := by
  cases l with
  | boolean b => cases b <;> rfl
  | _ => rfl

theorem slots_lowerCallee (r : Option String) (f : String) :
    slots (Node.lowerCallee r f) = callee r f := by
  cases r <;> rfl

theorem slots_prologue (params : List String) :
    slots (Routine.prologue params) = prologue params := by
  simp only [Routine.prologue, prologue, slots, List.flatMap_cons, List.flatMap_assoc]
  rfl

theorem slots_epilogue (body : List Node) : slots (Routine.epilogue body) = epilogue body := by
  simp only [Routine.epilogue, epilogue]
  cases body.getLast? with
  | none => rfl
  | some n => cases n <;> rfl

theorem slots_lowerStore (isDeclared : Bool) :
    (Node.lowerStore isDeclared).slots = [.ofOpcode (Node.lowerStore isDeclared).opcode] := by
  cases isDeclared <;> rfl

theorem yields_function {c : Compiler} {σ : Scoping} (hc : c.scoping = σ) {r : Routine}
    (hr : r.scoping = σ.enterFunction r.params) (base : Nat) (f : String) {τ : Scoping}
    {rs : List Routine} (ht : τ.scopes.tail = σ.scopes)
    (hb : ∀ c', c'.scoping = r.scoping → Yields c' (emitBlock (prologue r.params).length r.body)
      (slots (Node.lowerBlock r.scoping (prologue r.params).length r.body)) rs τ) :
    Yields c (emit base (.function f r.params r.body))
      (slots [.pushId f, .pushFunction σ.next, Node.lowerStore (σ.isDeclared f)])
      (r :: rs) (σ.leave τ) := by
  subst hc
  let c₁ : Compiler := { c with code := c.code.push #[], scopes := r.params :: c.scopes }
  obtain ⟨c₂, hx, hτ, hcode⟩ := hb c₁ (by simp [c₁, hr, scoping, Scoping.enterFunction])
  let stream := prologue r.params ++
    slots (Node.lowerBlock r.scoping (prologue r.params).length r.body) ++ epilogue r.body
  let c₃ : Compiler :=
    { code := c₂.code.setIfInBounds c.code.size stream.toArray
      scopes := c₂.scopes.tail
      finished := c₂.finished.push ⟨f, c.code.size, stream.length⟩ }
  have hl : slots r.lower = stream := by
    simp only [Routine.lower, stream, slots_append, slots_prologue, slots_epilogue,
      ← length_slots]
  have hc₃ : c₃.scoping = c.scoping.leave τ := by
    subst hτ
    simp only [scoping] at ht
    simp [c₃, scoping, Scoping.leave, ht]
  obtain ⟨c₄, hop, hσ, hcode₄⟩ := yields_storeOp hc₃ f
  refine ⟨c₄, ?_, hσ, ?_⟩
  · have h₁ : reserve c = .ok c.code.size { c with code := c.code.push #[] } := rfl
    have h₂ : openScope r.params { c with code := c.code.push #[] } = .ok () c₁ := rfl
    have h₃ : closeScope c₂ = .ok () { c₂ with scopes := c₂.scopes.tail } := rfl
    have h₄ : finish f c.code.size stream { c₂ with scopes := c₂.scopes.tail } = .ok () c₃ := rfl
    rw [emit, bind_of_ok h₁, bind_of_ok h₂, bind_of_ok hx, bind_of_ok h₃, bind_of_ok h₄,
      bind_of_ok hop]
    simp only [slots_cons, slots_lowerStore]
    rfl
  · have hc₂ : c₂.code.toList = c.code.toList ++ #[] :: rs.map fun r => (slots r.lower).toArray := by
      simp [hcode, c₁]
    simp [hcode₄, c₃, hc₂, hl]

mutual

theorem yields_emit : (n : Node) → n.Compilable → ∀ {c : Compiler} {σ : Scoping} (base : Nat),
    σ.scopes ≠ [] → c.scoping = σ →
      Yields c (emit base n) (slots (n.lower σ base)) (n.routines σ) (σ.after n)
  | .value l, _, c, σ, base, _, hc => by
    rw [emit, Node.lower, slots_lowerLiteral]
    exact Yields.pure hc _
  | .notEqual lhs rhs, h, c, σ, base, hσ, hc => by
    simp only [Node.Compilable] at h
    have hs := Scoping.extends_after hσ lhs
    simp only [emit, Node.routines, Scoping.after]
    refine (yields_emit lhs h.1 base hσ hc).bind fun c hc => ?_
    refine (yields_emit rhs h.2 _ hs.ne_nil hc).map ?_
    simp [Node.lower, Instruction.slots, Instruction.opcode, Instruction.operand?]
  | .call receiver f args, h, c, σ, base, hσ, hc => by
    simp only [Node.Compilable] at h
    simp only [emit, Node.routines, Scoping.after]
    refine (yields_emitArguments args h base hσ hc).map ?_
    simp [Node.lower, slots_lowerCallee]
    rfl
  | .index b key, h, c, σ, base, hσ, hc => by
    simp only [Node.Compilable] at h
    simp only [emit, Node.routines, Scoping.after]
    refine (yields_emit key h _ hσ hc).map ?_
    simp [Node.lower]
    rfl
  | .assign isLocal target v, h, c, σ, base, hσ, hc => by
    cases target with
    | value l =>
      cases l with
      | «variable» x =>
        simp only [Node.Compilable] at h
        have hs := Scoping.extends_declareIf hσ isLocal x
        simp only [emit, Node.routines, Scoping.after]
        refine (yields_declareIf hc hσ isLocal x).next fun c hc => ?_
        refine (List.append_nil (v.routines _)) ▸ (yields_emit v h _ hs.ne_nil hc).bind fun c hc => ?_
        refine (yields_storeOp hc x).map ?_
        simp [Node.lower, slots_lowerStore]
        rfl
      | _ => simp [Node.Compilable] at h
    | index b key =>
      cases isLocal with
      | false =>
        simp only [Node.Compilable] at h
        have hs := Scoping.extends_after hσ key
        simp only [emit, Node.routines, Scoping.after]
        refine (yields_emit key h.1 _ hσ hc).bind fun c hc => ?_
        refine (yields_emit v h.2 _ hs.ne_nil hc).map ?_
        simp [Node.lower]
        rfl
      | true => simp [Node.Compilable] at h
    | _ => simp [Node.Compilable] at h
  | .ifThen condition body, h, c, σ, base, hσ, hc => by
    simp only [Node.Compilable] at h
    have hs := Scoping.extends_after hσ condition
    simp only [emit, Node.routines, Scoping.after]
    refine (yields_emit condition h.1 base hσ hc).bind fun c hc => ?_
    refine (yields_emitBlock body h.2 _ hs.ne_nil hc).map ?_
    simp [Node.lower]
    rfl
  | .forLoop initial bound body, h, c, σ, base, hσ, hc => by
    simp only [Node.Compilable] at h
    obtain ⟨hv, hi, he, hb⟩ := h
    obtain ⟨x, hx⟩ := Option.isSome_iff_exists.1 hv
    have hσ₁ : (σ.enter []).scopes ≠ [] := List.cons_ne_nil _ _
    have hs₁ := Scoping.extends_after hσ₁ initial
    have hs₂ := Scoping.extends_after hs₁.ne_nil bound
    have hs₃ := Scoping.extends_afterAll hs₂.ne_nil body
    have ht := ((hs₃.trans hs₂).trans hs₁).tail_eq
    simp only [emit, Node.routines, Scoping.after, hx]
    refine (yields_openScope hc []).next fun c hc => ?_
    refine List.append_assoc _ _ _ ▸ (yields_emit initial hi _ hσ₁ hc).bind fun c hc => ?_
    refine (yields_emit bound he _ hs₁.ne_nil hc).bind fun c hc => ?_
    refine (List.append_nil (Node.routinesAll _ body)) ▸
      (yields_emitBlock body hb _ hs₂.ne_nil hc).bind fun c hc => ?_
    refine (yields_closeScope hc ht).map ?_
    simp [Node.lower, hx]
    rfl
  | .function f params body, h, c, σ, base, hσ, hc => by
    simp only [Node.Compilable] at h
    have hσ₁ : (σ.enterFunction params).scopes ≠ [] := List.cons_ne_nil _ _
    have hs := Scoping.extends_afterAll hσ₁ body
    exact yields_function hc (r := ⟨params, body, σ.enterFunction params⟩) rfl base f hs.tail_eq
      fun c hc => yields_emitBlock body h _ hσ₁ hc
  | .ret v, h, c, σ, base, hσ, hc => by
    simp only [Node.Compilable] at h
    simp only [emit, Node.routines, Scoping.after]
    refine (yields_emit v h _ hσ hc).map ?_
    simp [Node.lower]
    rfl

theorem yields_emitArguments : (ns : List Node) → Node.CompilableAll ns →
    ∀ {c : Compiler} {σ : Scoping} (base : Nat), σ.scopes ≠ [] → c.scoping = σ →
      Yields c (emitArguments base ns) (slots (Node.lowerArguments σ base ns))
        (Node.routinesAll σ ns) (σ.afterAll ns)
  | [], _, c, σ, base, _, hc => Yields.pure hc _
  | n :: ns, h, c, σ, base, hσ, hc => by
    simp only [Node.CompilableAll] at h
    have hs := Scoping.extends_after hσ n
    simp only [emitArguments, Node.routinesAll, Scoping.afterAll]
    refine (yields_emit n h.1 base hσ hc).bind fun c hc => ?_
    refine (yields_emitArguments ns h.2 _ hs.ne_nil hc).map ?_
    simp [Node.lowerArguments]

theorem yields_emitBlock : (ns : List Node) → Node.CompilableAll ns →
    ∀ {c : Compiler} {σ : Scoping} (base : Nat), σ.scopes ≠ [] → c.scoping = σ →
      Yields c (emitBlock base ns) (slots (Node.lowerBlock σ base ns))
        (Node.routinesAll σ ns) (σ.afterAll ns)
  | [], _, c, σ, base, _, hc => Yields.pure hc _
  | n :: ns, h, c, σ, base, hσ, hc => by
    simp only [Node.CompilableAll] at h
    have hs := Scoping.extends_after hσ n
    simp only [emitBlock, Node.routinesAll, Scoping.afterAll]
    refine (yields_emit n h.1 base hσ hc).bind fun c hc => ?_
    refine (yields_emitBlock ns h.2 _ hs.ne_nil hc).map ?_
    cases hn : n.isExpression
    · simp [Node.lowerBlock, hn]
    · simp [Node.lowerBlock, hn]
      rfl

end

mutual

theorem compilable_of_emit : (n : Node) → ∀ {base : Nat} {c c' : Compiler} {l : List Slot},
    emit base n c = .ok l c' → n.Compilable
  | .value _, _, _, _, _, _ => trivial
  | .notEqual lhs rhs, _, _, _, _, h => by
    rw [emit] at h
    obtain ⟨_, _, hl, h⟩ := exists_of_bind_eq_ok h
    obtain ⟨_, _, hr, _⟩ := exists_of_bind_eq_ok h
    exact ⟨compilable_of_emit lhs hl, compilable_of_emit rhs hr⟩
  | .call _ _ args, _, _, _, _, h => by
    rw [emit] at h
    obtain ⟨_, _, ha, _⟩ := exists_of_bind_eq_ok h
    exact compilable_of_emitArguments args ha
  | .index _ key, _, _, _, _, h => by
    rw [emit] at h
    obtain ⟨_, _, hk, _⟩ := exists_of_bind_eq_ok h
    exact compilable_of_emit key hk
  | .assign isLocal target v, _, _, _, _, h => by
    cases target with
    | value l =>
      cases l with
      | «variable» x =>
        rw [emit] at h
        obtain ⟨_, _, _, h⟩ := exists_of_bind_eq_ok h
        obtain ⟨_, _, hv, _⟩ := exists_of_bind_eq_ok h
        exact compilable_of_emit v hv
      | _ => simp [emit, throw, throwThe, MonadExceptOf.throw, EStateM.throw] at h
    | index b key =>
      cases isLocal with
      | false =>
        rw [emit] at h
        obtain ⟨_, _, hk, h⟩ := exists_of_bind_eq_ok h
        obtain ⟨_, _, hv, _⟩ := exists_of_bind_eq_ok h
        exact ⟨compilable_of_emit key hk, compilable_of_emit v hv⟩
      | true => simp [emit, throw, throwThe, MonadExceptOf.throw, EStateM.throw] at h
    | _ => simp [emit, throw, throwThe, MonadExceptOf.throw, EStateM.throw] at h
  | .ifThen condition body, _, _, _, _, h => by
    rw [emit] at h
    obtain ⟨_, _, hc, h⟩ := exists_of_bind_eq_ok h
    obtain ⟨_, _, hb, _⟩ := exists_of_bind_eq_ok h
    exact ⟨compilable_of_emit condition hc, compilable_of_emitBlock body hb⟩
  | .forLoop initial bound body, _, _, _, _, h => by
    rw [emit] at h
    cases hx : loopVariable? initial with
    | none => simp [hx, throw, throwThe, MonadExceptOf.throw, EStateM.throw] at h
    | some x =>
      simp only [hx] at h
      obtain ⟨_, _, _, h⟩ := exists_of_bind_eq_ok h
      obtain ⟨_, _, hi, h⟩ := exists_of_bind_eq_ok h
      obtain ⟨_, _, he, h⟩ := exists_of_bind_eq_ok h
      obtain ⟨_, _, hb, _⟩ := exists_of_bind_eq_ok h
      exact ⟨by simp [hx], compilable_of_emit initial hi, compilable_of_emit bound he,
        compilable_of_emitBlock body hb⟩
  | .function _ _ body, _, _, _, _, h => by
    rw [emit] at h
    obtain ⟨_, _, _, h⟩ := exists_of_bind_eq_ok h
    obtain ⟨_, _, _, h⟩ := exists_of_bind_eq_ok h
    obtain ⟨_, _, hb, _⟩ := exists_of_bind_eq_ok h
    exact compilable_of_emitBlock body hb
  | .ret v, _, _, _, _, h => by
    rw [emit] at h
    obtain ⟨_, _, hv, _⟩ := exists_of_bind_eq_ok h
    exact compilable_of_emit v hv

theorem compilable_of_emitArguments : (ns : List Node) → ∀ {base : Nat} {c c' : Compiler}
    {l : List Slot}, emitArguments base ns c = .ok l c' → Node.CompilableAll ns
  | [], _, _, _, _, _ => trivial
  | n :: ns, _, _, _, _, h => by
    rw [emitArguments] at h
    obtain ⟨_, _, hn, h⟩ := exists_of_bind_eq_ok h
    obtain ⟨_, _, hs, _⟩ := exists_of_bind_eq_ok h
    exact ⟨compilable_of_emit n hn, compilable_of_emitArguments ns hs⟩

theorem compilable_of_emitBlock : (ns : List Node) → ∀ {base : Nat} {c c' : Compiler}
    {l : List Slot}, emitBlock base ns c = .ok l c' → Node.CompilableAll ns
  | [], _, _, _, _, _ => trivial
  | n :: ns, _, _, _, _, h => by
    rw [emitBlock] at h
    obtain ⟨_, _, hn, h⟩ := exists_of_bind_eq_ok h
    obtain ⟨_, _, hs, _⟩ := exists_of_bind_eq_ok h
    exact ⟨compilable_of_emit n hn, compilable_of_emitBlock ns hs⟩

end

end Compiler

namespace Program

open Compiler

theorem ofNodes_of_compilable {ns : List Node} (h : Node.CompilableAll ns) :
    ∃ c, ofNodes ns = .ok (assemble (Script.streams ns)) c := by
  obtain ⟨c, hx, hσ, hc⟩ := @yields_emitBlock ns h {} .start 0 (List.cons_ne_nil _ _) rfl
  refine ⟨c, ?_⟩
  rw [ofNodes, compileProgram, compileNodes, bind_of_ok hx, bind_of_ok (get_ok c)]
  have : (⟨c.code.setIfInBounds 0 (slots (Node.lowerBlock .start 0 ns)).toArray⟩ : Program) =
      assemble (Script.streams ns) := by
    have hl : c.code = (#[] :: (Script.routines ns).map fun r => (slots r.lower).toArray).toArray := by
      apply Array.toList_inj.1
      simpa [Script.routines] using hc
    simp [assemble, Script.streams, hl]
  rw [this]
  rfl

theorem compilable_of_ofNodes {ns : List Node} {p : Program} {c : Compiler}
    (h : ofNodes ns = .ok p c) : Node.CompilableAll ns := by
  rw [ofNodes, compileProgram] at h
  obtain ⟨_, _, hb, _⟩ := exists_of_bind_eq_ok h
  exact compilable_of_emitBlock ns hb

theorem ofNodes_eq_ok_iff {ns : List Node} {p : Program} :
    (∃ c, ofNodes ns = .ok p c) ↔ Node.CompilableAll ns ∧ p = assemble (Script.streams ns) := by
  constructor
  · rintro ⟨c, h⟩
    have hn := compilable_of_ofNodes h
    obtain ⟨c', h'⟩ := ofNodes_of_compilable hn
    rw [h] at h'
    cases h'
    exact ⟨hn, rfl⟩
  · rintro ⟨hn, rfl⟩
    exact ofNodes_of_compilable hn

end Program

end Scriptlet
