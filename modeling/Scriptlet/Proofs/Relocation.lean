import Mathlib
import Scriptlet.Code.Compiler

/-! Moving code.  The slots of a node depend on the address that they stand from in their jump
targets only, and what becomes of the compiler does not depend on it at all.  So a row of
statements may be cut anywhere: its stream is that of the first part, and behind it that of the
second with its jumps moved along. -/

namespace Scriptlet

def Slot.relocate (d : Nat) : Slot → Slot
  | .target a => .target (a + d)
  | slot => slot

namespace Compiler

variable {d : Nat}

/-- The action `y` does what `x` does, for code that stands `d` addresses further on. -/
def Moved (d : Nat) (x y : Emit (List Slot)) : Prop := y = List.map (Slot.relocate d) <$> x

namespace Moved

theorem pure {l l' : List Slot} (h : l' = l.map (Slot.relocate d)) :
    Moved d (pure l) (pure l') := by
  rw [Moved, map_pure, h]

theorem throw (e : CompileError) : Moved d (throw e) (throw e) := rfl

theorem bind {x y : Emit (List Slot)} {f g : List Slot → Emit (List Slot)} (h : Moved d x y)
    (k : ∀ l, Moved d (f l) (g (l.map (Slot.relocate d)))) : Moved d (x >>= f) (y >>= g) := by
  rw [Moved] at h
  rw [Moved, h, map_bind, bind_map_left]
  congr 1
  funext l
  exact k l

theorem after {x : Emit α} {f g : α → Emit (List Slot)} (k : ∀ a, Moved d (f a) (g a)) :
    Moved d (x >>= f) (x >>= g) := by
  rw [Moved, map_bind]
  congr 1
  funext a
  exact k a

end Moved

@[simp] theorem relocate_ofOpcode (d : Nat) (op : Opcode) :
    (Slot.ofOpcode op).relocate d = .ofOpcode op := rfl

@[simp] theorem relocate_target (d a : Nat) : (Slot.target a).relocate d = .target (a + d) := rfl

@[simp] theorem relocate_load (d : Nat) (x : String) :
    (load x).map (Slot.relocate d) = load x := rfl

@[simp] theorem relocate_pushId (d : Nat) (x : String) :
    (pushId x).map (Slot.relocate d) = pushId x := rfl

@[simp] theorem relocate_advance (d : Nat) (x : String) :
    (advance x).map (Slot.relocate d) = advance x := rfl

@[simp] theorem relocate_literal (d : Nat) (l : Literal) :
    (literal l).map (Slot.relocate d) = literal l := by
  cases l with
  | boolean b => cases b <;> rfl
  | _ => rfl

@[simp] theorem relocate_callee (d : Nat) (receiver : Option String) (f : String) :
    (callee receiver f).map (Slot.relocate d) = callee receiver f := by
  cases receiver <;> rfl

mutual

theorem moved_emit : (n : Node) → ∀ {base base' : Nat}, base' = base + d →
    Moved d (emit base n) (emit base' n)
  | .value l, _, _, _ => by
    rw [emit, emit]
    exact .pure (by simp)
  | .notEqual lhs rhs, _, _, h => by
    rw [emit, emit]
    apply (moved_emit lhs h).bind
    intro l
    apply (moved_emit rhs (by simp only [List.length_map]; omega)).bind
    intro r
    exact .pure (by simp)
  | .call receiver f args, _, _, h => by
    rw [emit, emit]
    apply (moved_emitArguments args h).bind
    intro as
    exact .pure (by simp)
  | .index b key, _, _, h => by
    rw [emit, emit]
    apply (moved_emit key (by omega)).bind
    intro k
    exact .pure (by simp)
  | .assign isLocal target v, _, _, h => by
    cases target with
    | value l =>
      cases l with
      | «variable» x =>
        rw [emit, emit]
        apply Moved.after
        intro _
        apply (moved_emit v (by omega)).bind
        intro v
        apply Moved.after
        intro op
        exact .pure (by simp)
      | _ =>
        simp only [emit]
        exact .throw _
    | index b key =>
      cases isLocal with
      | false =>
        rw [emit, emit]
        apply (moved_emit key (by omega)).bind
        intro k
        apply (moved_emit v (by simp only [List.length_map]; omega)).bind
        intro v
        exact .pure (by simp)
      | true =>
        simp only [emit]
        exact .throw _
    | _ =>
      simp only [emit]
      exact .throw _
  | .ifThen condition body, _, _, h => by
    rw [emit, emit]
    apply (moved_emit condition h).bind
    intro c
    apply (moved_emitBlock body (by simp only [List.length_map]; omega)).bind
    intro b
    exact .pure (by simp [h]; omega)
  | .forLoop initial bound body, _, _, h => by
    rw [emit, emit]
    cases loopVariable? initial with
    | none => exact .throw _
    | some x =>
      apply Moved.after
      intro _
      apply (moved_emit initial (by omega)).bind
      intro i
      apply (moved_emit bound (by simp only [List.length_map]; omega)).bind
      intro e
      apply (moved_emitBlock body (by simp only [List.length_map]; omega)).bind
      intro b
      apply Moved.after
      intro _
      -- the way back leads to the head of the loop, the way out behind its code
      exact .pure (by simp [h]; omega)
  | .function f params body, _, _, _ => by
    -- the body has a stream of its own, which begins at its own address
    rw [emit, emit]
    iterate 5
      apply Moved.after
      intro _
    apply Moved.after
    intro op
    exact .pure rfl
  | .ret v, _, _, h => by
    rw [emit, emit]
    apply (moved_emit v h).bind
    intro v
    exact .pure (by simp)

theorem moved_emitArguments : (ns : List Node) → ∀ {base base' : Nat}, base' = base + d →
    Moved d (emitArguments base ns) (emitArguments base' ns)
  | [], _, _, _ => .pure rfl
  | n :: ns, _, _, h => by
    rw [emitArguments, emitArguments]
    apply (moved_emit n h).bind
    intro a
    apply (moved_emitArguments ns (by simp only [List.length_map]; omega)).bind
    intro as
    exact .pure (by simp)

theorem moved_emitBlock : (ns : List Node) → ∀ {base base' : Nat}, base' = base + d →
    Moved d (emitBlock base ns) (emitBlock base' ns)
  | [], _, _, _ => .pure rfl
  | n :: ns, _, _, h => by
    rw [emitBlock, emitBlock]
    apply (moved_emit n h).bind
    intro a
    have hpop : (if n.isExpression then a.map (Slot.relocate d) ++ [.ofOpcode .pop]
        else a.map (Slot.relocate d)) =
        (if n.isExpression then a ++ [.ofOpcode .pop] else a).map (Slot.relocate d) := by
      cases n.isExpression <;> simp
    rw [hpop]
    apply (moved_emitBlock ns (by simp only [List.length_map]; omega)).bind
    intro b
    exact .pure (by simp)

end

theorem emitBlock_append (base : Nat) (ns ms : List Node) :
    emitBlock base (ns ++ ms) = do
      let a ← emitBlock base ns
      let b ← emitBlock (base + a.length) ms
      return a ++ b := by
  induction ns generalizing base with
  | nil => simp [emitBlock]
  | cons n ns ih =>
    simp only [List.cons_append, emitBlock, ih, bind_assoc, pure_bind, List.length_append,
      Nat.add_assoc, List.append_assoc]

/-- Statements compiled in one go, and compiled in two parts by the same compiler: either way the
compiler fails with the same error or goes on to the same state, and the streams are the same,
but that the jumps of the second part are moved behind the first. -/
theorem compileNodes_append (c : Compiler) (ns ms : List Node) :
    compileNodes (ns ++ ms) c =
      match compileNodes ns c with
      | .error e c' => .error e c'
      | .ok a c' =>
        match compileNodes ms c' with
        | .error e c'' => .error e c''
        | .ok b c'' => .ok (a ++ b.map (Slot.relocate a.length)) c'' := by
  have hmoved (a : List Slot) : emitBlock (0 + a.length) ms =
      List.map (Slot.relocate a.length) <$> emitBlock 0 ms := moved_emitBlock ms rfl
  have hcut : compileNodes (ns ++ ms) = do
      let a ← compileNodes ns
      let b ← compileNodes ms
      return a ++ b.map (Slot.relocate a.length) := by
    simp only [compileNodes, emitBlock_append, hmoved, bind_map_left]
  rw [hcut]
  simp only [bind, EStateM.bind]
  cases compileNodes ns c with
  | error e c' => rfl
  | ok a c' =>
    cases hms : compileNodes ms c' with
    | error e c'' => simp only [hms]
    | ok b c'' =>
      simp only [hms]
      rfl

/-- The script `local t = {} if t then t = false end`, cut behind the declaration.  The jump over
the assignment is moved by the four slots of the declaration. -/
example : ∃ a b c c',
    compileNodes [.assign true (.value (.variable "t")) (.value .table)] {} = .ok a c ∧
    compileNodes [.ifThen (.value (.variable "t"))
      [.assign false (.value (.variable "t")) (.value (.boolean false))]] c = .ok b c' ∧
    a.length = 4 ∧ b[3]? = some (.ofOpcode .jumpIfFalse) ∧ b[4]? = some (.target 9) ∧
    compileNodes [.assign true (.value (.variable "t")) (.value .table),
      .ifThen (.value (.variable "t"))
        [.assign false (.value (.variable "t")) (.value (.boolean false))]] {} =
      .ok (a ++ b.set 4 (.target 13)) c' :=
  ⟨_, _, _, _, rfl, rfl, rfl, rfl, rfl, rfl⟩

end Compiler

end Scriptlet
