import Scriptlet.Proofs.Layers
import Scriptlet.Proofs.Lowering

/-! The scopes of a script's code.  Every node closes the scopes that it opens, so the streams
of a script can be read for their scopes, and what is open at an address does not depend on
the way there. -/

namespace Scriptlet

open Code

/-- Opens and closes scopes.  The frame of a call is no scope of its stream. -/
def scopeEffect : Effect Unit
  | s, .enterScope => some (() :: s)
  | _ :: s, .leaveScope => some s
  | [], .leaveScope => none
  | s, _ => some s

theorem framed_scopeEffect : scopeEffect.Framed := by
  intro s i t h u
  cases i with
  | leaveScope =>
    cases s with
    | nil => cases h
    | cons _ s =>
      cases h
      rfl
  | _ =>
    cases s <;> cases u <;> cases h <;> rfl

def Instruction.isPlain : Instruction → Bool
  | enterScope | leaveScope | jump _ | jumpIfFalse _ => false
  | _ => true

@[simp] theorem scopeEffect_of_isPlain {i : Instruction} (h : i.isPlain) (s : List Unit) :
    scopeEffect s i = some s := by
  cases i with
  | enterScope | leaveScope | jump | jumpIfFalse => cases h
  | _ => cases s <;> rfl

@[simp] theorem scopeEffect_jumpIfFalse (s : List Unit) (a : Nat) :
    scopeEffect s (.jumpIfFalse a) = some s := by
  cases s <;> rfl

@[simp] theorem scopeEffect_jump (s : List Unit) (a : Nat) :
    scopeEffect s (.jump a) = some s := by
  cases s <;> rfl

theorem Instruction.target?_of_isPlain {i : Instruction} (h : i.isPlain) : i.target? = none := by
  cases i with
  | enterScope | leaveScope | jump | jumpIfFalse => cases h
  | _ => rfl

/-- The row, standing from `base` on, closes the scopes that it opens. -/
def KeepsScopes (base : Nat) (is : List Instruction) : Prop :=
  ∀ s, scopeEffect.Flows base s is s

namespace KeepsScopes

variable {base start : Nat} {is js : List Instruction}

theorem plain (h : is.all Instruction.isPlain) (base : Nat) : KeepsScopes base is := by
  intro s
  rw [List.all_eq_true] at h
  refine .straight ?_ fun i hi => Instruction.target?_of_isPlain (h i hi)
  induction is with
  | nil => rfl
  | cons i is ih =>
    rw [Effect.scan_cons, scopeEffect_of_isPlain (h i List.mem_cons_self), Option.bind_some]
    exact ih fun j hj => h j (List.mem_cons_of_mem i hj)

theorem nil (base : Nat) : KeepsScopes base [] := plain rfl base

theorem append (h : KeepsScopes base is) (h' : KeepsScopes start js)
    (hs : start = base + extent is) : KeepsScopes base (is ++ js) := by
  intro s
  subst hs
  exact (h s).append (h' s)

theorem appendPlain (h : KeepsScopes base is) (hp : js.all Instruction.isPlain) :
    KeepsScopes base (is ++ js) := h.append (plain hp _) rfl

theorem scope (h : KeepsScopes (base + 1) is) :
    KeepsScopes base ([.enterScope] ++ is ++ [.leaveScope]) := by
  intro s
  have hopen : scopeEffect.Flows base s [.enterScope] (() :: s) :=
    .straight rfl (by simp [Instruction.target?])
  exact (hopen.append (h (() :: s))).snoc rfl rfl

end KeepsScopes

namespace Node

theorem isPlain_lowerLiteral (l : Literal) : (lowerLiteral l).all Instruction.isPlain := by
  cases l with
  | boolean b => cases b <;> rfl
  | _ => rfl

theorem isPlain_lowerCallee (r : Option String) (f : String) :
    (lowerCallee r f).all Instruction.isPlain := by
  cases r <;> rfl

theorem isPlain_lowerStore (isDeclared : Bool) :
    [lowerStore isDeclared].all Instruction.isPlain := by
  cases isDeclared <;> rfl

theorem extent_lowerStore (isDeclared : Bool) : extent [lowerStore isDeclared] = 1 := by
  cases isDeclared <;> rfl

theorem keepsScopes_lowerTurns {x : String} {σ : Scoping} {base : Nat} {initial bound : Node}
    {body : List Node} (hi : KeepsScopes base (lower σ base initial))
    (he : ∀ b, KeepsScopes b (lower (σ.after initial) b bound))
    (hb : ∀ b, KeepsScopes b (lowerBlock ((σ.after initial).after bound) b body)) :
    KeepsScopes base (lowerTurns x σ base initial bound body) := by
  intro s
  have htest (b : Nat) : KeepsScopes b
      (load x ++ lower (σ.after initial) (b + 3) bound ++ [.notEqual]) :=
    (KeepsScopes.append (.plain rfl b) (he (b + 3)) rfl).appendPlain rfl
  have hbody (b : Nat) : KeepsScopes b
      (lowerBlock ((σ.after initial).after bound) b body ++ lowerAdvance x) :=
    (hb b).appendPlain rfl
  refine .loop (hi s) (htest _ s) (scopeEffect_jumpIfFalse s _) (hbody _ s)
    (scopeEffect_jump s _) rfl ?_ ?_
  · simp only [extent_append, Nat.add_assoc]
    rfl
  · simp only [extent_append, Nat.add_assoc]

mutual

theorem keepsScopes_lower (σ : Scoping) (base : Nat) :
    (n : Node) → KeepsScopes base (lower σ base n)
  | .value l => .plain (isPlain_lowerLiteral l) base
  | .notEqual lhs rhs => by
    rw [lower]
    exact ((keepsScopes_lower σ base lhs).append (keepsScopes_lower _ _ rhs) rfl).appendPlain rfl
  | .call receiver f args => by
    rw [lower]
    exact ((keepsScopes_lowerArguments σ base args).appendPlain
      (isPlain_lowerCallee receiver f)).appendPlain rfl
  | .index b key => by
    rw [lower]
    exact (KeepsScopes.append (.plain rfl base) (keepsScopes_lower σ _ key) rfl).appendPlain rfl
  | .assign isLocal target v => by
    cases target with
    | value l =>
      cases l with
      | «variable» x =>
        rw [lower]
        exact (KeepsScopes.append (.plain rfl base) (keepsScopes_lower _ _ v) rfl).appendPlain
          (isPlain_lowerStore _)
      | _ => exact .nil base
    | index b key =>
      rw [lower]
      refine ((KeepsScopes.append (.plain rfl base) (keepsScopes_lower σ _ key) rfl).append
        (keepsScopes_lower _ _ v) ?_).appendPlain rfl
      rw [extent_append, Nat.add_assoc]
      rfl
    | _ => exact .nil base
  | .ifThen condition body => by
    rw [lower]
    intro s
    exact .ifThen (keepsScopes_lower σ base condition s) (scopeEffect_jumpIfFalse s _)
      (keepsScopes_lowerBlock _ _ body s) rfl
  | .forLoop initial bound body => by
    cases hx : Compiler.loopVariable? initial with
    | none =>
      simp only [lower, hx]
      exact .nil base
    | some x =>
      rw [lower_forLoop hx]
      exact (keepsScopes_lowerTurns (keepsScopes_lower _ _ initial)
        (fun b => keepsScopes_lower _ b bound) fun b => keepsScopes_lowerBlock _ b body).scope
  | .function f _ _ => by
    rw [lower]
    refine .plain ?_ base
    simpa [Instruction.isPlain] using isPlain_lowerStore (σ.isDeclared f)
  | .ret v => by
    rw [lower]
    exact (keepsScopes_lower σ base v).appendPlain rfl

theorem keepsScopes_lowerArguments (σ : Scoping) (base : Nat) :
    (ns : List Node) → KeepsScopes base (lowerArguments σ base ns)
  | [] => .nil base
  | n :: ns => by
    rw [lowerArguments]
    exact (keepsScopes_lower σ base n).append (keepsScopes_lowerArguments _ _ ns) rfl

theorem keepsScopes_lowerBlock (σ : Scoping) (base : Nat) :
    (ns : List Node) → KeepsScopes base (lowerBlock σ base ns)
  | [] => .nil base
  | n :: ns => by
    rw [lowerBlock]
    refine ((keepsScopes_lower σ base n).appendPlain ?_).append (keepsScopes_lowerBlock _ _ ns) rfl
    split <;> rfl

end

end Node

theorem Routine.keepsScopes_lower (r : Routine) : KeepsScopes 0 r.lower := by
  refine (KeepsScopes.append (.plain ?_ 0) (Node.keepsScopes_lowerBlock _ _ _) ?_).appendPlain ?_
  · simp [prologue, Instruction.isPlain]
  · rw [Nat.zero_add]
  · rw [epilogue]
    split <;> rfl

namespace Script

theorem stream_cases {ns : List Node} {id : Nat} {is : List Instruction}
    (h : (streams ns)[id]? = some is) :
    (id = 0 ∧ is = Node.lowerBlock .start 0 ns) ∨
    ∃ k r, id = k + 1 ∧ (routines ns)[k]? = some r ∧ is = r.lower := by
  cases id with
  | zero =>
    cases h
    exact .inl ⟨rfl, rfl⟩
  | succ k =>
    obtain ⟨r, hr, rfl⟩ : ∃ r, (routines ns)[k]? = some r ∧ r.lower = is := by
      simpa [streams] using h
    exact .inr ⟨k, r, rfl, hr, rfl⟩

def scopes (ns : List Node) : Reading Unit (streams ns) where
  effect := scopeEffect
  entry _ := []
  flows h := by
    obtain ⟨-, rfl⟩ | ⟨k, r, -, -, rfl⟩ := stream_cases h
    · exact ⟨[], Node.keepsScopes_lowerBlock _ _ _ _⟩
    · exact ⟨[], r.keepsScopes_lower _⟩

end Script

end Scriptlet
