import Scriptlet.Proofs.Lowering

/-! The numbers of a script's functions.  A node numbers its functions from `next` on, each
before those in its body, so that a function's number is its place among the streams. -/

namespace Scriptlet

open Code

namespace Scoping

@[simp] theorem next_declareIf (σ : Scoping) (isLocal : Bool) (x : String) :
    (σ.declareIf isLocal x).next = σ.next := by
  cases isLocal with
  | false => rfl
  | true =>
    simp only [declareIf, declare, if_true]
    cases σ.scopes <;> rfl

@[simp] theorem next_enter (σ : Scoping) (names : List String) :
    (σ.enter names).next = σ.next := rfl

@[simp] theorem next_enterFunction (σ : Scoping) (params : List String) :
    (σ.enterFunction params).next = σ.next + 1 := rfl

@[simp] theorem next_leave (σ inner : Scoping) : (σ.leave inner).next = inner.next := rfl

mutual

theorem next_after (σ : Scoping) : (n : Node) → (σ.after n).next = σ.next + (n.routines σ).length
  | .value _ => rfl
  | .notEqual lhs rhs => by
    simp only [after, Node.routines, next_after _ lhs, next_after _ rhs, List.length_append]
    omega
  | .call _ _ args => by
    rw [after, Node.routines, next_afterAll σ args]
  | .index _ key => by
    rw [after, Node.routines, next_after σ key]
  | .assign isLocal target v => by
    cases target with
    | value l =>
      cases l with
      | «variable» x => simp only [after, Node.routines, next_after _ v, next_declareIf]
      | _ => rfl
    | index b key =>
      simp only [after, Node.routines, next_after _ key, next_after _ v, List.length_append]
      omega
    | _ => rfl
  | .ifThen condition body => by
    simp only [after, Node.routines, next_after _ condition, next_afterAll _ body,
      List.length_append]
    omega
  | .forLoop initial bound body => by
    simp only [after, Node.routines, next_after _ initial, next_after _ bound,
      next_afterAll _ body, next_leave, next_enter, List.length_append]
    omega
  | .function _ params body => by
    simp only [after, Node.routines, next_afterAll _ body, next_leave, next_enterFunction,
      List.length_cons]
    omega
  | .ret v => by
    rw [after, Node.routines, next_after σ v]

theorem next_afterAll (σ : Scoping) :
    (ns : List Node) → (σ.afterAll ns).next = σ.next + (Node.routinesAll σ ns).length
  | [] => rfl
  | n :: ns => by
    simp only [afterAll, Node.routinesAll, next_after _ n, next_afterAll _ ns, List.length_append]
    omega

end

end Scoping

theorem Scoping.next_le_after (σ : Scoping) (n : Node) : σ.next ≤ (σ.after n).next := by
  rw [next_after]
  exact Nat.le_add_right _ _

theorem Scoping.next_le_afterAll (σ : Scoping) (ns : List Node) :
    σ.next ≤ (σ.afterAll ns).next := by
  rw [next_afterAll]
  exact Nat.le_add_right _ _

def Instruction.isPushFunction : Instruction → Bool
  | pushFunction _ => true
  | _ => false

def Code.Names (first stop : Nat) (is : List Instruction) : Prop :=
  ∀ id, .pushFunction id ∈ is → first ≤ id ∧ id < stop

namespace Code.Names

variable {first mid stop : Nat} {is js : List Instruction}

theorem append (h : Names first mid is) (h' : Names mid stop js) (hm : first ≤ mid)
    (hs : mid ≤ stop) : Names first stop (is ++ js) := by
  intro id hid
  rcases List.mem_append.1 hid with hid | hid
  · exact ⟨(h id hid).1, Nat.lt_of_lt_of_le (h id hid).2 hs⟩
  · exact ⟨Nat.le_trans hm (h' id hid).1, (h' id hid).2⟩

theorem none (h : is.all (!·.isPushFunction)) (first stop : Nat) : Names first stop is := by
  intro id hid
  exact absurd (List.all_eq_true.1 h _ hid) (by simp [Instruction.isPushFunction])

theorem before (hp : is.all (!·.isPushFunction)) (h : Names first stop js) :
    Names first stop (is ++ js) := by
  intro id hid
  rcases List.mem_append.1 hid with hid | hid
  · exact none hp _ _ id hid
  · exact h id hid

theorem behind (h : Names first stop is) (hp : js.all (!·.isPushFunction)) :
    Names first stop (is ++ js) := by
  intro id hid
  rcases List.mem_append.1 hid with hid | hid
  · exact h id hid
  · exact none hp _ _ id hid

theorem mono {first' stop' : Nat} (h : Names first stop is) (hf : first' ≤ first)
    (hs : stop ≤ stop') : Names first' stop' is := by
  intro id hid
  exact ⟨Nat.le_trans hf (h id hid).1, Nat.lt_of_lt_of_le (h id hid).2 hs⟩

end Code.Names

namespace Node

open Scoping

theorem names_lowerLiteral (l : Literal) : (lowerLiteral l).all (!·.isPushFunction) := by
  cases l with
  | boolean b => cases b <;> rfl
  | _ => rfl

theorem names_lowerCallee (r : Option String) (f : String) :
    (lowerCallee r f).all (!·.isPushFunction) := by
  cases r <;> rfl

theorem names_lowerStore (isDeclared : Bool) :
    [lowerStore isDeclared].all (!·.isPushFunction) := by
  cases isDeclared <;> rfl

theorem names_lowerTurns {x : String} {σ : Scoping} {base : Nat} {initial bound : Node}
    {body : List Node} (hi : Names σ.next (σ.after initial).next (lower σ base initial))
    (he : ∀ b, Names (σ.after initial).next ((σ.after initial).after bound).next
      (lower (σ.after initial) b bound))
    (hb : ∀ b, Names ((σ.after initial).after bound).next
      (((σ.after initial).after bound).afterAll body).next
      (lowerBlock ((σ.after initial).after bound) b body)) :
    Names σ.next (((σ.after initial).after bound).afterAll body).next
      (lowerTurns x σ base initial bound body) := by
  have h₁ := next_le_after σ initial
  have h₂ := next_le_after (σ.after initial) bound
  have h₃ := next_le_afterAll ((σ.after initial).after bound) body
  refine .behind (.append (.behind (.append hi (.behind (.before rfl (he _)) rfl) h₁ h₂) rfl)
    (.behind (hb _) rfl) (Nat.le_trans h₁ h₂) h₃) rfl

mutual

theorem names_lower (σ : Scoping) (base : Nat) :
    (n : Node) → Names σ.next (σ.after n).next (lower σ base n)
  | .value l => .none (names_lowerLiteral l) _ _
  | .notEqual lhs rhs => by
    rw [lower, after]
    exact .behind (.append (names_lower σ base lhs) (names_lower _ _ rhs) (next_le_after _ _)
      (next_le_after _ _)) rfl
  | .call receiver f args => by
    rw [lower, after]
    exact .behind (.behind (names_lowerArguments σ base args) (names_lowerCallee receiver f)) rfl
  | .index b key => by
    rw [lower, after]
    exact .behind (.before rfl (names_lower σ _ key)) rfl
  | .assign isLocal target v => by
    cases target with
    | value l =>
      cases l with
      | «variable» x =>
        rw [lower, after, ← next_declareIf σ isLocal x]
        exact .behind (.before rfl (names_lower _ _ v)) (names_lowerStore _)
      | _ => exact .none rfl _ _
    | index b key =>
      rw [lower, after]
      exact .behind (.append (.before rfl (names_lower σ _ key)) (names_lower _ _ v)
        (next_le_after _ _) (next_le_after _ _)) rfl
    | _ => exact .none rfl _ _
  | .ifThen condition body => by
    rw [lower, after]
    exact .append (.behind (names_lower σ base condition) rfl) (names_lowerBlock _ _ body)
      (next_le_after _ _) (next_le_afterAll _ _)
  | .forLoop initial bound body => by
    cases hx : Compiler.loopVariable? initial with
    | none =>
      simp only [lower, hx]
      exact .none rfl _ _
    | some x =>
      rw [lower_forLoop hx, after, next_leave, ← next_enter σ []]
      exact .behind (.before rfl (names_lowerTurns (names_lower _ _ initial)
        (fun b => names_lower _ b bound) fun b => names_lowerBlock _ b body)) rfl
  | .function f params body => by
    rw [lower, after, next_leave]
    have h := next_le_afterAll (σ.enterFunction params) body
    rw [next_enterFunction] at h
    have hself : Names σ.next ((σ.enterFunction params).afterAll body).next
        [.pushId f, .pushFunction σ.next] := by
      intro id hid
      have : id = σ.next := by simpa using hid
      omega
    exact hself.behind (names_lowerStore (σ.isDeclared f))
  | .ret v => by
    rw [lower, after]
    exact .behind (names_lower σ base v) rfl

theorem names_lowerArguments (σ : Scoping) (base : Nat) :
    (ns : List Node) → Names σ.next (σ.afterAll ns).next (lowerArguments σ base ns)
  | [] => .none rfl _ _
  | n :: ns => by
    rw [lowerArguments, afterAll]
    exact .append (names_lower σ base n) (names_lowerArguments _ _ ns) (next_le_after _ _)
      (next_le_afterAll _ _)

theorem names_lowerBlock (σ : Scoping) (base : Nat) :
    (ns : List Node) → Names σ.next (σ.afterAll ns).next (lowerBlock σ base ns)
  | [] => .none rfl _ _
  | n :: ns => by
    rw [lowerBlock, afterAll]
    refine .append (.behind (names_lower σ base n) ?_) (names_lowerBlock _ _ ns)
      (next_le_after _ _) (next_le_afterAll _ _)
    split <;> rfl

end

def NumberedIn (first stop : Nat) (r : Routine) : Prop :=
  first ≤ r.scoping.next ∧ (r.scoping.afterAll r.body).next ≤ stop

theorem NumberedIn.mono {first stop first' stop' : Nat} {r : Routine}
    (h : NumberedIn first stop r) (hf : first' ≤ first) (hs : stop ≤ stop') :
    NumberedIn first' stop' r := ⟨Nat.le_trans hf h.1, Nat.le_trans h.2 hs⟩

mutual

theorem numberedIn_routines (σ : Scoping) :
    (n : Node) → ∀ r ∈ n.routines σ, NumberedIn σ.next (σ.after n).next r
  | .value _ => by simp [routines]
  | .notEqual lhs rhs => by
    intro r hr
    rw [routines] at hr
    rw [after]
    rcases List.mem_append.1 hr with hr | hr
    · exact (numberedIn_routines σ lhs r hr).mono (Nat.le_refl _) (next_le_after _ _)
    · exact (numberedIn_routines _ rhs r hr).mono (next_le_after _ _) (Nat.le_refl _)
  | .call _ _ args => by
    rw [routines, after]
    exact numberedIn_routinesAll σ args
  | .index _ key => by
    rw [routines, after]
    exact numberedIn_routines σ key
  | .assign isLocal target v => by
    cases target with
    | value l =>
      cases l with
      | «variable» x =>
        rw [routines, after, ← next_declareIf σ isLocal x]
        exact numberedIn_routines _ v
      | _ => simp [routines]
    | index b key =>
      intro r hr
      rw [routines] at hr
      rw [after]
      rcases List.mem_append.1 hr with hr | hr
      · exact (numberedIn_routines σ key r hr).mono (Nat.le_refl _) (next_le_after _ _)
      · exact (numberedIn_routines _ v r hr).mono (next_le_after _ _) (Nat.le_refl _)
    | _ => simp [routines]
  | .ifThen condition body => by
    intro r hr
    rw [routines] at hr
    rw [after]
    rcases List.mem_append.1 hr with hr | hr
    · exact (numberedIn_routines σ condition r hr).mono (Nat.le_refl _) (next_le_afterAll _ _)
    · exact (numberedIn_routinesAll _ body r hr).mono (next_le_after _ _) (Nat.le_refl _)
  | .forLoop initial bound body => by
    intro r hr
    rw [routines] at hr
    rw [after, next_leave]
    have h₁ := next_le_after (σ.enter []) initial
    have h₂ := next_le_after ((σ.enter []).after initial) bound
    have h₃ := next_le_afterAll (((σ.enter []).after initial).after bound) body
    rw [next_enter] at h₁
    rcases List.mem_append.1 hr with hr | hr
    · rcases List.mem_append.1 hr with hr | hr
      · exact (numberedIn_routines _ initial r hr).mono (Nat.le_refl _) (Nat.le_trans h₂ h₃)
      · exact (numberedIn_routines _ bound r hr).mono h₁ h₃
    · exact (numberedIn_routinesAll _ body r hr).mono (Nat.le_trans h₁ h₂) (Nat.le_refl _)
  | .function _ params body => by
    intro r hr
    rw [routines] at hr
    rw [after, next_leave]
    rcases List.mem_cons.1 hr with rfl | hr
    · exact ⟨Nat.le_succ _, Nat.le_refl _⟩
    · exact (numberedIn_routinesAll _ body r hr).mono (Nat.le_succ _) (Nat.le_refl _)
  | .ret v => by
    rw [routines, after]
    exact numberedIn_routines σ v

theorem numberedIn_routinesAll (σ : Scoping) :
    (ns : List Node) → ∀ r ∈ routinesAll σ ns, NumberedIn σ.next (σ.afterAll ns).next r
  | [] => by simp [routinesAll]
  | n :: ns => by
    intro r hr
    rw [routinesAll] at hr
    rw [afterAll]
    rcases List.mem_append.1 hr with hr | hr
    · exact (numberedIn_routines σ n r hr).mono (Nat.le_refl _) (next_le_afterAll _ _)
    · exact (numberedIn_routinesAll _ ns r hr).mono (next_le_after _ _) (Nat.le_refl _)

end

end Node

theorem Routine.names_lower (r : Routine) :
    Names r.scoping.next (r.scoping.afterAll r.body).next r.lower := by
  refine .behind (.before ?_ (Node.names_lowerBlock _ _ _)) ?_
  · simp [prologue, Instruction.isPushFunction]
  · rw [epilogue]
    split <;> rfl

namespace Script

@[simp] theorem length_streams (ns : List Node) :
    (streams ns).length = (Scoping.start.afterAll ns).next := by
  rw [Scoping.next_afterAll]
  simp [streams, routines, Scoping.start, Nat.add_comm]

theorem streams_ne_nil (ns : List Node) : streams ns ≠ [] := List.cons_ne_nil _ _

theorem names_streams {ns : List Node} {is : List Instruction} (h : is ∈ streams ns) :
    Names 1 (streams ns).length is := by
  rw [length_streams]
  rcases List.mem_cons.1 h with rfl | h
  · exact Node.names_lowerBlock .start 0 ns
  · obtain ⟨r, hr, rfl⟩ := List.mem_map.1 h
    obtain ⟨hf, hs⟩ := Node.numberedIn_routinesAll .start ns r hr
    exact r.names_lower.mono hf hs

end Script

end Scriptlet
