import Scriptlet.Proofs.Evaluator
import Scriptlet.Proofs.Numbering
import Scriptlet.Proofs.Parts

/-! The numbers of functions.  Wherever a script declares a function, the number that the
declaration gives to it is that of its own parameters and body. -/

namespace Scriptlet

def Knows (table : Nat → Option Routine) (first : Nat) (rs : List Routine) : Prop :=
  ∀ j r, rs[j]? = some r → table (first + j) = some r

variable {table : Nat → Option Routine} {first : Nat} {σ : Scoping}

namespace Knows

theorem left {rs ts : List Routine} (h : Knows table first (rs ++ ts)) : Knows table first rs := by
  intro j r hj
  have hlt := (List.getElem?_eq_some_iff.1 hj).1
  exact h j r (by rw [List.getElem?_append_left hlt, hj])

theorem right {rs ts : List Routine} (h : Knows table first (rs ++ ts)) :
    Knows table (first + rs.length) ts := by
  intro j r hj
  rw [Nat.add_assoc]
  exact h (rs.length + j) r (by simp [List.getElem?_append_right, hj])

theorem after {n : Node} {ts : List Routine} (h : Knows table σ.next (n.routines σ ++ ts)) :
    Knows table (σ.after n).next ts := by
  rw [Scoping.next_after]
  exact h.right

theorem head {r : Routine} {rs : List Routine} (h : Knows table first (r :: rs)) :
    table first = some r := h 0 r rfl

theorem tail {r : Routine} {rs : List Routine} (h : Knows table first (r :: rs)) :
    Knows table (first + 1) rs := @right table first [r] rs h

end Knows

namespace Node

def Declares (table : Nat → Option Routine) (σ : Scoping) (n : Node) : Prop :=
  Knows table σ.next (n.routines σ)

mutual

theorem declares_parts (σ : Scoping) (base : Nat) : (n : Node) → Declares table σ n →
    ∀ q ∈ n.parts σ base, Declares table q.scoping q.node
  | .value _, h => by
    rw [parts]
    exact forall_mem_cons h (by simp)
  | .notEqual lhs rhs, h => by
    rw [parts]
    refine forall_mem_cons h ?_
    rw [Declares, routines] at h
    exact forall_mem_append (declares_parts _ _ lhs h.left) (declares_parts _ _ rhs h.after)
  | .call _ _ args, h => by
    rw [parts]
    refine forall_mem_cons h ?_
    rw [Declares, routines] at h
    exact declares_partsOfArguments _ _ args h
  | .index _ key, h => by
    rw [parts]
    refine forall_mem_cons h ?_
    rw [Declares, routines] at h
    exact declares_parts _ _ key h
  | .assign isLocal target v, h => by
    cases target with
    | value l =>
      cases l with
      | «variable» x =>
        rw [parts]
        refine forall_mem_cons h ?_
        rw [Declares, routines, ← Scoping.next_declareIf σ isLocal x] at h
        exact declares_parts _ _ v h
      | _ =>
        simp only [parts]
        exact forall_mem_cons h (by simp)
    | index b key =>
      rw [parts]
      refine forall_mem_cons h ?_
      rw [Declares, routines] at h
      exact forall_mem_append (declares_parts _ _ key h.left) (declares_parts _ _ v h.after)
    | _ =>
      simp only [parts]
      exact forall_mem_cons h (by simp)
  | .ifThen condition body, h => by
    rw [parts]
    refine forall_mem_cons h ?_
    rw [Declares, routines] at h
    exact forall_mem_append (declares_parts _ _ condition h.left)
      (declares_partsOfBlock _ _ body h.after)
  | .forLoop initial bound body, h => by
    rw [parts]
    refine forall_mem_cons h ?_
    rw [Declares, routines, List.append_assoc, ← Scoping.next_enter σ []] at h
    cases Compiler.loopVariable? initial with
    | none => simp
    | some x =>
      exact forall_mem_append (forall_mem_append (declares_parts _ _ initial h.left)
        (declares_parts _ _ bound h.after.left)) (declares_partsOfBlock _ _ body h.after.after)
  | .function _ _ _, h => by
    rw [parts]
    exact forall_mem_cons h (by simp)
  | .ret v, h => by
    rw [parts]
    refine forall_mem_cons h ?_
    rw [Declares, routines] at h
    exact declares_parts _ _ v h

theorem declares_partsOfArguments (σ : Scoping) (base : Nat) : (ns : List Node) →
    Knows table σ.next (routinesAll σ ns) →
    ∀ q ∈ partsOfArguments σ base ns, Declares table q.scoping q.node
  | [], _ => by simp [partsOfArguments]
  | n :: ns, h => by
    rw [partsOfArguments]
    rw [routinesAll] at h
    exact forall_mem_append (declares_parts _ _ n h.left) (declares_partsOfArguments _ _ ns h.after)

theorem declares_partsOfBlock (σ : Scoping) (base : Nat) : (ns : List Node) →
    Knows table σ.next (routinesAll σ ns) →
    ∀ q ∈ partsOfBlock σ base ns, Declares table q.scoping q.node
  | [], _ => by simp [partsOfBlock]
  | n :: ns, h => by
    rw [partsOfBlock]
    rw [routinesAll] at h
    exact forall_mem_append (declares_parts _ _ n h.left) (declares_partsOfBlock _ _ ns h.after)

end

mutual

theorem knows_routines (σ : Scoping) : (n : Node) → Declares table σ n →
    ∀ r ∈ n.routines σ, Knows table r.scoping.next (routinesAll r.scoping r.body)
  | .value _, _ => by simp [routines]
  | .notEqual lhs rhs, h => by
    rw [Declares, routines] at h
    rw [routines]
    exact forall_mem_append (knows_routines _ lhs h.left) (knows_routines _ rhs h.after)
  | .call _ _ args, h => by
    rw [Declares, routines] at h
    rw [routines]
    exact knows_routinesAll _ args h
  | .index _ key, h => by
    rw [Declares, routines] at h
    rw [routines]
    exact knows_routines _ key h
  | .assign isLocal target v, h => by
    cases target with
    | value l =>
      cases l with
      | «variable» x =>
        rw [Declares, routines, ← Scoping.next_declareIf σ isLocal x] at h
        rw [routines]
        exact knows_routines _ v h
      | _ => simp [routines]
    | index b key =>
      rw [Declares, routines] at h
      rw [routines]
      exact forall_mem_append (knows_routines _ key h.left) (knows_routines _ v h.after)
    | _ => simp [routines]
  | .ifThen condition body, h => by
    rw [Declares, routines] at h
    rw [routines]
    exact forall_mem_append (knows_routines _ condition h.left) (knows_routinesAll _ body h.after)
  | .forLoop initial bound body, h => by
    rw [Declares, routines, List.append_assoc, ← Scoping.next_enter σ []] at h
    rw [routines, List.append_assoc]
    exact forall_mem_append (knows_routines _ initial h.left)
      (forall_mem_append (knows_routines _ bound h.after.left)
        (knows_routinesAll _ body h.after.after))
  | .function _ params body, h => by
    rw [Declares, routines] at h
    rw [routines]
    exact forall_mem_cons h.tail (knows_routinesAll (σ.enterFunction params) body h.tail)
  | .ret v, h => by
    rw [Declares, routines] at h
    rw [routines]
    exact knows_routines _ v h

theorem knows_routinesAll (σ : Scoping) : (ns : List Node) →
    Knows table σ.next (routinesAll σ ns) →
    ∀ r ∈ routinesAll σ ns, Knows table r.scoping.next (routinesAll r.scoping r.body)
  | [], _ => by simp [routinesAll]
  | n :: ns, h => by
    rw [routinesAll] at h
    rw [routinesAll]
    exact forall_mem_append (knows_routines _ n h.left) (knows_routinesAll _ ns h.after)

end

end Node

namespace Script

theorem knows_routine? (ns : List Node) : Knows (routine? ns) Scoping.start.next (routines ns) := by
  intro j r hj
  rw [Scoping.start, Nat.add_comm]
  exact hj

theorem routine?_of_mem_parts {ns : List Node} {id : Nat} {q : Part} (hq : q ∈ parts ns id)
    {f : String} {params : List String} {body : List Node} (h : q.node = .function f params body) :
    routine? ns q.scoping.next = some ⟨params, body, q.scoping.enterFunction params⟩ := by
  have hdeclares : q.node.Declares (routine? ns) q.scoping := by
    cases id with
    | zero => exact Node.declares_partsOfBlock _ _ ns (knows_routine? ns) q hq
    | succ k =>
      rw [parts] at hq
      cases hr : (routines ns)[k]? with
      | none =>
        rw [hr] at hq
        cases hq
      | some r =>
        rw [hr] at hq
        have hbody := Node.knows_routinesAll .start ns (knows_routine? ns) r
          (List.mem_of_getElem? hr)
        exact Node.declares_partsOfBlock _ _ r.body hbody q hq
  rw [h, Node.Declares, Node.routines] at hdeclares
  exact hdeclares.head

end Script

end Scriptlet
