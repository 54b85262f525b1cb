import Scriptlet.Proofs.Scopes

/-! Where the nodes of a script are in its code.  The parts of a node are the nodes in it
whose instructions are in the same stream, itself included, each with the address of its
first instruction; the body of a function is in a stream of its own. -/

namespace Scriptlet

open Code

/-- The row `js` begins at the address `a` of the row `is`, which stands from `base` on. -/
structure Code.Lies (base : Nat) (is : List Instruction) (a : Nat) (js : List Instruction) :
    Prop where
  le : base ≤ a
  stands : Stands is (a - base) js

namespace Code.Lies

variable {base a start : Nat} {is js ks : List Instruction}

theorem self (base : Nat) (is : List Instruction) : Lies base is base is := by
  refine ⟨Nat.le_refl base, ?_⟩
  rw [Nat.sub_self]
  exact .self is

theorem left (h : Lies base is a ks) : Lies base (is ++ js) a ks := by
  obtain ⟨hle, pre, post, rfl, ha⟩ := h
  exact ⟨hle, pre, post ++ js, by simp, ha⟩

theorem right (h : Lies start js a ks) (hs : start = base + extent is) :
    Lies base (is ++ js) a ks := by
  obtain ⟨hle, pre, post, rfl, ha⟩ := h
  refine ⟨by omega, is ++ pre, post, by simp, ?_⟩
  rw [extent_append, ← ha]
  omega

end Code.Lies

structure Part where
  scoping : Scoping
  base : Nat
  node : Node

def Part.row (q : Part) : List Instruction := q.node.lower q.scoping q.base

namespace Node

mutual

def parts (σ : Scoping) (base : Nat) (n : Node) : List Part :=
  ⟨σ, base, n⟩ :: match n with
  | .value _ => []
  | .notEqual lhs rhs =>
    parts σ base lhs ++ parts (σ.after lhs) (base + extent (lower σ base lhs)) rhs
  | .call _ _ args => partsOfArguments σ base args
  | .index _ key => parts σ (base + 3) key
  | .assign isLocal (.value (.variable x)) v => parts (σ.declareIf isLocal x) (base + 2) v
  | .assign _ (.index _ key) v =>
    parts σ (base + 3) key ++
      parts (σ.after key) (base + 3 + extent (lower σ (base + 3) key)) v
  | .assign _ _ _ => []
  | .ifThen condition body =>
    parts σ base condition ++
      partsOfBlock (σ.after condition) (base + extent (lower σ base condition) + 2) body
  | .forLoop initial bound body =>
    let σ' := (σ.enter []).after initial
    let head := base + 1 + extent (lower (σ.enter []) (base + 1) initial)
    let start := head + 3 + extent (lower σ' (head + 3) bound) + 3
    if (Compiler.loopVariable? initial).isSome then
      parts (σ.enter []) (base + 1) initial ++ parts σ' (head + 3) bound ++
        partsOfBlock (σ'.after bound) start body
    else []
  | .function _ _ _ => []
  | .ret v => parts σ base v

def partsOfArguments (σ : Scoping) (base : Nat) : List Node → List Part
  | [] => []
  | n :: ns =>
    parts σ base n ++ partsOfArguments (σ.after n) (base + extent (lower σ base n)) ns

def partsOfBlock (σ : Scoping) (base : Nat) : List Node → List Part
  | [] => []
  | n :: ns =>
    parts σ base n ++ partsOfBlock (σ.after n)
      (base + extent (lower σ base n ++ if n.isExpression then [.pop] else [])) ns

end

def LieIn (base : Nat) (is : List Instruction) (qs : List Part) : Prop :=
  ∀ q ∈ qs, Lies base is q.base q.row

namespace LieIn

variable {base start : Nat} {is js : List Instruction} {ps qs : List Part}

theorem nil : LieIn base is [] := by
  intro q hq
  cases hq

theorem append (h : LieIn base is ps) (h' : LieIn base is qs) : LieIn base is (ps ++ qs) := by
  intro q hq
  rcases List.mem_append.1 hq with hq | hq
  · exact h q hq
  · exact h' q hq

theorem left (h : LieIn base is qs) : LieIn base (is ++ js) qs := fun q hq => (h q hq).left

theorem right (h : LieIn start js qs) (hs : start = base + extent is) : LieIn base (is ++ js) qs :=
  fun q hq => (h q hq).right hs

end LieIn

theorem LieIn.here {σ : Scoping} {base : Nat} {n : Node} {qs : List Part}
    (h : LieIn base (lower σ base n) qs) : LieIn base (lower σ base n) (⟨σ, base, n⟩ :: qs) := by
  intro q hq
  rcases List.mem_cons.1 hq with rfl | hq
  · exact .self base _
  · exact h q hq

theorem lieIn_lowerTurns {x : String} {σ : Scoping} {base : Nat} {initial bound : Node}
    {body : List Node} {ps qs rs : List Part} (hi : LieIn base (lower σ base initial) ps)
    (he : LieIn (base + extent (lower σ base initial) + 3)
      (lower (σ.after initial) (base + extent (lower σ base initial) + 3) bound) qs)
    (hb : LieIn (base + extent (lower σ base initial) + 3 + extent
        (lower (σ.after initial) (base + extent (lower σ base initial) + 3) bound) + 3)
      (lowerBlock ((σ.after initial).after bound) (base + extent (lower σ base initial) + 3 + extent
        (lower (σ.after initial) (base + extent (lower σ base initial) + 3) bound) + 3) body) rs) :
    LieIn base (lowerTurns x σ base initial bound body) (ps ++ qs ++ rs) := by
  rw [lowerTurns]
  refine .left (.append (.left (.left (.append (.left hi) ?_))) ?_)
  · exact .right (.left (.right he rfl)) rfl
  · refine .right (.left hb) ?_
    simp only [extent_append, ← Nat.add_assoc]
    rfl

mutual

theorem lieIn_parts (σ : Scoping) (base : Nat) :
    (n : Node) → LieIn base (lower σ base n) (parts σ base n)
  | .value l => by
    rw [parts]
    exact .here .nil
  | .notEqual lhs rhs => by
    rw [parts]
    refine .here ?_
    rw [lower]
    exact .left (.append (.left (lieIn_parts σ base lhs)) (.right (lieIn_parts _ _ rhs) rfl))
  | .call receiver f args => by
    rw [parts]
    refine .here ?_
    rw [lower]
    exact .left (.left (lieIn_partsOfArguments σ base args))
  | .index b key => by
    rw [parts]
    refine .here ?_
    rw [lower]
    exact .left (.right (lieIn_parts σ (base + 3) key) rfl)
  | .assign isLocal target v => by
    cases target with
    | value l =>
      cases l with
      | «variable» x =>
        rw [parts]
        refine .here ?_
        rw [lower]
        exact .left (.right (lieIn_parts _ (base + 2) v) rfl)
      | _ =>
        simp only [parts]
        exact .here .nil
    | index b key =>
      rw [parts]
      refine .here ?_
      rw [lower]
      refine .left (.append (.left (.right (lieIn_parts σ (base + 3) key) rfl))
        (.right (lieIn_parts _ _ v) ?_))
      rw [extent_append, Nat.add_assoc]
      rfl
    | _ =>
      simp only [parts]
      exact .here .nil
  | .ifThen condition body => by
    rw [parts]
    refine .here ?_
    rw [lower]
    exact .append (.left (.left (lieIn_parts σ base condition)))
      (.right (lieIn_partsOfBlock _ _ body) (by rw [extent_append, ← Nat.add_assoc]; rfl))
  | .forLoop initial bound body => by
    rw [parts]
    refine .here ?_
    cases hx : Compiler.loopVariable? initial with
    | none => exact .nil
    | some x =>
      rw [lower_forLoop hx]
      exact .left (.right (lieIn_lowerTurns (lieIn_parts _ _ initial) (lieIn_parts _ _ bound)
        (lieIn_partsOfBlock _ _ body)) rfl)
  | .function _ _ _ => by
    rw [parts]
    exact .here .nil
  | .ret v => by
    rw [parts]
    refine .here ?_
    rw [lower]
    exact .left (lieIn_parts σ base v)

theorem lieIn_partsOfArguments (σ : Scoping) (base : Nat) :
    (ns : List Node) → LieIn base (lowerArguments σ base ns) (partsOfArguments σ base ns)
  | [] => .nil
  | n :: ns => by
    rw [lowerArguments, partsOfArguments]
    exact .append (.left (lieIn_parts σ base n)) (.right (lieIn_partsOfArguments _ _ ns) rfl)

theorem lieIn_partsOfBlock (σ : Scoping) (base : Nat) :
    (ns : List Node) → LieIn base (lowerBlock σ base ns) (partsOfBlock σ base ns)
  | [] => .nil
  | n :: ns => by
    rw [lowerBlock, partsOfBlock]
    exact .append (.left (.left (lieIn_parts σ base n))) (.right (lieIn_partsOfBlock _ _ ns) rfl)

end

end Node

namespace Node

/-- A property that the parts of a node and the bodies of its functions have with it. -/
structure Hereditary (P : Node → Prop) : Prop where
  notEqual : ∀ {lhs rhs}, P (.notEqual lhs rhs) → P lhs ∧ P rhs
  call : ∀ {r f args}, P (.call r f args) → ∀ n ∈ args, P n
  index : ∀ {b key}, P (.index b key) → P key
  assign : ∀ {l x v}, P (.assign l (.value (.variable x)) v) → P v
  assignIndex : ∀ {l b key v}, P (.assign l (.index b key) v) → P key ∧ P v
  ifThen : ∀ {condition body}, P (.ifThen condition body) → P condition ∧ ∀ n ∈ body, P n
  forLoop : ∀ {initial bound body}, P (.forLoop initial bound body) →
    P initial ∧ P bound ∧ ∀ n ∈ body, P n
  function : ∀ {f params body}, P (.function f params body) → ∀ n ∈ body, P n
  ret : ∀ {v}, P (.ret v) → P v

theorem forall_mem_append {P : α → Prop} {xs ys : List α} (hx : ∀ x ∈ xs, P x)
    (hy : ∀ y ∈ ys, P y) : ∀ x ∈ xs ++ ys, P x :=
  fun x h => (List.mem_append.1 h).elim (hx x) (hy x)

theorem forall_mem_cons {P : α → Prop} {x : α} {xs : List α} (hx : P x) (hs : ∀ y ∈ xs, P y) :
    ∀ y ∈ x :: xs, P y := List.forall_mem_cons.2 ⟨hx, hs⟩

mutual

theorem Hereditary.parts {P : Node → Prop} (hP : Hereditary P) (σ : Scoping) (base : Nat) :
    (n : Node) → P n → ∀ q ∈ n.parts σ base, P q.node
  | .value _, h => by
    rw [Node.parts]
    exact forall_mem_cons h (by simp)
  | .notEqual lhs rhs, h => by
    rw [Node.parts]
    obtain ⟨hl, hr⟩ := hP.notEqual h
    exact forall_mem_cons h (forall_mem_append (hP.parts _ _ lhs hl) (hP.parts _ _ rhs hr))
  | .call _ _ args, h => by
    rw [Node.parts]
    exact forall_mem_cons h (hP.partsOfArguments _ _ args (hP.call h))
  | .index _ key, h => by
    rw [Node.parts]
    exact forall_mem_cons h (hP.parts _ _ key (hP.index h))
  | .assign isLocal target v, h => by
    cases target with
    | value l =>
      cases l with
      | «variable» x =>
        rw [Node.parts]
        exact forall_mem_cons h (hP.parts _ _ v (hP.assign h))
      | _ =>
        simp only [Node.parts]
        exact forall_mem_cons h (by simp)
    | index b key =>
      rw [Node.parts]
      obtain ⟨hk, hv⟩ := hP.assignIndex h
      exact forall_mem_cons h (forall_mem_append (hP.parts _ _ key hk) (hP.parts _ _ v hv))
    | _ =>
      simp only [Node.parts]
      exact forall_mem_cons h (by simp)
  | .ifThen condition body, h => by
    rw [Node.parts]
    obtain ⟨hc, hb⟩ := hP.ifThen h
    exact forall_mem_cons h (forall_mem_append (hP.parts _ _ condition hc)
      (hP.partsOfBlock _ _ body hb))
  | .forLoop initial bound body, h => by
    rw [Node.parts]
    obtain ⟨hi, he, hb⟩ := hP.forLoop h
    refine forall_mem_cons h ?_
    cases Compiler.loopVariable? initial with
    | none => simp
    | some x =>
      exact forall_mem_append (forall_mem_append (hP.parts _ _ initial hi) (hP.parts _ _ bound he))
        (hP.partsOfBlock _ _ body hb)
  | .function _ _ _, h => by
    rw [Node.parts]
    exact forall_mem_cons h (by simp)
  | .ret v, h => by
    rw [Node.parts]
    exact forall_mem_cons h (hP.parts _ _ v (hP.ret h))

theorem Hereditary.partsOfArguments {P : Node → Prop} (hP : Hereditary P) (σ : Scoping)
    (base : Nat) : (ns : List Node) → (∀ n ∈ ns, P n) → ∀ q ∈ partsOfArguments σ base ns, P q.node
  | [], _ => by simp [Node.partsOfArguments]
  | n :: ns, h => by
    rw [Node.partsOfArguments]
    obtain ⟨hn, hs⟩ := List.forall_mem_cons.1 h
    exact forall_mem_append (hP.parts _ _ n hn) (hP.partsOfArguments _ _ ns hs)

theorem Hereditary.partsOfBlock {P : Node → Prop} (hP : Hereditary P) (σ : Scoping) (base : Nat) :
    (ns : List Node) → (∀ n ∈ ns, P n) → ∀ q ∈ partsOfBlock σ base ns, P q.node
  | [], _ => by simp [Node.partsOfBlock]
  | n :: ns, h => by
    rw [Node.partsOfBlock]
    obtain ⟨hn, hs⟩ := List.forall_mem_cons.1 h
    exact forall_mem_append (hP.parts _ _ n hn) (hP.partsOfBlock _ _ ns hs)

end

mutual

theorem Hereditary.routines {P : Node → Prop} (hP : Hereditary P) (σ : Scoping) :
    (n : Node) → P n → ∀ r ∈ n.routines σ, ∀ b ∈ r.body, P b
  | .value _, _ => by simp [Node.routines]
  | .notEqual lhs rhs, h => by
    rw [Node.routines]
    obtain ⟨hl, hr⟩ := hP.notEqual h
    exact forall_mem_append (hP.routines _ lhs hl) (hP.routines _ rhs hr)
  | .call _ _ args, h => by
    rw [Node.routines]
    exact hP.routinesAll _ args (hP.call h)
  | .index _ key, h => by
    rw [Node.routines]
    exact hP.routines _ key (hP.index h)
  | .assign isLocal target v, h => by
    cases target with
    | value l =>
      cases l with
      | «variable» x =>
        rw [Node.routines]
        exact hP.routines _ v (hP.assign h)
      | _ => simp [Node.routines]
    | index b key =>
      rw [Node.routines]
      obtain ⟨hk, hv⟩ := hP.assignIndex h
      exact forall_mem_append (hP.routines _ key hk) (hP.routines _ v hv)
    | _ => simp [Node.routines]
  | .ifThen condition body, h => by
    rw [Node.routines]
    obtain ⟨hc, hb⟩ := hP.ifThen h
    exact forall_mem_append (hP.routines _ condition hc) (hP.routinesAll _ body hb)
  | .forLoop initial bound body, h => by
    rw [Node.routines]
    obtain ⟨hi, he, hb⟩ := hP.forLoop h
    exact forall_mem_append (forall_mem_append (hP.routines _ initial hi) (hP.routines _ bound he))
      (hP.routinesAll _ body hb)
  | .function _ params body, h => by
    rw [Node.routines]
    exact forall_mem_cons (hP.function h) (hP.routinesAll _ body (hP.function h))
  | .ret v, h => by
    rw [Node.routines]
    exact hP.routines _ v (hP.ret h)

theorem Hereditary.routinesAll {P : Node → Prop} (hP : Hereditary P) (σ : Scoping) :
    (ns : List Node) → (∀ n ∈ ns, P n) → ∀ r ∈ routinesAll σ ns, ∀ b ∈ r.body, P b
  | [], _ => by simp [Node.routinesAll]
  | n :: ns, h => by
    rw [Node.routinesAll]
    obtain ⟨hn, hs⟩ := List.forall_mem_cons.1 h
    exact forall_mem_append (hP.routines _ n hn) (hP.routinesAll _ ns hs)

end

theorem compilableAll_iff {ns : List Node} : CompilableAll ns ↔ ∀ n ∈ ns, n.Compilable := by
  induction ns with
  | nil => simp [CompilableAll]
  | cons n ns ih => simp [CompilableAll, ih]

theorem hereditary_compilable : Hereditary Compilable where
  notEqual h := h
  call h := compilableAll_iff.1 h
  index h := h
  assign h := h
  assignIndex {l _ _ _} h := by
    cases l with
    | false => exact h
    | true => exact h.elim
  ifThen h := ⟨h.1, compilableAll_iff.1 h.2⟩
  forLoop h := ⟨h.2.1, h.2.2.1, compilableAll_iff.1 h.2.2.2⟩
  function h := compilableAll_iff.1 h
  ret h := h

end Node

namespace Script

def parts (ns : List Node) : Nat → List Part
  | 0 => Node.partsOfBlock .start 0 ns
  | k + 1 =>
    match (routines ns)[k]? with
    | some r => Node.partsOfBlock r.scoping (extent (Routine.prologue r.params)) r.body
    | none => []

theorem stands_of_mem_parts {ns : List Node} {id : Nat} {q : Part} (h : q ∈ parts ns id) :
    ∃ is, (streams ns)[id]? = some is ∧ Stands is q.base q.row := by
  cases id with
  | zero =>
    obtain ⟨-, hq⟩ := Node.lieIn_partsOfBlock .start 0 ns q h
    exact ⟨_, rfl, hq⟩
  | succ k =>
    rw [parts] at h
    cases hr : (routines ns)[k]? with
    | none =>
      rw [hr] at h
      cases h
    | some r =>
      rw [hr] at h
      refine ⟨r.lower, by simp [streams, hr], ?_⟩
      have hlies := Node.lieIn_partsOfBlock _ _ r.body q h
      exact (Lies.left (Lies.right hlies (Nat.zero_add _).symm)).stands

theorem hereditary_of_mem_parts {P : Node → Prop} (hP : Node.Hereditary P) {ns : List Node}
    (h : ∀ n ∈ ns, P n) {id : Nat} {q : Part} (hq : q ∈ parts ns id) : P q.node := by
  cases id with
  | zero => exact hP.partsOfBlock _ _ ns h q hq
  | succ k =>
    rw [parts] at hq
    cases hr : (routines ns)[k]? with
    | none =>
      rw [hr] at hq
      cases hq
    | some r =>
      rw [hr] at hq
      exact hP.partsOfBlock _ _ r.body
        (hP.routinesAll .start ns h r (List.mem_of_getElem? hr)) q hq

end Script

end Scriptlet
