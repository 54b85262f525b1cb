import Scriptlet.Proofs.Acceptance
import Scriptlet.Proofs.Declarations

/-! Which names are local.  The compiler finds out with a stack of scopes that it opens, fills and
closes on its way through a script; a reader finds out by looking at the text around a statement.
Both come to the same answer at every statement that stores a name, and the compiler leaves its
stack as it found it, apart from the names that it adds to the innermost scope. -/

namespace Scriptlet

open Code

namespace Compiler

/-- The stack `after` has the scopes of `before`, the innermost one maybe with more names. -/
structure Widened (before after : List (List String)) : Prop where
  length : after.length = before.length
  outer : after.tail = before.tail
  inner : before.headD [] ⊆ after.headD []

theorem Widened.innermost {added scope : List String} {outer : List (List String)} :
    Widened (scope :: outer) ((added ++ scope) :: outer) :=
  ⟨rfl, rfl, List.subset_append_right added scope⟩

def Shifts (f : Nat → Nat) (x : Emit α) : Prop :=
  ∀ c a c', x c = .ok a c' → c'.scopes.length = f c.scopes.length

namespace Shifts

theorem bind {f g : Nat → Nat} {x : Emit α} {k : α → Emit β} (hx : Shifts f x)
    (hk : ∀ a, Shifts g (k a)) : Shifts (g ∘ f) (x >>= k) := by
  intro c b c' h
  obtain ⟨a, c₁, hxc, hkc⟩ := exists_of_bind_eq_ok h
  rw [hk a c₁ b c' hkc, hx c a c₁ hxc]
  rfl

theorem pure (a : α) : Shifts id (Pure.pure a : Emit α) := by
  intro c _ c' h
  cases h
  rfl

theorem throw (f : Nat → Nat) (e : CompileError) : Shifts f (throw e : Emit α) := by
  intro c a c' h
  cases h

end Shifts

theorem shifts_openScope (names : List String) : Shifts (· + 1) (openScope names) := by
  intro c _ c' h
  cases h
  rfl

theorem shifts_closeScope : Shifts (· - 1) closeScope := by
  intro c _ c' h
  cases h
  exact List.length_tail

theorem shifts_reserve : Shifts id reserve := by
  intro c _ c' h
  cases h
  rfl

theorem shifts_finish (name : String) (k : Nat) (slots : List Slot) :
    Shifts id (finish name k slots) := by
  intro c _ c' h
  cases h
  rfl

theorem shifts_storeOp (x : String) : Shifts id (storeOp x) := by
  intro c _ c' h
  cases h
  rfl

theorem shifts_declareIf (isLocal : Bool) (x : String) : Shifts id (declareIf isLocal x) := by
  intro c a c' h
  by_cases hc : c.scopes = []
  · cases isLocal with
    | false =>
      cases h
      rfl
    | true => simp [declareIf, declare, bind_of_ok (get_ok c), hc, throw, throwThe,
        MonadExceptOf.throw, EStateM.throw] at h
  · obtain ⟨c₁, hx, hσ, -⟩ := yields_declareIf rfl hc isLocal x
    rw [h] at hx
    cases hx
    obtain ⟨added, scope, outer, hs, hs'⟩ := hσ ▸ Scoping.extends_declareIf hc isLocal x
    simp only [scoping] at hs hs'
    simp [hs, hs']

mutual

theorem shifts_emit (base : Nat) : (n : Node) → Shifts id (emit base n)
  | .value l => by
    rw [emit]
    exact .pure _
  | .notEqual lhs rhs => by
    rw [emit]
    exact (shifts_emit base lhs).bind fun l => (shifts_emit _ rhs).bind fun r => .pure _
  | .call receiver f args => by
    rw [emit]
    exact (shifts_emitArguments base args).bind fun as => .pure _
  | .index b key => by
    rw [emit]
    exact (shifts_emit _ key).bind fun k => .pure _
  | .assign isLocal target v => by
    cases target with
    | value l =>
      cases l with
      | «variable» x =>
        rw [emit]
        exact (shifts_declareIf isLocal x).bind fun _ => (shifts_emit _ v).bind fun l =>
          (shifts_storeOp x).bind fun op => .pure _
      | _ =>
        simp only [emit]
        exact .throw id _
    | index b key =>
      cases isLocal with
      | false =>
        rw [emit]
        exact (shifts_emit _ key).bind fun k => (shifts_emit _ v).bind fun l => .pure _
      | true =>
        simp only [emit]
        exact .throw id _
    | _ =>
      simp only [emit]
      exact .throw id _
  | .ifThen condition body => by
    rw [emit]
    exact (shifts_emit base condition).bind fun c => (shifts_emitBlock _ body).bind fun b => .pure _
  | .forLoop initial bound body => by
    rw [emit]
    cases loopVariable? initial with
    | none => exact .throw id _
    | some x =>
      exact (shifts_openScope []).bind fun _ => (shifts_emit _ initial).bind fun i =>
        (shifts_emit _ bound).bind fun e => (shifts_emitBlock _ body).bind fun b =>
        shifts_closeScope.bind fun _ => .pure _
  | .function f params body => by
    rw [emit]
    exact shifts_reserve.bind fun k => (shifts_openScope params).bind fun _ =>
      (shifts_emitBlock _ body).bind fun b => shifts_closeScope.bind fun _ =>
      (shifts_finish f k _).bind fun _ => (shifts_storeOp f).bind fun op => .pure _
  | .ret v => by
    rw [emit]
    exact (shifts_emit base v).bind fun l => .pure _

theorem shifts_emitArguments (base : Nat) : (ns : List Node) → Shifts id (emitArguments base ns)
  | [] => by
    rw [emitArguments]
    exact .pure _
  | n :: ns => by
    rw [emitArguments]
    exact (shifts_emit base n).bind fun a => (shifts_emitArguments _ ns).bind fun as => .pure _

theorem shifts_emitBlock (base : Nat) : (ns : List Node) → Shifts id (emitBlock base ns)
  | [] => by
    rw [emitBlock]
    exact .pure _
  | n :: ns => by
    rw [emitBlock]
    exact (shifts_emit base n).bind fun a => (shifts_emitBlock _ ns).bind fun as => .pure _

end

theorem widened_of_compileNodes {c c' : Compiler} {ns : List Node} {l : List Slot}
    (h : compileNodes ns c = .ok l c') : Widened c.scopes c'.scopes := by
  rw [compileNodes] at h
  by_cases hc : c.scopes = []
  · have hlength := shifts_emitBlock 0 ns c l c' h
    rw [hc] at hlength ⊢
    rw [List.eq_nil_of_length_eq_zero hlength]
    exact ⟨rfl, rfl, List.Subset.refl _⟩
  · obtain ⟨c₁, hx, hσ, -⟩ :=
      yields_emitBlock ns (compilable_of_emitBlock ns h) 0 hc rfl
    rw [h] at hx
    cases hx
    obtain ⟨added, scope, outer, hs, hs'⟩ := hσ ▸ Scoping.extends_afterAll hc ns
    simp only [scoping] at hs hs'
    rw [hs, hs']
    exact .innermost

theorem widened_of_failed {c c' : Compiler} {ns : List Node} {e : CompileError}
    (h : compileNodes ns c = .error e c') :
    ∃ opened kept, c'.scopes = opened ++ kept ∧ Widened c.scopes kept := by
  by_cases hc : c.scopes = []
  · refine ⟨c'.scopes, [], (List.append_nil _).symm, ?_⟩
    rw [hc]
    exact ⟨rfl, rfl, List.Subset.refl _⟩
  · obtain ⟨-, opened, added, scope, outer, hs, hs'⟩ := guards_emitBlock 0 ns c e c' hc h
    exact ⟨opened, _, hs', hs ▸ .innermost⟩

end Compiler

namespace Node

mutual

def slotCount : Node → Nat
  | .value l => (Compiler.literal l).length
  | .notEqual lhs rhs => lhs.slotCount + rhs.slotCount + 1
  | .call receiver f args => slotCountOfArguments args + (Compiler.callee receiver f).length + 1
  | .index _ key => 3 + key.slotCount + 1
  | .assign _ (.index _ key) v => 3 + key.slotCount + v.slotCount + 1
  | .assign _ _ v => 2 + v.slotCount + 1
  | .ifThen condition body => condition.slotCount + 2 + slotCountOfBlock body
  | .forLoop initial bound body =>
    1 + initial.slotCount + 3 + bound.slotCount + 3 + slotCountOfBlock body + 11
  | .function _ _ _ => 5
  | .ret v => v.slotCount + 1

def slotCountOfArguments : List Node → Nat
  | [] => 0
  | n :: ns => n.slotCount + slotCountOfArguments ns

def slotCountOfBlock : List Node → Nat
  | [] => 0
  | n :: ns => n.slotCount + (if n.isExpression then 1 else 0) + slotCountOfBlock ns

end

theorem extent_pop (n : Node) :
    extent (if n.isExpression then [.pop] else []) = if n.isExpression then 1 else 0 := by
  split <;> rfl

mutual

theorem extent_lower (σ : Scoping) (base : Nat) :
    (n : Node) → n.Compilable → extent (n.lower σ base) = n.slotCount
  | .value l, _ => by
    rw [lower, slotCount, ← length_slots, Compiler.slots_lowerLiteral]
  | .notEqual lhs rhs, h => by
    obtain ⟨hl, hr⟩ := hereditary_compilable.notEqual h
    simp only [lower, slotCount, extent_append, extent_lower _ _ lhs hl, extent_lower _ _ rhs hr]
    rfl
  | .call receiver f args, h => by
    simp only [lower, slotCount, extent_append, extent_lowerArguments _ _ args h,
      ← Compiler.slots_lowerCallee, length_slots]
    rfl
  | .index b key, h => by
    have hkey := hereditary_compilable.index h
    simp only [lower, slotCount, extent_append, extent_lower _ _ key hkey]
    rfl
  | .assign isLocal target v, h => by
    cases target with
    | value l =>
      cases l with
      | «variable» x =>
        have hv := hereditary_compilable.assign h
        simp only [lower, slotCount, extent_append, extent_lower _ _ v hv, extent_lowerStore]
        rfl
      | _ => simp [Compilable] at h
    | index b key =>
      obtain ⟨hk, hv⟩ := hereditary_compilable.assignIndex h
      simp only [lower, slotCount, extent_append, extent_lower _ _ key hk, extent_lower _ _ v hv]
      rfl
    | _ => simp [Compilable] at h
  | .ifThen condition body, h => by
    have hc := (hereditary_compilable.ifThen h).1
    simp only [lower, slotCount, extent_append, extent_lower _ _ condition hc,
      extent_lowerBlock _ _ body h.2]
    rfl
  | .forLoop initial bound body, h => by
    obtain ⟨hx, hi, he, hb⟩ := h
    obtain ⟨x, hx⟩ := Option.isSome_iff_exists.1 hx
    simp only [lower, slotCount, hx, extent_append, extent_lower _ _ initial hi,
      extent_lower _ _ bound he, extent_lowerBlock _ _ body hb]
    rfl
  | .function f params body, _ => by
    rw [lower, slotCount, extent_cons, extent_cons, extent_lowerStore]
    rfl
  | .ret v, h => by
    simp only [lower, slotCount, extent_append, extent_lower _ _ v h]
    rfl

theorem extent_lowerArguments (σ : Scoping) (base : Nat) : (ns : List Node) → CompilableAll ns →
    extent (lowerArguments σ base ns) = slotCountOfArguments ns
  | [], _ => rfl
  | n :: ns, h => by
    simp only [lowerArguments, slotCountOfArguments, extent_append, extent_lower _ _ n h.1,
      extent_lowerArguments _ _ ns h.2]

theorem extent_lowerBlock (σ : Scoping) (base : Nat) : (ns : List Node) → CompilableAll ns →
    extent (lowerBlock σ base ns) = slotCountOfBlock ns
  | [], _ => rfl
  | n :: ns, h => by
    simp only [lowerBlock, slotCountOfBlock, extent_append, extent_lower _ _ n h.1, extent_pop,
      extent_lowerBlock _ _ ns h.2]

end

end Node

namespace Node

/-- The statement declares the name in the scope that it stands in.  The body of an `if` is in
the scope around it. -/
inductive Introduces (x : String) : Node → Prop
  | assign (v : Node) : Introduces x (.assign true (.value (.variable x)) v)
  | ifThen {condition n : Node} {body : List Node} : n ∈ body → Introduces x n →
    Introduces x (.ifThen condition body)

theorem afterAll_eq {σ : Scoping} {ns : List Node} (h : ∀ n ∈ ns, σ.after n = σ) :
    σ.afterAll ns = σ := by
  induction ns with
  | nil => rfl
  | cons n ns ih =>
    obtain ⟨hn, hns⟩ := List.forall_mem_cons.1 h
    rw [Scoping.afterAll, hn, ih hns]

mutual

theorem Postfixed.after_eq {n : Node} (σ : Scoping) : Postfixed n → σ.after n = σ
  | .value _ => rfl
  | .call _ _ h => afterAll_eq fun n hn => (h n hn).after_eq σ
  | .index _ h => h.after_eq σ

theorem Expression.after_eq {n : Node} (σ : Scoping) : Expression n → σ.after n = σ
  | .postfixed h => h.after_eq σ
  | .notEqual hl hr => by rw [Scoping.after, hl.after_eq, hr.after_eq]

end

theorem Expression.children {n : Node} (h : Expression n) : ∀ m ∈ n.children, Expression m := by
  cases h with
  | notEqual hl hr => simpa [Node.children] using ⟨.postfixed hl, .postfixed hr⟩
  | postfixed h =>
    cases h with
    | value l => simp [Node.children]
    | call _ _ hargs => exact hargs
    | index b hk => simpa [Node.children] using hk

end Node

namespace Scoping

variable {σ : Scoping} {x : String}

theorem isDeclared_declare (hσ : σ.scopes ≠ []) (y : String) :
    (σ.declare y).isDeclared x = true ↔ x = y ∨ σ.isDeclared x = true := by
  obtain ⟨scope, outer, hs⟩ := List.exists_cons_of_ne_nil hσ
  simp [declare, isDeclared, hs, or_assoc]

theorem isDeclared_enter (names : List String) :
    (σ.enter names).isDeclared x = true ↔ x ∈ names ∨ σ.isDeclared x = true := by
  simp [enter, isDeclared]

theorem isDeclared_afterAll_of {ns : List Node} (hσ : σ.scopes ≠ [])
    (h : ∀ n ∈ ns, ∀ σ : Scoping, σ.scopes ≠ [] →
      ((σ.after n).isDeclared x = true ↔ n.Introduces x ∨ σ.isDeclared x = true)) :
    (σ.afterAll ns).isDeclared x = true ↔
      (∃ n ∈ ns, n.Introduces x) ∨ σ.isDeclared x = true := by
  induction ns generalizing σ with
  | nil => simp [afterAll]
  | cons n ns ih =>
    obtain ⟨hn, hns⟩ := List.forall_mem_cons.1 h
    rw [afterAll, ih (extends_after hσ n).ne_nil hns, hn σ hσ]
    simp only [List.mem_cons, exists_eq_or_imp]
    exact or_left_comm.trans or_assoc.symm

theorem isDeclared_after {n : Node} (h : n.Statement) (hσ : σ.scopes ≠ []) :
    (σ.after n).isDeclared x = true ↔ n.Introduces x ∨ σ.isDeclared x = true := by
  induction h generalizing σ with
  | expression h =>
    rw [h.after_eq]
    refine (or_iff_right fun hx => ?_).symm
    cases hx <;> cases h.isExpression
  | @assign isLocal y v hv =>
    rw [after, hv.after_eq]
    cases isLocal with
    | false => exact (or_iff_right nofun).symm
    | true =>
      refine (isDeclared_declare hσ y).trans (or_congr_left ⟨?_, ?_⟩)
      · rintro rfl
        exact .assign v
      · rintro ⟨⟩
        rfl
  | assignIndex b hk hv =>
    rw [after, hk.after_eq, hv.after_eq]
    exact (or_iff_right nofun).symm
  | ifThen hc _ ih =>
    rw [after, hc.after_eq, isDeclared_afterAll_of hσ fun n hn σ => ih n hn]
    refine or_congr_left ⟨?_, ?_⟩
    · rintro ⟨n, hn, hx⟩
      exact .ifThen hn hx
    · rintro (_ | ⟨hn, hx⟩)
      exact ⟨_, hn, hx⟩
  | forLoop | function => exact (or_iff_right nofun).symm
  | ret hv =>
    rw [after, hv.after_eq]
    exact (or_iff_right nofun).symm

theorem isDeclared_afterAll {ns : List Node} (h : ∀ n ∈ ns, n.Statement) (hσ : σ.scopes ≠ []) :
    (σ.afterAll ns).isDeclared x = true ↔
      (∃ n ∈ ns, n.Introduces x) ∨ σ.isDeclared x = true :=
  isDeclared_afterAll_of hσ fun n hn _ => isDeclared_after (h n hn)

end Scoping

def Program.slot? (p : Program) (id a : Nat) : Option Slot := p.code[id]?.bind (·[a]?)

theorem Node.mem_parts_self (σ : Scoping) (base : Nat) (n : Node) :
    ⟨σ, base, n⟩ ∈ n.parts σ base := by
  rw [parts.eq_def]
  exact List.mem_cons_self

namespace Script

inductive Enclosure
  | script
  | function (params : List String)
  | loop (x : String)
  | branch

def Enclosure.names : Enclosure → List String
  | script | branch => []
  | function params => params
  | loop x => [x]

structure Block where
  enclosure : Enclosure
  before : List Node

def Block.Declares (b : Block) (x : String) : Prop :=
  x ∈ b.enclosure.names ∨ ∃ n ∈ b.before, n.Introduces x

/-- The name is local to the statement `n` in the blocks `bs`: `n` declares it itself, or one of
the blocks does. -/
def IsLocal (bs : List Block) (n : Node) (x : String) : Prop :=
  n.Introduces x ∨ ∃ b ∈ bs, b.Declares x

/-- The statement `n` of a script is in the blocks `bs`, the innermost first, and the program has
its slots from `base` on in the stream `id`.  The initializer of a loop is a statement in front of
its body, and the stream of a function's body is the one that the function is declared with. -/
inductive StandsAt (p : Program) (ns : List Node) : List Block → Node → Nat → Nat → Prop
  | script {before rest : List Node} {n : Node} : ns = before ++ n :: rest →
    StandsAt p ns [⟨.script, before⟩] n 0 (Node.slotCountOfBlock before)
  | branch {bs : List Block} {condition n : Node} {before rest : List Node} {id base : Nat} :
    StandsAt p ns bs (.ifThen condition (before ++ n :: rest)) id base →
    StandsAt p ns (⟨.branch, before⟩ :: bs) n id
      (base + condition.slotCount + 2 + Node.slotCountOfBlock before)
  | initial {bs : List Block} {x : String} {v bound : Node} {body : List Node} {id base : Nat} :
    StandsAt p ns bs (.forLoop (.assign true (.value (.variable x)) v) bound body) id base →
    StandsAt p ns bs (.assign true (.value (.variable x)) v) id (base + 1)
  | loop {bs : List Block} {x : String} {v bound n : Node} {before rest : List Node}
    {id base : Nat} :
    StandsAt p ns bs
      (.forLoop (.assign true (.value (.variable x)) v) bound (before ++ n :: rest)) id base →
    StandsAt p ns (⟨.loop x, before⟩ :: bs) n id
      (base + 1 + (2 + v.slotCount + 1) + 3 + bound.slotCount + 3 + Node.slotCountOfBlock before)
  | function {bs : List Block} {f : String} {params : List String} {n : Node}
    {before rest : List Node} {id base k : Nat} :
    StandsAt p ns bs (.function f params (before ++ n :: rest)) id base →
    p.slot? id (base + 3) = some (.code k) →
    StandsAt p ns (⟨.function params, before⟩ :: bs) n k
      (1 + 4 * params.length + Node.slotCountOfBlock before)

structure KnownAt (ns : List Node) (bs : List Block) (n : Node) (id base : Nat) (σ : Scoping) :
    Prop where
  statement : n.Statement
  within : n.parts σ base ⊆ parts ns id
  ne_nil : σ.scopes ≠ []
  declared : ∀ x, σ.isDeclared x = true ↔ ∃ b ∈ bs, b.Declares x

theorem parts_subset_partsOfBlock {before rest : List Node} (n : Node)
    (h : ∀ m ∈ before, m.Statement) (σ : Scoping) (base : Nat) :
    n.parts (σ.afterAll before) (base + Node.slotCountOfBlock before) ⊆
      Node.partsOfBlock σ base (before ++ n :: rest) := by
  induction before generalizing σ base with
  | nil => exact List.subset_append_left _ _
  | cons m before ih =>
    obtain ⟨hm, hbefore⟩ := List.forall_mem_cons.1 h
    rw [List.cons_append, Node.partsOfBlock, extent_append, Node.extent_pop,
      Node.extent_lower _ _ m hm.compilable, Node.slotCountOfBlock, ← Nat.add_assoc]
    exact List.Subset.trans (ih hbefore _ _) (List.subset_append_right _ _)

theorem KnownAt.ofBlock {ns : List Node} {bs : List Block} {enclosure : Enclosure}
    {before rest : List Node} {n : Node} {id base : Nat} {σ : Scoping}
    (hbody : ∀ m ∈ before ++ n :: rest, m.Statement)
    (hparts : Node.partsOfBlock σ base (before ++ n :: rest) ⊆ parts ns id)
    (hσ : σ.scopes ≠ [])
    (hdeclared : ∀ x, σ.isDeclared x = true ↔ x ∈ enclosure.names ∨ ∃ b ∈ bs, b.Declares x) :
    KnownAt ns (⟨enclosure, before⟩ :: bs) n id (base + Node.slotCountOfBlock before)
      (σ.afterAll before) := by
  obtain ⟨hbefore, hn⟩ := List.forall_mem_append.1 hbody
  refine ⟨hn n List.mem_cons_self, ?_, (Scoping.extends_afterAll hσ before).ne_nil, fun x => ?_⟩
  · exact List.Subset.trans (parts_subset_partsOfBlock n hbefore σ base) hparts
  · rw [Scoping.isDeclared_afterAll hbefore hσ, hdeclared]
    simp only [List.mem_cons, exists_eq_or_imp, Block.Declares]
    exact or_left_comm.trans or_assoc.symm

theorem slot?_of_stands {ns : List Node} {id a : Nat} {is js : List Instruction} {i : Instruction}
    (hs : (streams ns)[id]? = some is) (h : Stands is a (i :: js)) :
    (assemble (streams ns)).slot? id a = some (.ofOpcode i.opcode) ∧
    ∀ slot, i.operand? = some slot → (assemble (streams ns)).slot? id (a + 1) = some slot := by
  simp only [Program.slot?, code_assemble hs, Option.bind_some, List.getElem?_toArray]
  exact ⟨h.slots_opcode, fun slot => h.slots_operand⟩

theorem extent_prologue (params : List String) :
    extent (Routine.prologue params) = 1 + 4 * params.length := by
  have hparams (ps : List String) :
      extent (ps.flatMap fun p => [.pushId p, .swap, .setEnv]) = 4 * ps.length := by
    induction ps with
    | nil => rfl
    | cons p ps ih =>
      rw [List.flatMap_cons, extent_append, ih, List.length_cons, Nat.mul_succ, Nat.add_comm]
      rfl
  rw [Routine.prologue, extent_cons, hparams, List.length_reverse]
  rfl

theorem KnownAt.stands {ns : List Node} {bs : List Block} {n : Node} {id base : Nat} {σ : Scoping}
    (h : KnownAt ns bs n id base σ) :
    ∃ is, (streams ns)[id]? = some is ∧ Stands is base (n.lower σ base) := by
  exact stands_of_mem_parts (h.within (Node.mem_parts_self σ base n))

theorem KnownAt.function {ns : List Node} {bs : List Block} {f : String} {params : List String}
    {body : List Node} {id base : Nat} {σ : Scoping}
    (h : KnownAt ns bs (.function f params body) id base σ) :
    (assemble (streams ns)).slot? id (base + 3) = some (.code σ.next) ∧
    parts ns σ.next =
      Node.partsOfBlock (σ.enterFunction params) (1 + 4 * params.length) body := by
  obtain ⟨is, hs, hrow⟩ := h.stands
  rw [Node.lower] at hrow
  refine ⟨(slot?_of_stands hs hrow.tail).2 _ rfl, ?_⟩
  have hmem : (⟨σ, base, .function f params body⟩ : Part) ∈ parts ns id :=
    h.within (Node.mem_parts_self σ base _)
  have hroutine := routine?_of_mem_parts hmem rfl
  rw [← extent_prologue]
  cases hk : σ.next with
  | zero =>
    rw [hk] at hroutine
    cases hroutine
  | succ k =>
    rw [hk, routine?] at hroutine
    rw [parts, hroutine]

theorem parts_forLoop_supset (x : String) {v bound : Node} (hv : v.Expression)
    (he : bound.Expression) (body : List Node) (σ : Scoping) (base : Nat) :
    Node.parts (σ.enter []) (base + 1) (.assign true (.value (.variable x)) v) ⊆
      Node.parts σ base (.forLoop (.assign true (.value (.variable x)) v) bound body) ∧
    Node.partsOfBlock (σ.enter [x])
        (base + 1 + (2 + v.slotCount + 1) + 3 + bound.slotCount + 3) body ⊆
      Node.parts σ base (.forLoop (.assign true (.value (.variable x)) v) bound body) := by
  have hinitial : (σ.enter []).after (.assign true (.value (.variable x)) v) = σ.enter [x] := by
    rw [Scoping.after, hv.after_eq]
    rfl
  have hcount : (Node.assign true (.value (.variable x)) v).Compilable := hv.compilable
  rw [Node.parts.eq_def σ base]
  simp only [Compiler.loopVariable?, Option.isSome_some, if_true, hinitial,
    Node.extent_lower _ _ _ hcount, Node.extent_lower _ _ bound he.compilable, he.after_eq,
    Node.slotCount]
  exact ⟨List.subset_cons_of_subset _ (List.subset_append_of_subset_left _
    (List.subset_append_left _ _)), List.subset_cons_of_subset _ (List.subset_append_right _ _)⟩

theorem StandsAt.exists_knownAt {ns : List Node} (hns : ∀ n ∈ ns, n.Statement) {bs : List Block}
    {n : Node} {id base : Nat} (h : StandsAt (assemble (streams ns)) ns bs n id base) :
    ∃ σ, KnownAt ns bs n id base σ := by
  -- From the statement that a body belongs to, to a statement in the body.
  induction h with
  | @script before rest n hsplit =>
    subst hsplit
    have hknown : KnownAt (before ++ n :: rest) [⟨.script, before⟩] n 0
        (0 + Node.slotCountOfBlock before) (Scoping.start.afterAll before) := by
      refine .ofBlock hns (List.Subset.refl _) (List.cons_ne_nil _ _) fun x => ?_
      simp [Scoping.start, Scoping.isDeclared, Enclosure.names]
    rw [Nat.zero_add] at hknown
    exact ⟨_, hknown⟩
  | @branch bs condition n before rest id base _ ih =>
    obtain ⟨σ, hσ⟩ := ih
    cases hσ.statement with
    | expression h => cases h.isExpression
    | ifThen hc hb =>
      refine ⟨_, .ofBlock (σ := σ) hb ?_ hσ.ne_nil fun x => ?_⟩
      · refine List.Subset.trans ?_ hσ.within
        rw [Node.parts, Node.extent_lower _ _ condition hc.compilable, hc.after_eq]
        exact List.subset_cons_of_subset _ (List.subset_append_right _ _)
      · simp [hσ.declared, Enclosure.names]
  | @initial bs x v bound body id base _ ih =>
    obtain ⟨σ, hσ⟩ := ih
    cases hσ.statement with
    | expression h => cases h.isExpression
    | forLoop _ hv he hb =>
      obtain ⟨hinitial, -⟩ := parts_forLoop_supset x hv he body σ base
      refine ⟨σ.enter [], .assign true x hv, List.Subset.trans hinitial hσ.within,
        List.cons_ne_nil _ _, fun y => ?_⟩
      rw [Scoping.isDeclared_enter, ← hσ.declared]
      simp
  | @loop bs x v bound n before rest id base _ ih =>
    obtain ⟨σ, hσ⟩ := ih
    cases hσ.statement with
    | expression h => cases h.isExpression
    | forLoop _ hv he hb =>
      obtain ⟨-, hbody⟩ := parts_forLoop_supset x hv he (before ++ n :: rest) σ base
      refine ⟨_, .ofBlock (σ := σ.enter [x]) hb (List.Subset.trans hbody hσ.within)
        (List.cons_ne_nil _ _) fun y => ?_⟩
      rw [Scoping.isDeclared_enter, ← hσ.declared]
      rfl
  | @function bs f params n before rest id base k _ hk ih =>
    obtain ⟨σ, hσ⟩ := ih
    obtain ⟨hcode, hparts⟩ := hσ.function
    rw [hcode] at hk
    cases hk
    cases hσ.statement with
    | expression h => cases h.isExpression
    | function _ _ hb =>
      refine ⟨_, .ofBlock (σ := σ.enterFunction params) hb ?_ (List.cons_ne_nil _ _) fun y => ?_⟩
      · rw [hparts]
        exact List.Subset.refl _
      · rw [← hσ.declared]
        exact Scoping.isDeclared_enter params

inductive Stores (x : String) : Node → Prop
  | assign (isLocal : Bool) (v : Node) : Stores x (.assign isLocal (.value (.variable x)) v)
  | function (params : List String) (body : List Node) : Stores x (.function x params body)

/-- The slots of a statement that stores a value under a name: the name comes first, and the
operation that stores the value comes last. -/
structure StoresWith (p : Program) (n : Node) (id base : Nat) (x : String) (op : Opcode) :
    Prop where
  push : p.slot? id base = some (.ofOpcode .pushId)
  name : p.slot? id (base + 1) = some (.name x)
  store : p.slot? id (base + n.slotCount - 1) = some (.ofOpcode op)

theorem KnownAt.storesWith {ns : List Node} {bs : List Block} {n : Node} {id base : Nat}
    {σ : Scoping} (h : KnownAt ns bs n id base σ) {x : String} (hn : Stores x n) :
    ∃ isDeclared : Bool, (isDeclared = true ↔ IsLocal bs n x) ∧
      StoresWith (assemble (streams ns)) n id base x (Node.lowerStore isDeclared).opcode := by
  obtain ⟨is, hs, hrow⟩ := h.stands
  cases hn with
  | assign isLocal v =>
    cases h.statement with
    | expression h => cases h.isExpression
    | assign _ _ hv =>
      rw [Node.lower, hv.after_eq] at hrow
      refine ⟨(σ.declareIf isLocal x).isDeclared x, ?_, ?_, ?_, ?_⟩
      · have hafter := Scoping.isDeclared_after (x := x) h.statement h.ne_nil
        rw [Scoping.after, hv.after_eq, h.declared] at hafter
        exact hafter
      · exact (slot?_of_stands hs hrow.left.left).1
      · exact (slot?_of_stands hs hrow.left.left).2 _ rfl
      · have hstore := (slot?_of_stands hs hrow.right).1
        rw [extent_append, Node.extent_lower _ _ v hv.compilable] at hstore
        exact hstore
  | function params body =>
    rw [Node.lower] at hrow
    refine ⟨σ.isDeclared x, ?_, ?_, ?_, ?_⟩
    · rw [h.declared]
      exact (or_iff_right nofun).symm
    · exact (slot?_of_stands hs hrow).1
    · exact (slot?_of_stands hs hrow).2 _ rfl
    · exact (slot?_of_stands hs hrow.tail.tail).1

theorem StoresWith.opcode_eq {p : Program} {n : Node} {id base : Nat} {x : String}
    {op op' : Opcode} (h : StoresWith p n id base x op) (h' : StoresWith p n id base x op') :
    op = op' := by
  have htag := h.store.symm.trans h'.store
  simp only [Slot.ofOpcode, Option.some.injEq, Slot.op.injEq] at htag
  have hop := congrArg Opcode.ofTag? htag
  simpa [Opcode.ofTag?_tag] using hop

theorem StandsAt.children {ns : List Node} (hns : ∀ n ∈ ns, n.Statement) {bs : List Block}
    {n : Node} {id base : Nat} (h : StandsAt (assemble (streams ns)) ns bs n id base) :
    ∀ m ∈ n.children,
      m.Expression ∨ ∃ bs id base, StandsAt (assemble (streams ns)) ns bs m id base := by
  obtain ⟨σ, hσ⟩ := h.exists_knownAt hns
  cases hσ.statement with
  | expression he => exact fun m hm => .inl (he.children m hm)
  | assign l x hv =>
    refine List.forall_mem_cons.2 ⟨.inl (.postfixed (.value _)), fun m hm => ?_⟩
    cases List.mem_singleton.1 hm
    exact .inl hv
  | assignIndex b hk hv =>
    refine List.forall_mem_cons.2 ⟨.inl (.postfixed (.index b hk)), fun m hm => ?_⟩
    cases List.mem_singleton.1 hm
    exact .inl hv
  | ifThen hc hb =>
    refine List.forall_mem_cons.2 ⟨.inl hc, fun m hm => ?_⟩
    obtain ⟨before, rest, rfl⟩ := List.append_of_mem hm
    exact .inr ⟨_, _, _, .branch h⟩
  | forLoop x hv he hb =>
    refine List.forall_mem_cons.2 ⟨.inr ⟨_, _, _, .initial h⟩, List.forall_mem_cons.2
      ⟨.inl he, fun m hm => ?_⟩⟩
    obtain ⟨before, rest, rfl⟩ := List.append_of_mem hm
    exact .inr ⟨_, _, _, .loop h⟩
  | function f params hb =>
    intro m hm
    obtain ⟨before, rest, rfl⟩ := List.append_of_mem hm
    exact .inr ⟨_, _, _, .function h hσ.function.1⟩
  | ret hv =>
    intro m hm
    cases List.mem_singleton.1 hm
    exact .inl hv

theorem exists_standsAt {ns ms : List Node} (hns : ∀ n ∈ ns, n.Statement) {n : Node} {x : String}
    (hn : Stores x n) (h : n.Occurs ms) (hms : ∀ m ∈ ms,
      m.Expression ∨ ∃ bs id base, StandsAt (assemble (streams ns)) ns bs m id base) :
    ∃ bs id base, StandsAt (assemble (streams ns)) ns bs n id base := by
  induction h with
  | here hmem =>
    refine (hms n hmem).resolve_left fun he => ?_
    cases hn <;> cases he.isExpression
  | under hp _ ih =>
    apply ih
    rcases hms _ hp with he | ⟨bs, id, base, hstands⟩
    · exact fun m hm => .inl (he.children m hm)
    · exact hstands.children hns

/-- For every script that is read, the compiler makes a program in which each statement that
stores a name, wherever in the script it is, does so in the innermost frame if the name is local
to it, and in the global frame otherwise.  And whatever a compiler has done before, compiling
statements adds names to its innermost scope and changes no other; if it fails, scopes may be left
open on top of them. -/
theorem stores_lexically :
    (∀ (s s' : TokenStream) (ns : List Node), s.parse = .ok ns s' →
      ∃ p c, Program.ofNodes ns = .ok p c ∧
        (∀ bs n id base x, StandsAt p ns bs n id base → Stores x n →
          (StoresWith p n id base x .setEnv ↔ IsLocal bs n x) ∧
          (StoresWith p n id base x .setEnvGlobal ↔ ¬ IsLocal bs n x)) ∧
        ∀ n x, Stores x n → n.Occurs ns → ∃ bs id base, StandsAt p ns bs n id base) ∧
    ∀ (c : Compiler) (ns : List Node),
      (∀ l c', c.compileNodes ns = .ok l c' → Compiler.Widened c.scopes c'.scopes) ∧
      ∀ e c', c.compileNodes ns = .error e c' →
        ∃ opened kept, c'.scopes = opened ++ kept ∧ Compiler.Widened c.scopes kept := by
  refine ⟨fun s s' ns hparse => ?_, fun c ns => ⟨?_, ?_⟩⟩
  · have hns := TokenStream.statement_of_parse hparse
    obtain ⟨c, hc⟩ := Program.ofNodes_of_statement hns
    refine ⟨_, c, hc, fun bs n id base x hstands hn => ?_, fun n x hn hoccurs => ?_⟩
    · obtain ⟨σ, hσ⟩ := hstands.exists_knownAt hns
      obtain ⟨isDeclared, hlocal, hstores⟩ := hσ.storesWith hn
      rw [← hlocal]
      cases isDeclared with
      | true => exact ⟨iff_of_true hstores rfl, iff_of_false (nomatch hstores.opcode_eq ·) (· rfl)⟩
      | false =>
        exact ⟨iff_of_false (nomatch hstores.opcode_eq ·) nofun, iff_of_true hstores nofun⟩
    · refine exists_standsAt hns hn hoccurs fun m hm => ?_
      obtain ⟨before, rest, hsplit⟩ := List.append_of_mem hm
      exact .inr ⟨_, _, _, .script hsplit⟩
  · exact fun l c' => Compiler.widened_of_compileNodes
  · exact fun e c' => Compiler.widened_of_failed

def branching : List Node :=
  [.function "f" ["a"]
    [.ifThen (.value (.variable "a")) [.assign true (.value (.variable "b")) (.value (.number 1))],
      .assign false (.value (.variable "b")) (.value (.number 2))],
    .assign false (.value (.variable "b")) (.value (.number 3))]

theorem stores_lexically_branching :
    ∃ s s' p c, TokenStream.parse s = .ok branching s' ∧ Program.ofNodes branching = .ok p c ∧
      StoresWith p (.assign false (.value (.variable "b")) (.value (.number 2))) 1 15 "b" .setEnv ∧
      StoresWith p (.assign false (.value (.variable "b")) (.value (.number 3))) 0 5 "b"
        .setEnvGlobal := by
  have hparse : (TokenStream.mk ([.keyword .functionKw, .ident "f", .symbol .lparen, .ident "a",
      .symbol .rparen, .keyword .ifKw, .ident "a", .keyword .thenKw, .keyword .localKw, .ident "b",
      .symbol .assign, .number 1, .keyword .endKw, .ident "b", .symbol .assign, .number 2,
      .keyword .endKw, .ident "b", .symbol .assign, .number 3].map (⟨·, .start⟩)) .start).parse =
      .ok branching ⟨[], .start⟩ := by
    cbv
  obtain ⟨c', hc'⟩ := Program.ofNodes_of_statement (TokenStream.statement_of_parse hparse)
  obtain ⟨p, c, hc, hstores, -⟩ := stores_lexically.1 _ _ _ hparse
  cases hc.symm.trans hc'
  have hfunction : StandsAt (assemble (streams branching)) branching [⟨.script, []⟩]
      (.function "f" ["a"] ([_] ++ [_])) 0 0 := .script rfl
  have hinner : StandsAt (assemble (streams branching)) branching _ _ 1 _ := .function hfunction rfl
  have houter : StandsAt (assemble (streams branching)) branching [⟨.script, [_]⟩] _ 0 _ :=
    .script rfl
  refine ⟨_, _, _, _, hparse, hc, (hstores _ _ _ _ _ hinner (.assign _ _)).1.2 ?_,
    (hstores _ _ _ _ _ houter (.assign _ _)).2.2 ?_⟩
  · exact .inr ⟨_, List.mem_cons_self, .inr ⟨_, List.mem_cons_self,
      .ifThen List.mem_cons_self (.assign _)⟩⟩
  · rintro (h | ⟨b, hb, h | ⟨n, hn, h⟩⟩)
    · cases h
    · cases List.mem_singleton.1 hb
      cases h
    · cases List.mem_singleton.1 hb
      cases List.mem_singleton.1 hn
      cases h

end Script

end Scriptlet
