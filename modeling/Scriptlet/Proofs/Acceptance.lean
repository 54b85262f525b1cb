import Scriptlet.Proofs.Grammar
import Scriptlet.Script

/-! What the compiler accepts.  It refuses a list of nodes just if an assignment or a loop
somewhere in it has no place for its value; it never comes to lack a scope, however often it
has failed before; and it accepts all that the parser builds. -/

namespace Scriptlet

namespace Node

def children : Node → List Node
  | .value _ => []
  | .notEqual lhs rhs => [lhs, rhs]
  | .call _ _ args => args
  | .index _ key => [key]
  | .assign _ target v => [target, v]
  | .ifThen condition body => condition :: body
  | .forLoop initial bound body => initial :: bound :: body
  | .function _ _ body => body
  | .ret v => [v]

theorem sizeOf_lt_of_mem_children {n p : Node} (h : p ∈ n.children) : sizeOf p < sizeOf n := by
  cases n with
  | value l => cases h
  | call r f args =>
    have : sizeOf p < sizeOf args := List.sizeOf_lt_of_mem h
    simp only [call.sizeOf_spec]
    omega
  | function f params body =>
    have : sizeOf p < sizeOf body := List.sizeOf_lt_of_mem h
    simp only [function.sizeOf_spec]
    omega
  | ifThen condition body =>
    simp only [ifThen.sizeOf_spec]
    rcases List.mem_cons.1 h with rfl | h
    · omega
    · have := List.sizeOf_lt_of_mem h
      omega
  | forLoop initial bound body =>
    simp only [forLoop.sizeOf_spec]
    rcases List.mem_cons.1 h with rfl | h
    · omega
    · rcases List.mem_cons.1 h with rfl | h
      · omega
      · have := List.sizeOf_lt_of_mem h
        omega
  | notEqual | index | assign | ret =>
    simp only [children, List.mem_cons, List.not_mem_nil, or_false] at h
    rcases h with rfl | rfl <;> simp <;> omega

theorem induction_children {P : Node → Prop} (h : ∀ n, (∀ m ∈ n.children, P m) → P n)
    (n : Node) : P n := by
  apply h
  intro m hm
  have := sizeOf_lt_of_mem_children hm
  exact induction_children h m
termination_by sizeOf n

inductive Occurs (n : Node) : List Node → Prop
  | here {ns : List Node} : n ∈ ns → Occurs n ns
  | under {p : Node} {ns : List Node} : p ∈ ns → Occurs n p.children → Occurs n ns

theorem Occurs.inside {n p : Node} {ns : List Node} (h : Occurs p ns) (hn : Occurs n p.children) :
    Occurs n ns := by
  induction h with
  | here hp => exact .under hp hn
  | under hq _ ih => exact .under hq ih

mutual

def preorder : Node → List Node
  | .value l => [.value l]
  | .notEqual lhs rhs => .notEqual lhs rhs :: (lhs.preorder ++ rhs.preorder)
  | .call r f args => .call r f args :: preorderAll args
  | .index b key => .index b key :: key.preorder
  | .assign l target v => .assign l target v :: (target.preorder ++ v.preorder)
  | .ifThen condition body => .ifThen condition body :: (condition.preorder ++ preorderAll body)
  | .forLoop initial bound body =>
    .forLoop initial bound body :: (initial.preorder ++ bound.preorder ++ preorderAll body)
  | .function f params body => .function f params body :: preorderAll body
  | .ret v => .ret v :: v.preorder

def preorderAll : List Node → List Node
  | [] => []
  | n :: ns => n.preorder ++ preorderAll ns

end

theorem preorder_eq (n : Node) : n.preorder = n :: preorderAll n.children := by
  cases n <;> simp [preorder, preorderAll, children]

theorem mem_preorderAll_of {n : Node} {ns : List Node}
    (h : ∀ m ∈ ns, n ∈ m.preorder ↔ n = m ∨ Occurs n m.children) :
    n ∈ preorderAll ns ↔ Occurs n ns := by
  have hmem (ms : List Node) : n ∈ preorderAll ms ↔ ∃ m ∈ ms, n ∈ m.preorder := by
    induction ms with
    | nil => simp [preorderAll]
    | cons m ms ih => simp [preorderAll, ih]
  rw [hmem]
  constructor
  · rintro ⟨m, hm, hn⟩
    rcases (h m hm).1 hn with rfl | hn
    · exact .here hm
    · exact .under hm hn
  · rintro (hn | ⟨hm, hn⟩)
    · exact ⟨n, hn, (h n hn).2 (.inl rfl)⟩
    · exact ⟨_, hm, (h _ hm).2 (.inr hn)⟩

theorem mem_preorder_iff {n : Node} (m : Node) : n ∈ m.preorder ↔ n = m ∨ Occurs n m.children := by
  induction m using induction_children with
  | h m ih => rw [preorder_eq, List.mem_cons, mem_preorderAll_of ih]

theorem mem_preorderAll_iff {n : Node} {ns : List Node} : n ∈ preorderAll ns ↔ Occurs n ns :=
  mem_preorderAll_of fun m _ => mem_preorder_iff m

/-- Every assignment has a target that it can store into, a variable unless it stores into a
table, and every loop declares its variable. -/
structure WellTargeted (ns : List Node) : Prop where
  targets : ∀ isLocal target v, Occurs (.assign isLocal target v) ns →
    (∃ x, target = .value (.variable x)) ∨ (isLocal = false ∧ ∃ b key, target = .index b key)
  loops : ∀ initial bound body, Occurs (.forLoop initial bound body) ns →
    ∃ x v, initial = .assign true (.value (.variable x)) v

def IsLowerable : Node → Prop
  | .assign isLocal target _ =>
    (∃ x, target = .value (.variable x)) ∨ (isLocal = false ∧ ∃ b key, target = .index b key)
  | .forLoop initial _ _ => ∃ x v, initial = .assign true (.value (.variable x)) v
  | _ => True

theorem wellTargeted_iff {ns : List Node} :
    WellTargeted ns ↔ ∀ n, Occurs n ns → n.IsLowerable := by
  constructor
  · rintro ⟨ht, hl⟩ n hn
    cases n with
    | assign isLocal target v => exact ht isLocal target v hn
    | forLoop initial bound body => exact hl initial bound body hn
    | _ => trivial
  · intro h
    exact ⟨fun isLocal target v => h (.assign isLocal target v),
      fun initial bound body => h (.forLoop initial bound body)⟩

theorem isSome_loopVariable?_iff {n : Node} :
    (Compiler.loopVariable? n).isSome ↔ ∃ x v, n = .assign true (.value (.variable x)) v := by
  constructor
  · intro h
    unfold Compiler.loopVariable? at h
    split at h
    · next x v => exact ⟨x, v, rfl⟩
    · cases h
  · rintro ⟨x, v, rfl⟩
    rfl

theorem compilable_assign_iff {isLocal : Bool} {target v : Node} :
    (assign isLocal target v).Compilable ↔
      (assign isLocal target v).IsLowerable ∧ target.Compilable ∧ v.Compilable := by
  cases target with
  | value l => cases l <;> simp [Compilable, IsLowerable]
  | index b key => cases isLocal <;> simp [Compilable, IsLowerable]
  | _ => simp [Compilable, IsLowerable]

theorem compilable_iff {n : Node} :
    n.Compilable ↔ n.IsLowerable ∧ ∀ p ∈ n.children, p.Compilable := by
  cases n with
  | assign isLocal target v => simp [compilable_assign_iff, children]
  | forLoop initial bound body =>
    simp [Compilable, IsLowerable, children, compilableAll_iff, isSome_loopVariable?_iff]
  | _ => simp [Compilable, IsLowerable, children, compilableAll_iff]

theorem isLowerable_of_occurs {n : Node} {ns : List Node} (h : Occurs n ns)
    (hns : ∀ p ∈ ns, p.Compilable) : n.IsLowerable := by
  induction h with
  | here hn => exact (compilable_iff.1 (hns n hn)).1
  | under hp _ ih => exact ih (compilable_iff.1 (hns _ hp)).2

theorem compilable_of_occurs (n : Node) (h : ∀ p, Occurs p [n] → p.IsLowerable) :
    n.Compilable := by
  refine compilable_iff.2 ⟨h n (.here List.mem_cons_self), fun p hp => ?_⟩
  have := sizeOf_lt_of_mem_children hp
  apply compilable_of_occurs p
  intro q hq
  refine h q (.under List.mem_cons_self ?_)
  cases hq with
  | here hq =>
    rw [List.mem_singleton.1 hq]
    exact .here hp
  | under hr hq =>
    rw [List.mem_singleton.1 hr] at hq
    exact .under hp hq
termination_by sizeOf n

theorem wellTargeted_iff_compilableAll {ns : List Node} : WellTargeted ns ↔ CompilableAll ns := by
  rw [wellTargeted_iff, compilableAll_iff]
  constructor
  · intro h n hn
    apply compilable_of_occurs
    intro p hp
    apply h
    cases hp with
    | here hp => exact .here (List.mem_singleton.1 hp ▸ hn)
    | under hq hp => exact .under (List.mem_singleton.1 hq ▸ hn) hp
  · intro h n hn
    exact isLowerable_of_occurs hn h

end Node

def CompileError.isInternal : CompileError → Bool
  | internal _ => true
  | _ => false

namespace Compiler

variable {c c' : Compiler}

/-- The scopes of `c` are still open in `c'`, the innermost with more names, and more scopes may
be open above them. -/
def Covers (c' c : Compiler) : Prop :=
  ∃ opened added scope outer, c.scopes = scope :: outer ∧
    c'.scopes = opened ++ (added ++ scope) :: outer

namespace Covers

theorem ne_nil (h : c'.Covers c) : c'.scopes ≠ [] := by
  obtain ⟨opened, added, scope, outer, -, h⟩ := h
  rw [h]
  simp

theorem refl (h : c.scopes ≠ []) : c.Covers c := by
  obtain ⟨scope, outer, h⟩ := List.exists_cons_of_ne_nil h
  exact ⟨[], [], scope, outer, h, h⟩

theorem trans {c'' : Compiler} (h' : c''.Covers c') (h : c'.Covers c) : c''.Covers c := by
  obtain ⟨opened, added, scope, outer, hc, hc'⟩ := h
  obtain ⟨opened', added', scope', outer', hs, hc''⟩ := h'
  rw [hc'] at hs
  cases opened with
  | nil =>
    obtain ⟨rfl, rfl⟩ := List.cons.inj hs
    exact ⟨opened', added' ++ added, scope, outer, hc, by simp [hc'']⟩
  | cons s opened =>
    obtain ⟨rfl, rfl⟩ := List.cons.inj hs
    exact ⟨opened' ++ (added' ++ s) :: opened, added, scope, outer, hc, by simp [hc'']⟩

theorem of_extends (h : c'.scoping.Extends c.scoping) : c'.Covers c := by
  obtain ⟨added, scope, outer, hc, hc'⟩ := h
  exact ⟨[], added, scope, outer, hc, hc'⟩

end Covers

/-- If the compiler has an open scope and fails at `x`, then for a node that it refuses, and no
scope is closed. -/
def Guards (x : Emit α) : Prop :=
  ∀ c e c', c.scopes ≠ [] → x c = .error e c' → e.isInternal = false ∧ c'.Covers c

def Opens (x : Emit α) : Prop :=
  ∀ c a c', c.scopes ≠ [] → x c = .ok a c' → c'.Covers c

theorem Guards.bind {x : Emit α} {f : α → Emit β} (hx : Guards x) (ho : Opens x)
    (hf : ∀ a, Guards (f a)) : Guards (x >>= f) := by
  intro c e c' hc h
  simp only [Bind.bind, EStateM.bind] at h
  cases hxc : x c with
  | error e' c₁ =>
    rw [hxc] at h
    cases h
    exact hx c _ _ hc hxc
  | ok a c₁ =>
    rw [hxc] at h
    have hcovers := ho c a c₁ hc hxc
    obtain ⟨he, hc'⟩ := hf a c₁ e c' hcovers.ne_nil h
    exact ⟨he, hc'.trans hcovers⟩

theorem guards_of_ok {x : Emit α} (h : ∀ c, ∃ a c', x c = .ok a c') : Guards x := by
  intro c e c' _ hx
  obtain ⟨a, c₁, hok⟩ := h c
  rw [hok] at hx
  cases hx

theorem guards_pure (a : α) : Guards (pure a) := guards_of_ok fun c => ⟨a, c, rfl⟩

theorem guards_throw {e : CompileError} (h : e.isInternal = false) :
    Guards (throw e : Emit α) := by
  intro c e' c' hc hx
  cases hx
  exact ⟨h, .refl hc⟩

theorem opens_openScope (names : List String) : Opens (openScope names) := by
  intro c _ c' hc h
  cases h
  obtain ⟨scope, outer, hs⟩ := List.exists_cons_of_ne_nil hc
  exact ⟨[names], [], scope, outer, hs, by simp [hs]⟩

theorem opens_reserve : Opens reserve := by
  intro c _ c' hc h
  cases h
  exact .refl (c := c) hc

theorem declareIf_of_scopes (hc : c.scopes ≠ []) (isLocal : Bool) (x : String) :
    ∃ c', declareIf isLocal x c = .ok () c' ∧ c'.Covers c := by
  obtain ⟨c', hx, hσ, -⟩ := yields_declareIf rfl hc isLocal x
  exact ⟨c', hx, .of_extends (hσ ▸ Scoping.extends_declareIf hc isLocal x)⟩

theorem guards_declareIf (isLocal : Bool) (x : String) : Guards (declareIf isLocal x) := by
  intro c e c' hc h
  obtain ⟨c₁, hok, -⟩ := declareIf_of_scopes hc isLocal x
  rw [hok] at h
  cases h

theorem opens_declareIf (isLocal : Bool) (x : String) : Opens (declareIf isLocal x) := by
  intro c _ c' hc h
  obtain ⟨c₁, hok, hcovers⟩ := declareIf_of_scopes hc isLocal x
  rw [hok] at h
  cases h
  exact hcovers

theorem opens_emit (base : Nat) (n : Node) : Opens (emit base n) := by
  intro c l c' hc h
  obtain ⟨c₁, hx, hσ, -⟩ := yields_emit n (compilable_of_emit n h) base hc rfl
  rw [h] at hx
  cases hx
  exact .of_extends (hσ ▸ Scoping.extends_after hc n)

theorem opens_emitArguments (base : Nat) (ns : List Node) : Opens (emitArguments base ns) := by
  intro c l c' hc h
  obtain ⟨c₁, hx, hσ, -⟩ := yields_emitArguments ns (compilable_of_emitArguments ns h) base hc rfl
  rw [h] at hx
  cases hx
  exact .of_extends (hσ ▸ Scoping.extends_afterAll hc ns)

theorem opens_emitBlock (base : Nat) (ns : List Node) : Opens (emitBlock base ns) := by
  intro c l c' hc h
  obtain ⟨c₁, hx, hσ, -⟩ := yields_emitBlock ns (compilable_of_emitBlock ns h) base hc rfl
  rw [h] at hx
  cases hx
  exact .of_extends (hσ ▸ Scoping.extends_afterAll hc ns)

mutual

theorem guards_emit (base : Nat) : (n : Node) → Guards (emit base n)
  | .value l => by
    rw [emit]
    exact guards_pure _
  | .notEqual lhs rhs => by
    rw [emit]
    exact (guards_emit base lhs).bind (opens_emit _ _) fun l =>
      (guards_emit _ rhs).bind (opens_emit _ _) fun r => guards_pure _
  | .call receiver f args => by
    rw [emit]
    exact (guards_emitArguments base args).bind (opens_emitArguments _ _) fun as => guards_pure _
  | .index b key => by
    rw [emit]
    exact (guards_emit _ key).bind (opens_emit _ _) fun k => guards_pure _
  | .assign isLocal target v => by
    cases target with
    | value l =>
      cases l with
      | «variable» x =>
        rw [emit]
        refine (guards_declareIf isLocal x).bind (opens_declareIf _ _) fun _ =>
          (guards_emit _ v).bind (opens_emit _ _) fun l => ?_
        exact guards_of_ok fun c => ⟨_, c, rfl⟩
      | _ =>
        simp only [emit]
        exact guards_throw rfl
    | index b key =>
      cases isLocal with
      | false =>
        rw [emit]
        exact (guards_emit _ key).bind (opens_emit _ _) fun k =>
          (guards_emit _ v).bind (opens_emit _ _) fun l => guards_pure _
      | true =>
        simp only [emit]
        exact guards_throw rfl
    | _ =>
      simp only [emit]
      exact guards_throw rfl
  | .ifThen condition body => by
    rw [emit]
    exact (guards_emit base condition).bind (opens_emit _ _) fun l =>
      (guards_emitBlock _ body).bind (opens_emitBlock _ _) fun b => guards_pure _
  | .forLoop initial bound body => by
    rw [emit]
    cases loopVariable? initial with
    | none => exact guards_throw rfl
    | some x =>
      refine (guards_of_ok fun c => ⟨(), _, rfl⟩).bind (opens_openScope []) fun _ =>
        (guards_emit _ initial).bind (opens_emit _ _) fun i =>
        (guards_emit _ bound).bind (opens_emit _ _) fun e =>
        (guards_emitBlock _ body).bind (opens_emitBlock _ _) fun b => ?_
      exact guards_of_ok fun c => ⟨_, _, rfl⟩
  | .function f params body => by
    rw [emit]
    refine (guards_of_ok fun c => ⟨_, _, rfl⟩).bind opens_reserve fun id =>
      (guards_of_ok fun c => ⟨(), _, rfl⟩).bind (opens_openScope params) fun _ =>
      (guards_emitBlock _ body).bind (opens_emitBlock _ _) fun b => ?_
    exact guards_of_ok fun c => ⟨_, _, rfl⟩
  | .ret v => by
    rw [emit]
    exact (guards_emit base v).bind (opens_emit _ _) fun l => guards_pure _

theorem guards_emitArguments (base : Nat) : (ns : List Node) → Guards (emitArguments base ns)
  | [] => by
    rw [emitArguments]
    exact guards_pure _
  | n :: ns => by
    rw [emitArguments]
    exact (guards_emit base n).bind (opens_emit _ _) fun a =>
      (guards_emitArguments _ ns).bind (opens_emitArguments _ _) fun as => guards_pure _

theorem guards_emitBlock (base : Nat) : (ns : List Node) → Guards (emitBlock base ns)
  | [] => by
    rw [emitBlock]
    exact guards_pure _
  | n :: ns => by
    rw [emitBlock]
    exact (guards_emit base n).bind (opens_emit _ _) fun a =>
      (guards_emitBlock _ ns).bind (opens_emitBlock _ _) fun as => guards_pure _

end

/-- The compilers that come of a new one by compiling lists of nodes, also by those that it has
refused. -/
inductive Reached : Compiler → Prop
  | new : Reached {}
  | compiled {c c' : Compiler} {ns : List Node} {l : List Slot} : Reached c →
    compileNodes ns c = .ok l c' → Reached c'
  | refused {c c' : Compiler} {ns : List Node} {e : CompileError} : Reached c →
    compileNodes ns c = .error e c' → Reached c'

theorem Reached.ne_nil (h : c.Reached) : c.scopes ≠ [] := by
  induction h with
  | new => exact List.cons_ne_nil _ _
  | compiled _ hx ih => exact (opens_emitBlock 0 _ _ _ _ ih hx).ne_nil
  | refused _ hx ih => exact (guards_emitBlock 0 _ _ _ _ ih hx).2.ne_nil

theorem exists_compileNodes_iff (hc : c.scopes ≠ []) {ns : List Node} :
    (∃ l c', compileNodes ns c = .ok l c') ↔ Node.WellTargeted ns := by
  rw [Node.wellTargeted_iff_compilableAll]
  constructor
  · rintro ⟨l, c', h⟩
    exact compilable_of_emitBlock ns h
  · intro h
    obtain ⟨c', hx, -⟩ := yields_emitBlock ns h 0 hc rfl
    exact ⟨_, c', hx⟩

theorem compileProgram_eq (ns : List Node) (c : Compiler) :
    compileProgram ns c = match compileNodes ns c with
      | .ok main c' => .ok ⟨c'.code.setIfInBounds 0 main.toArray⟩ c'
      | .error e c' => .error e c' := by
  simp only [compileProgram, Bind.bind, EStateM.bind]
  cases compileNodes ns c <;> rfl

end Compiler

namespace Script

theorem wellTargeted_of_parse {s s' : TokenStream} {ns : List Node} (h : s.parse = .ok ns s') :
    Node.WellTargeted ns := by
  rw [Node.wellTargeted_iff_compilableAll, Node.compilableAll_iff]
  intro n hn
  exact (TokenStream.statement_of_parse h n hn).compilable

theorem cases_of_parse (source : String) (journal : Array Event) :
    (∃ ts ns s' journal', (TokenStream.ofTokens ts).parse = .ok ns s' ∧
      parse source journal = .ok ns journal') ∨
    (∃ e journal', parse source journal = .error (.lexical e) journal') ∨
    ∃ e journal', parse source journal = .error (.grammar e) journal' := by
  rw [parse, tokens]
  cases (Cursor.ofString source).tokens with
  | error e _ => exact .inr (.inl ⟨e, journal, rfl⟩)
  | ok ts _ =>
    have hreport : report (.lexed ts.length) journal =
        .ok () (journal.push (.lexed ts.length)) := rfl
    dsimp only
    rw [bind_of_ok hreport]
    cases hp : (TokenStream.ofTokens ts).parse with
    | error e _ => exact .inr (.inr ⟨e, _, rfl⟩)
    | ok ns s' => exact .inl ⟨ts, ns, s', _, hp, rfl⟩

theorem compile_ne_compilation (source : String) (journal journal' : Array Event)
    (e : CompileError) : compile source journal ≠ .error (.compilation e) journal' := by
  rw [compile]
  obtain ⟨ts, ns, s', j, hs, hp⟩ | ⟨e', j, hp⟩ | ⟨e', j, hp⟩ := cases_of_parse source journal
  · obtain ⟨c, hc⟩ := Program.ofNodes_of_statement (TokenStream.statement_of_parse hs)
    rw [bind_of_ok hp, compileNodes, hc]
    nofun
  · simp [Bind.bind, EStateM.bind, hp]
  · simp [Bind.bind, EStateM.bind, hp]

end Script

/-- The stages fit together, for every compiler that is in use and every list of nodes: a
program is made of the nodes if and only if they are well targeted, the compiler never blames
itself, and what the parser builds is well targeted, so that no text is refused by the compiler. -/
theorem stages_fit {c : Compiler} (h : c.Reached) (ns : List Node) :
    ((∃ p c', Compiler.compileProgram ns c = .ok p c') ↔ Node.WellTargeted ns) ∧
    (∀ message c', Compiler.compileNodes ns c ≠ .error (.internal message) c' ∧
      Compiler.compileProgram ns c ≠ .error (.internal message) c') ∧
    (∀ s s', TokenStream.parse s = .ok ns s' → Node.WellTargeted ns) ∧
    ∀ source journal e journal',
      Script.compile source journal ≠ .error (.compilation e) journal' := by
  have hnodes (message : String) (c' : Compiler) :
      Compiler.compileNodes ns c ≠ .error (.internal message) c' := by
    intro he
    cases (Compiler.guards_emitBlock 0 ns c _ c' h.ne_nil he).1
  refine ⟨?_, fun message c' => ⟨hnodes message c', ?_⟩,
    fun _ _ => Script.wellTargeted_of_parse, ?_⟩
  · rw [← Compiler.exists_compileNodes_iff h.ne_nil, Compiler.compileProgram_eq]
    cases Compiler.compileNodes ns c with
    | ok main c' => simp
    | error e c' => simp
  · rw [Compiler.compileProgram_eq]
    cases hx : Compiler.compileNodes ns c with
    | ok main c₁ => nofun
    | error e c₁ =>
      intro he
      cases he
      exact hnodes message c' hx
  · exact fun source journal e journal' => Script.compile_ne_compilation source journal journal' e

theorem stages_fit_afterFailure :
    ∃ c p c', Compiler.compileNodes
        [.function "f" ["x"] [.forLoop (.assign true (.value (.variable "i")) (.value (.number 1)))
          (.value (.number 3)) [.assign true (.index "t" (.value (.number 1))) (.value .table)]]]
        {} = .error (.invalidTarget .index) c ∧
      c.scopes = [["i"], ["x"], []] ∧ c.Reached ∧
      Compiler.compileProgram
        [.forLoop (.assign true (.value (.variable "i")) (.value (.number 1))) (.value (.number 3))
          [.assign false (.index "t" (.value (.variable "i"))) (.value .table)]] c = .ok p c' := by
  have hfail : ∃ c, Compiler.compileNodes
        [.function "f" ["x"] [.forLoop (.assign true (.value (.variable "i")) (.value (.number 1)))
          (.value (.number 3)) [.assign true (.index "t" (.value (.number 1))) (.value .table)]]]
        {} = .error (.invalidTarget .index) c ∧ c.scopes = [["i"], ["x"], []] := ⟨_, rfl, rfl⟩
  obtain ⟨c, hc, hs⟩ := hfail
  have hns : Node.WellTargeted
      [.forLoop (.assign true (.value (.variable "i")) (.value (.number 1))) (.value (.number 3))
        [.assign false (.index "t" (.value (.variable "i"))) (.value .table)]] := by
    rw [Node.wellTargeted_iff_compilableAll]
    simp [Node.CompilableAll, Node.Compilable, Compiler.loopVariable?]
  have hreached : c.Reached := .refused .new hc
  obtain ⟨p, c', hp⟩ := (stages_fit hreached _).1.2 hns
  exact ⟨c, p, c', hc, hs, hreached, hp⟩

end Scriptlet
