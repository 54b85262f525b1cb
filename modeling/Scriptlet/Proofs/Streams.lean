import Scriptlet.Proofs.Acceptance
import Scriptlet.Proofs.CodeSafety
import Scriptlet.Proofs.Declarations

/-! The streams that a compiler hands out, whatever it was given before.  A stream is well formed
if it is made of whole instructions, jumps to their boundaries, and names no functions but those
that are done.  `Grows` says that a compiler has more streams, all of them well formed but for
the gaps that it leaves for functions it could not compile.  It holds of every list of nodes, also
of one that the compiler refuses halfway, and so of any history. -/

namespace Scriptlet

open Code

/-- Whole instructions: an operation that takes an operand has one of its kind behind it, and
any other operation has none. -/
inductive Slot.Whole : List Slot → Prop
  | nil : Whole []
  | bare {op : Opcode} {l : List Slot} : op.operandKind? = none → Whole l →
    Whole (.ofOpcode op :: l)
  | operand {op : Opcode} {kind : OperandKind} {slot : Slot} {l : List Slot} :
    op.operandKind? = some kind → slot.operandKind? = some kind → Whole l →
    Whole (.ofOpcode op :: slot :: l)

namespace Compiler

structure Completed (slots : Array Slot) : Prop where
  first : slots[0]? = some (.ofOpcode .noOp)
  last : slots.back? = some (.ofOpcode .ret)
  noExit : Slot.target slots.size ∉ slots

structure WellFormed (code : Array (Array Slot)) (slots : Array Slot) : Prop where
  whole : Slot.Whole slots.toList
  jumps : ∀ a, .target a ∈ slots → Slot.Reaches slots a ∧ a ≤ slots.size
  functions : ∀ id, .code id ∈ slots → 1 ≤ id ∧ ∃ done, code[id]? = some done ∧ Completed done

theorem Completed.ne_empty {slots : Array Slot} (h : Completed slots) : slots ≠ #[] := by
  rintro rfl
  cases h.first

theorem WellFormed.not_mem_of_empty {code : Array (Array Slot)} {slots : Array Slot}
    (h : WellFormed code slots) {id : Nat} (hid : code[id]? = some #[]) : .code id ∉ slots := by
  intro hmem
  obtain ⟨-, done, hdone, hcompleted⟩ := h.functions id hmem
  rw [hid] at hdone
  cases hdone
  exact hcompleted.ne_empty rfl

theorem WellFormed.mono {code code' : Array (Array Slot)} {slots : Array Slot}
    (h : WellFormed code slots)
    (hcode : ∀ id done, 1 ≤ id → code[id]? = some done → code'[id]? = some done) :
    WellFormed code' slots := by
  refine ⟨h.whole, h.jumps, fun id hid => ?_⟩
  obtain ⟨hpos, done, hdone, hcompleted⟩ := h.functions id hid
  exact ⟨hpos, done, hcode id done hpos hdone, hcompleted⟩

end Compiler

namespace Code

theorem whole_slots (is : List Instruction) : Slot.Whole (slots is) := by
  induction is with
  | nil => exact .nil
  | cons i is ih => cases i <;> first | exact .bare rfl ih | exact .operand rfl rfl ih

theorem mem_slots {slot : Slot} {is : List Instruction} (h : slot ∈ slots is) :
    ∃ i ∈ is, slot = .ofOpcode i.opcode ∨ i.operand? = some slot := by
  obtain ⟨i, hi, h⟩ := List.mem_flatMap.1 h
  refine ⟨i, hi, ?_⟩
  simpa [Instruction.slots] using h

theorem pushFunction_of_mem_slots {id : Nat} {is : List Instruction} (h : .code id ∈ slots is) :
    .pushFunction id ∈ is := by
  obtain ⟨i, hi, h | h⟩ := mem_slots h
  · cases h
  · cases i <;> cases h
    exact hi

theorem target?_of_mem_slots {a : Nat} {is : List Instruction} (h : .target a ∈ slots is) :
    ∃ i ∈ is, i.target? = some a := by
  obtain ⟨i, hi, h | h⟩ := mem_slots h
  · cases h
  · refine ⟨i, hi, ?_⟩
    cases i <;> cases h <;> rfl

end Code

theorem KeepsScopes.exists_cut {is : List Instruction} (h : KeepsScopes 0 is) {a : Nat}
    (ha : .target a ∈ slots is) : ∃ pre post, is = pre ++ post ∧ a = extent pre := by
  obtain ⟨i, hi, htarget⟩ := target?_of_mem_slots ha
  obtain ⟨before, behind, rfl⟩ := List.append_of_mem hi
  have hsplit : before ++ i :: behind = before ++ [i] ++ behind := by simp
  have hscan := (h []).scan
  rw [hsplit] at hscan
  obtain ⟨t, ht, -⟩ := Effect.exists_scan_of_append hscan
  obtain ⟨pre, post, hcut, hpre, -⟩ := (h []).jumps before i behind a t rfl htarget ht
  exact ⟨pre, post, hcut, by simpa using hpre⟩

theorem Node.lowerBlock_concat_ret (σ : Scoping) (base : Nat) (ns : List Node) (v : Node) :
    lowerBlock σ base (ns ++ [.ret v]) =
      lowerBlock σ base ns ++
        lower (σ.afterAll ns) (base + extent (lowerBlock σ base ns)) v ++ [.ret] := by
  induction ns generalizing σ base with
  | nil => simp [lowerBlock, lower, Scoping.afterAll, isExpression]
  | cons n ns ih =>
    simp only [List.cons_append, lowerBlock, ih, Scoping.afterAll, extent_append,
      List.append_assoc, Nat.add_assoc]

namespace Routine

theorem keepsScopes_prologue (params : List String) : KeepsScopes 0 (prologue params) :=
  .plain (by simp [prologue, Instruction.isPlain]) 0

theorem exists_lower_eq (r : Routine) :
    ∃ front, r.lower = .noOp :: front ++ [.ret] ∧ KeepsScopes 0 (.noOp :: front) := by
  obtain ⟨params, body, σ⟩ := r
  have hprologue := keepsScopes_prologue params
  have hblock (ns : List Node) := hprologue.append
    (Node.keepsScopes_lowerBlock σ (extent (prologue params)) ns) (Nat.zero_add _).symm
  have hnil : [Instruction.pushNil].all Instruction.isPlain := rfl
  cases hlast : body.getLast? with
  | none =>
    refine ⟨_, ?_, (hblock body).appendPlain hnil⟩
    simp [lower, epilogue, hlast, prologue]
  | some n =>
    obtain ⟨v, rfl⟩ | hn : (∃ v, n = .ret v) ∨ epilogue body = [.pushNil, .ret] := by
      cases n with
      | ret v => exact .inl ⟨v, rfl⟩
      | _ => exact .inr (by simp [epilogue, hlast])
    · obtain ⟨ns, rfl⟩ := List.getLast?_eq_some_iff.1 hlast
      refine ⟨_, ?_, (hblock ns).append (Node.keepsScopes_lower (σ.afterAll ns) _ v) rfl⟩
      simp [lower, epilogue, hlast, prologue, Node.lowerBlock_concat_ret, Nat.add_assoc]
    · refine ⟨_, ?_, (hblock body).appendPlain hnil⟩
      simp [lower, hn, prologue]

theorem completed (r : Routine) : Compiler.Completed (slots r.lower).toArray := by
  obtain ⟨front, hlower, hkeeps⟩ := r.exists_lower_eq
  have hsize : extent r.lower = extent (.noOp :: front) + 1 := by
    rw [hlower, extent_append]
    rfl
  refine ⟨?_, ?_, ?_⟩
  · rw [hlower]
    rfl
  · have hslots : slots r.lower = slots (.noOp :: front) ++ [.ofOpcode .ret] := by
      rw [hlower, slots_append]
      rfl
    rw [hslots, List.back?_toArray, List.getLast?_concat]
  · intro h
    have h : Slot.target (extent r.lower) ∈ slots (.noOp :: front) := by
      have h : Slot.target (extent r.lower) ∈ slots r.lower := by simpa using h
      rw [hlower, slots_append] at h
      refine (List.mem_append.1 (hlower ▸ h)).resolve_right ?_
      simp [Instruction.slots, Instruction.opcode, Instruction.operand?, Slot.ofOpcode]
    obtain ⟨pre, post, hcut, hpre⟩ := hkeeps.exists_cut h
    have := congrArg extent hcut
    rw [extent_append] at this
    omega

end Routine

theorem Node.Occurs.of_subset {n : Node} {ms ns : List Node} (h : Occurs n ms) (hms : ms ⊆ ns) :
    Occurs n ns := by
  cases h with
  | here h => exact .here (hms h)
  | under hp h => exact .under (hms hp) h

namespace Compiler

def Carries (code : Array (Array Slot)) (first : Nat) (rs : List Routine) : Prop :=
  ∀ j r, rs[j]? = some r → code[first + j]? = some (slots r.lower).toArray

theorem Carries.routine {code : Array (Array Slot)} {σ : Scoping} {ns : List Node}
    (h : Carries code σ.next (Node.routinesAll σ ns)) {r : Routine}
    (hr : r ∈ Node.routinesAll σ ns) :
    Carries code r.scoping.next (Node.routinesAll r.scoping r.body) := by
  let table (id : Nat) : Option Routine :=
    if σ.next ≤ id then (Node.routinesAll σ ns)[id - σ.next]? else none
  have hknows : Knows table σ.next (Node.routinesAll σ ns) := by
    intro j r hj
    simpa [table] using hj
  intro j q hq
  have hq : table (r.scoping.next + j) = some q :=
    Node.knows_routinesAll σ ns hknows r hr j q hq
  simp only [table] at hq
  split at hq
  · next hle =>
    have := h _ q hq
    rwa [Nat.add_sub_cancel' hle] at this
  · cases hq

theorem Carries.wellFormed {code : Array (Array Slot)} {σ : Scoping} {ns : List Node}
    (h : Carries code σ.next (Node.routinesAll σ ns)) (hpos : 1 ≤ σ.next) {is : List Instruction}
    (hnames : Names σ.next (σ.afterAll ns).next is) (hkeeps : KeepsScopes 0 is) :
    WellFormed code (slots is).toArray := by
  refine ⟨whole_slots is, fun a ha => ?_, fun id hid => ?_⟩
  · obtain ⟨pre, post, rfl, rfl⟩ := hkeeps.exists_cut (by simpa using ha)
    refine ⟨?_, by simp⟩
    simpa using reaches_extent [] pre post .start
  · obtain ⟨hle, hlt⟩ := hnames id (pushFunction_of_mem_slots (by simpa using hid))
    rw [Scoping.next_afterAll] at hlt
    have hj : id - σ.next < (Node.routinesAll σ ns).length := by omega
    have hcode := h _ _ (List.getElem?_eq_getElem hj)
    rw [Nat.add_sub_cancel' hle] at hcode
    exact ⟨by omega, _, hcode, Routine.completed _⟩

variable {c c' : Compiler}

/-- The streams of `c` are streams of `c'`.  Those that were added are of functions that are
done, and well formed, or they are empty and in a `gap`. -/
structure Grows (c c' : Compiler) (gap : Nat → Prop) : Prop where
  kept : ∀ (id : Nat) slots, c.code[id]? = some slots → c'.code[id]? = some slots
  added : ∀ (id : Nat) slots, c.code.size ≤ id → c'.code[id]? = some slots →
    (slots = #[] ∧ gap id) ∨ (Completed slots ∧ WellFormed c'.code slots)

namespace Grows

theorem of_code_eq (h : c'.code = c.code) (gap : Nat → Prop) : Grows c c' gap := by
  refine ⟨fun id slots hid => h ▸ hid, fun id slots hle hid => ?_⟩
  rw [h] at hid
  have := (Array.getElem?_eq_some_iff.1 hid).1
  omega

theorem mono {gap gap' : Nat → Prop} (h : Grows c c' gap) (hgap : ∀ id, gap id → gap' id) :
    Grows c c' gap' :=
  ⟨h.kept, fun id slots hle hid => (h.added id slots hle hid).imp_left (And.imp_right (hgap id))⟩

theorem size_pos {gap : Nat → Prop} (h : Grows c c' gap) (hc : 0 < c.code.size) :
    0 < c'.code.size := by
  have := h.kept 0 _ (Array.getElem?_eq_getElem hc)
  exact (Array.getElem?_eq_some_iff.1 this).1

theorem trans {c'' : Compiler} {gap : Nat → Prop} (h : Grows c c' gap) (h' : Grows c' c'' gap) :
    Grows c c'' gap := by
  refine ⟨fun id slots hid => h'.kept id slots (h.kept id slots hid), fun id slots hle hid => ?_⟩
  by_cases hlt : id < c'.code.size
  · have hkept := h'.kept id _ (Array.getElem?_eq_getElem hlt)
    rw [hkept] at hid
    cases hid
    refine (h.added id _ hle (Array.getElem?_eq_getElem hlt)).imp_right fun ⟨hdone, hform⟩ => ?_
    exact ⟨hdone, hform.mono fun id done _ => h'.kept id done⟩
  · exact h'.added id slots (Nat.le_of_not_lt hlt) hid

end Grows

structure Usable (c : Compiler) : Prop where
  scopes : c.scopes ≠ []
  code : 0 < c.code.size

theorem carries_of_append {rs : List Routine}
    (h : c'.code.toList = c.code.toList ++ rs.map fun r => (slots r.lower).toArray) :
    Carries c'.code c.code.size rs := by
  intro j r hj
  rw [← Array.getElem?_toList, h, List.getElem?_append_right (by simp)]
  simp [hj]

theorem grows_of_append (hc : 0 < c.code.size) {ns : List Node}
    (h : c'.code.toList = c.code.toList ++
      (Node.routinesAll c.scoping ns).map fun r => (slots r.lower).toArray) :
    Grows c c' fun _ => False := by
  have hcarries : Carries c'.code c.scoping.next (Node.routinesAll c.scoping ns) :=
    carries_of_append h
  refine ⟨fun id slots hid => ?_, fun id slots hle hid => .inr ?_⟩
  · have hlt := (Array.getElem?_eq_some_iff.1 hid).1
    rw [← Array.getElem?_toList, h, List.getElem?_append_left (by simpa using hlt),
      Array.getElem?_toList, hid]
  · rw [← Array.getElem?_toList, h, List.getElem?_append_right (by simpa using hle)] at hid
    obtain ⟨r, hr, rfl⟩ : ∃ r, (Node.routinesAll c.scoping ns)[id - c.code.size]? = some r ∧
        (Code.slots r.lower).toArray = slots := by
      simpa using hid
    have hr := List.mem_of_getElem? hr
    have hnext : c.code.size ≤ r.scoping.next := (Node.numberedIn_routinesAll c.scoping ns r hr).1
    exact ⟨r.completed, (hcarries.routine hr).wellFormed (Nat.le_trans hc hnext) r.names_lower
      r.keepsScopes_lower⟩

def Adds (x : Emit α) : Prop :=
  ∀ c a c', c.Usable → x c = .ok a c' → c'.Usable ∧ Grows c c' fun _ => False

theorem adds_of_yields {x : Emit α} (ns : List Node) (ho : Opens x)
    (hx : ∀ c a c', c.scopes ≠ [] → x c = .ok a c' →
      ∃ a σ, Yields c x a (Node.routinesAll c.scoping ns) σ) : Adds x := by
  intro c a c' hc h
  obtain ⟨b, σ, c₁, hok, -, hcode⟩ := hx c a c' hc.scopes h
  rw [h] at hok
  cases hok
  have hgrows := grows_of_append hc.code hcode
  exact ⟨⟨(ho c a c' hc.scopes h).ne_nil, hgrows.size_pos hc.code⟩, hgrows⟩

theorem adds_emit (base : Nat) (n : Node) : Adds (emit base n) := by
  refine adds_of_yields [n] (opens_emit base n) fun c a c' hc h => ?_
  rw [Node.routinesAll, Node.routinesAll, List.append_nil]
  exact ⟨_, _, yields_emit n (compilable_of_emit n h) base hc rfl⟩

theorem adds_emitArguments (base : Nat) (ns : List Node) : Adds (emitArguments base ns) :=
  adds_of_yields ns (opens_emitArguments base ns) fun _ _ _ hc h =>
    ⟨_, _, yields_emitArguments ns (compilable_of_emitArguments ns h) base hc rfl⟩

theorem adds_emitBlock (base : Nat) (ns : List Node) : Adds (emitBlock base ns) :=
  adds_of_yields ns (opens_emitBlock base ns) fun _ _ _ hc h =>
    ⟨_, _, yields_emitBlock ns (compilable_of_emitBlock ns h) base hc rfl⟩

theorem adds_openScope (names : List String) : Adds (openScope names) := by
  intro c _ c' hc h
  have hcode : c'.code = c.code := by
    cases h
    rfl
  have hgrows := Grows.of_code_eq hcode fun _ => False
  exact ⟨⟨(opens_openScope names c () c' hc.scopes h).ne_nil, hgrows.size_pos hc.code⟩, hgrows⟩

theorem adds_declareIf (isLocal : Bool) (x : String) : Adds (declareIf isLocal x) :=
  adds_of_yields [] (opens_declareIf isLocal x) fun _ _ _ hc _ =>
    ⟨_, _, yields_declareIf rfl hc isLocal x⟩

/-- The number `id` was reserved for a function in the nodes, whose compilation ended in the error
`e` and left the compiler as `c'`. -/
def Abandons (ns : List Node) (e : CompileError) (c' : Compiler) (id : Nat) : Prop :=
  ∃ f params body base c, Node.Occurs (.function f params body) ns ∧ c.code.size = id ∧
    emit base (.function f params body) c = .error e c'

/-- If the compiler fails at `x`, it adds functions that are done, and leaves gaps for those that
it has abandoned. -/
def Strands (ns : List Node) (x : Emit α) : Prop :=
  ∀ c e c', c.Usable → x c = .error e c' → Grows c c' (Abandons ns e c')

namespace Strands

variable {ns ms : List Node} {x : Emit α}

theorem of_ok (h : ∀ c, ∃ a c', x c = .ok a c') : Strands ns x := by
  intro c e c' _ hx
  obtain ⟨a, c₁, hok⟩ := h c
  rw [hok] at hx
  cases hx

protected theorem pure (a : α) : Strands ns (pure a) := of_ok fun c => ⟨a, c, rfl⟩

protected theorem throw (e : CompileError) : Strands ns (throw e : Emit α) := by
  intro c e' c' _ h
  cases h
  exact .of_code_eq rfl _

theorem bind {f : α → Emit β} (hx : Strands ns x) (ha : Adds x) (hf : ∀ a, Strands ns (f a)) :
    Strands ns (x >>= f) := by
  intro c e c' hc h
  obtain h | ⟨a, c₁, hok, h⟩ := cases_of_bind_eq_error h
  · exact hx c e c' hc h
  · obtain ⟨hc₁, hgrows⟩ := ha c a c₁ hc hok
    exact (hgrows.mono fun _ => False.elim).trans (hf a c₁ e c' hc₁ h)

theorem of_subset (h : Strands ms x) (hms : ms ⊆ ns) : Strands ns x := by
  intro c e c' hc hx
  refine (h c e c' hc hx).mono fun id => ?_
  rintro ⟨f, params, body, base, c₁, hf, hid⟩
  exact ⟨f, params, body, base, c₁, hf.of_subset hms, hid⟩

theorem below {n : Node} (h : Strands ms x) (hms : ms ⊆ n.children) : Strands [n] x := by
  intro c e c' hc hx
  refine (h c e c' hc hx).mono fun id => ?_
  rintro ⟨f, params, body, base, c₁, hf, hid⟩
  exact ⟨f, params, body, base, c₁, .under List.mem_cons_self (hf.of_subset hms), hid⟩

end Strands

theorem strands_declareIf {ns : List Node} (isLocal : Bool) (x : String) :
    Strands ns (declareIf isLocal x) := by
  intro c e c' hc h
  obtain ⟨c₁, hok, -⟩ := declareIf_of_scopes hc.scopes isLocal x
  rw [hok] at h
  cases h

theorem grows_reserve (c : Compiler) :
    Grows c { c with code := c.code.push #[] } (· = c.code.size) := by
  refine ⟨fun id slots hid => ?_, fun id slots hle hid => .inl ?_⟩
  · have hlt := (Array.getElem?_eq_some_iff.1 hid).1
    simp [Array.getElem?_push, Nat.ne_of_lt hlt, hid]
  · have hlt := (Array.getElem?_eq_some_iff.1 hid).1
    have hsize : id = c.code.size := by
      rw [Array.size_push] at hlt
      omega
    subst hsize
    exact ⟨by simpa using hid.symm, rfl⟩

theorem strands_function {base : Nat} {f : String} {params : List String} {body : List Node}
    (hbody : ∀ b, Strands body (emitBlock b body)) :
    Strands [.function f params body] (emit base (.function f params body)) := by
  intro c e c' hc h
  have hself : Abandons [.function f params body] e c' c.code.size :=
    ⟨f, params, body, base, c, .here List.mem_cons_self, rfl, h⟩
  let c₁ : Compiler := { c with code := c.code.push #[] }
  have hreserve : reserve c = .ok c.code.size c₁ := rfl
  have hrest (id : Nat) : Strands [.function f params body] (do
      openScope params
      let b ← emitBlock (prologue params).length body
      closeScope
      finish f id (prologue params ++ b ++ epilogue body)
      return pushId f ++ [.ofOpcode .pushFunction, .code id, .ofOpcode (← storeOp f)]) := by
    refine (Strands.of_ok fun c => ⟨(), _, rfl⟩).bind (adds_openScope params) fun _ =>
      ((hbody _).below (List.Subset.refl _)).bind (adds_emitBlock _ _) fun b => ?_
    exact .of_ok fun c => ⟨_, _, rfl⟩
  rw [emit, bind_of_ok hreserve] at h
  have hc₁ : c₁.Usable := ⟨hc.scopes, by simp [c₁]⟩
  have hgrows := hrest c.code.size c₁ e c' hc₁ h
  refine ((grows_reserve c).mono ?_).trans hgrows
  rintro id rfl
  exact hself

mutual

theorem strands_emit (base : Nat) : (n : Node) → Strands [n] (emit base n)
  | .value l => by
    rw [emit]
    exact .pure _
  | .notEqual lhs rhs => by
    rw [emit]
    exact ((strands_emit base lhs).below (by simp [Node.children])).bind (adds_emit _ _) fun l =>
      ((strands_emit _ rhs).below (by simp [Node.children])).bind (adds_emit _ _) fun r => .pure _
  | .call receiver f args => by
    rw [emit]
    exact ((strands_emitArguments base args).below (List.Subset.refl _)).bind
      (adds_emitArguments _ _) fun as => .pure _
  | .index b key => by
    rw [emit]
    exact ((strands_emit _ key).below (by simp [Node.children])).bind (adds_emit _ _) fun k =>
      .pure _
  | .assign isLocal target v => by
    cases target with
    | value l =>
      cases l with
      | «variable» x =>
        rw [emit]
        refine (strands_declareIf isLocal x).bind (adds_declareIf _ _) fun _ =>
          ((strands_emit _ v).below (by simp [Node.children])).bind (adds_emit _ _) fun l => ?_
        exact .of_ok fun c => ⟨_, c, rfl⟩
      | _ =>
        simp only [emit]
        exact .throw _
    | index b key =>
      cases isLocal with
      | false =>
        rw [emit]
        have hkey (b : String) := (strands_emit (base + (load b).length) key).below
          (n := .index b key) (List.Subset.refl _)
        exact ((hkey b).below (by simp [Node.children])).bind (adds_emit _ _) fun k =>
          ((strands_emit _ v).below (by simp [Node.children])).bind (adds_emit _ _) fun l => .pure _
      | true =>
        simp only [emit]
        exact .throw _
    | _ =>
      simp only [emit]
      exact .throw _
  | .ifThen condition body => by
    rw [emit]
    exact ((strands_emit base condition).below (by simp [Node.children])).bind (adds_emit _ _)
      fun l => ((strands_emitBlock _ body).below (by simp [Node.children])).bind
        (adds_emitBlock _ _) fun b => .pure _
  | .forLoop initial bound body => by
    rw [emit]
    cases loopVariable? initial with
    | none => exact .throw _
    | some x =>
      refine (Strands.of_ok fun c => ⟨(), _, rfl⟩).bind (adds_openScope []) fun _ =>
        ((strands_emit _ initial).below (by simp [Node.children])).bind (adds_emit _ _) fun i =>
        ((strands_emit _ bound).below (by simp [Node.children])).bind (adds_emit _ _) fun e =>
        ((strands_emitBlock _ body).below ?_).bind (adds_emitBlock _ _) fun b => ?_
      · exact fun b hb => List.mem_cons_of_mem _ (List.mem_cons_of_mem _ hb)
      · exact .of_ok fun c => ⟨_, _, rfl⟩
  | .function f params body => strands_function fun b => strands_emitBlock b body
  | .ret v => by
    rw [emit]
    exact ((strands_emit base v).below (by simp [Node.children])).bind (adds_emit _ _) fun l =>
      .pure _

theorem strands_emitArguments (base : Nat) :
    (ns : List Node) → Strands ns (emitArguments base ns)
  | [] => by
    rw [emitArguments]
    exact .pure _
  | n :: ns => by
    rw [emitArguments]
    exact ((strands_emit base n).of_subset (by simp)).bind (adds_emit _ _) fun a =>
      ((strands_emitArguments _ ns).of_subset (List.subset_cons_self n ns)).bind
        (adds_emitArguments _ _) fun as => .pure _

theorem strands_emitBlock (base : Nat) : (ns : List Node) → Strands ns (emitBlock base ns)
  | [] => by
    rw [emitBlock]
    exact .pure _
  | n :: ns => by
    rw [emitBlock]
    exact ((strands_emit base n).of_subset (by simp)).bind (adds_emit _ _) fun a =>
      ((strands_emitBlock _ ns).of_subset (List.subset_cons_self n ns)).bind
        (adds_emitBlock _ _) fun as => .pure _

end

def attempt (ns : List Node) (c : Compiler) : Except CompileError (List Slot) × Compiler :=
  match compileNodes ns c with
  | .ok l c' => (.ok l, c')
  | .error e c' => (.error e, c')

def attemptAll : List (List Node) → Compiler → List (Except CompileError (List Slot)) × Compiler
  | [], c => ([], c)
  | ns :: rest, c =>
    ((attempt ns c).1 :: (attemptAll rest (attempt ns c).2).1, (attemptAll rest (attempt ns c).2).2)

/-- The number was reserved in one of the attempts of a history, for a function that could not be
compiled and so ended the attempt. -/
def Lost (history : List (List Node)) (c : Compiler) (id : Nat) : Prop :=
  ∃ before ns rest e c', history = before ++ ns :: rest ∧
    compileNodes ns (attemptAll before c).2 = .error e c' ∧ Abandons ns e c' id

/-- A use of the compiler: it can be used again, and what it gave out is well formed. -/
structure Serves (c c' : Compiler) (answers : List (Except CompileError (List Slot)))
    (gap : Nat → Prop) : Prop where
  usable : c'.Usable
  grows : Grows c c' gap
  wellFormed : ∀ l, .ok l ∈ answers → WellFormed c'.code l.toArray

theorem serves_attempt (hc : c.Usable) (ns : List Node) :
    Serves c (attempt ns c).2 [(attempt ns c).1]
      fun id => ∃ e c', compileNodes ns c = .error e c' ∧ Abandons ns e c' id := by
  rw [attempt]
  cases h : compileNodes ns c with
  | ok l c' =>
    obtain ⟨hc', hgrows⟩ := adds_emitBlock 0 ns c l c' hc h
    refine ⟨hc', hgrows.mono fun _ => False.elim, fun l' hl' => ?_⟩
    obtain ⟨c₁, hok, -, hcode⟩ :=
      yields_emitBlock ns (compilable_of_emitBlock ns h) 0 hc.scopes rfl
    have h : emitBlock 0 ns c = .ok l c' := h
    rw [h] at hok
    cases hok
    cases List.mem_singleton.1 hl'
    have hcarries : Carries c'.code c.scoping.next (Node.routinesAll c.scoping ns) :=
      carries_of_append hcode
    exact hcarries.wellFormed hc.code (Node.names_lowerBlock _ _ _)
      (Node.keepsScopes_lowerBlock _ _ _)
  | error e c' =>
    have hgrows := strands_emitBlock 0 ns c e c' hc h
    have hcovers := (guards_emitBlock 0 ns c e c' hc.scopes h).2
    refine ⟨⟨hcovers.ne_nil, hgrows.size_pos hc.code⟩, hgrows.mono fun id hid => ?_, by simp⟩
    exact ⟨e, c', rfl, hid⟩

theorem serves_attemptAll (hc : c.Usable) (history : List (List Node)) :
    Serves c (attemptAll history c).2 (attemptAll history c).1 (Lost history c) := by
  induction history generalizing c with
  | nil => exact ⟨hc, .of_code_eq rfl _, by simp [attemptAll]⟩
  | cons ns rest ih =>
    have hfirst := serves_attempt hc ns
    have hrest := ih hfirst.usable
    refine ⟨hrest.usable, (hfirst.grows.mono ?_).trans (hrest.grows.mono ?_), ?_⟩
    · rintro id ⟨e, c', he, hid⟩
      exact ⟨[], ns, rest, e, c', rfl, he, hid⟩
    · rintro id ⟨before, ns', rest', e, c', rfl, he, hid⟩
      exact ⟨ns :: before, ns', rest', e, c', rfl, he, hid⟩
    · intro l hl
      rcases List.mem_cons.1 hl with hl | hl
      · refine (hfirst.wellFormed l (by simp [← hl])).mono fun id done _ => ?_
        exact hrest.grows.kept id done
      · exact hrest.wellFormed l hl

section

variable {gap : Nat → Prop} {main : Array Slot}

theorem getElem?_setMain (code : Array (Array Slot)) (main : Array Slot) {id : Nat} (h : id ≠ 0) :
    (code.setIfInBounds 0 main)[id]? = code[id]? :=
  Array.getElem?_setIfInBounds_ne h.symm

theorem WellFormed.setMain {code : Array (Array Slot)} {slots : Array Slot}
    (h : WellFormed code slots) (main : Array Slot) :
    WellFormed (code.setIfInBounds 0 main) slots :=
  h.mono fun _ _ hpos hdone => (getElem?_setMain code main (Nat.ne_of_gt hpos)).trans hdone

theorem Grows.cases_of_setMain (h : Grows {} c gap) {id : Nat} {slots : Array Slot} (hid : id ≠ 0)
    (hslots : (c.code.setIfInBounds 0 main)[id]? = some slots) :
    (slots = #[] ∧ gap id) ∨
      (Completed slots ∧ WellFormed (c.code.setIfInBounds 0 main) slots) := by
  rw [getElem?_setMain _ _ hid] at hslots
  refine (h.added id slots (Nat.one_le_iff_ne_zero.2 hid) hslots).imp_right ?_
  exact And.imp_right fun hform => hform.setMain main

theorem Grows.wellFormed_of_setMain (h : Grows {} c gap) (hmain : WellFormed c.code main)
    {slots : Array Slot} (hslots : slots ∈ c.code.setIfInBounds 0 main) :
    WellFormed (c.code.setIfInBounds 0 main) slots := by
  obtain ⟨id, hslots⟩ := Array.getElem?_of_mem hslots
  by_cases hid : id = 0
  · subst hid
    rw [Array.getElem?_setIfInBounds_self_of_lt (h.size_pos Nat.one_pos)] at hslots
    cases hslots
    exact hmain.setMain _
  · obtain ⟨rfl, -⟩ | ⟨-, hform⟩ := h.cases_of_setMain hid hslots
    · exact ⟨.nil, by simp, by simp⟩
    · exact hform

end

/-- Whatever a new compiler was made to compile, and whether or not it could: the streams that it
has given out are well formed, and so are those of the program that is made in the end.  A stream
of the program, other than that of the script, is a function's, or it is empty since a function
could not be compiled, and then no stream names it. -/
theorem streams_wellFormed (history : List (List Node)) :
    (∀ l, .ok l ∈ (attemptAll history {}).1 → WellFormed (attemptAll history {}).2.code l.toArray) ∧
    ∀ script p c', compileProgram script (attemptAll history {}).2 = .ok p c' →
      (∀ l, .ok l ∈ (attemptAll history {}).1 → WellFormed p.code l.toArray) ∧
      (∀ slots ∈ p.code, WellFormed p.code slots) ∧
      ∀ id slots, id ≠ 0 → p.code[id]? = some slots → Completed slots ∨
        (slots = #[] ∧ Lost history {} id ∧
          (∀ l, .ok l ∈ (attemptAll history {}).1 → .code id ∉ l) ∧
          ∀ slots' ∈ p.code, .code id ∉ slots') := by
  have hserves := serves_attemptAll (c := {}) ⟨List.cons_ne_nil _ _, Nat.one_pos⟩ history
  refine ⟨hserves.wellFormed, fun script p c' h => ?_⟩
  rw [compileProgram_eq] at h
  have hscript := serves_attempt hserves.usable script
  rw [attempt] at hscript
  cases hx : compileNodes script (attemptAll history {}).2 with
  | error e c₁ =>
    rw [hx] at h
    cases h
  | ok main c₁ =>
    rw [hx] at h hscript
    cases h
    have hgrows : Grows {} c' (Lost history {}) := hserves.grows.trans <| hscript.grows.mono <| by
      rintro id ⟨e, c₁, he, -⟩
      cases he
    have hmain := hscript.wellFormed main List.mem_cons_self
    have hanswers (l : List Slot) (hl : .ok l ∈ (attemptAll history {}).1) :
        WellFormed (c'.code.setIfInBounds 0 main.toArray) l.toArray := by
      refine WellFormed.setMain ((hserves.wellFormed l hl).mono fun id done _ => ?_) _
      exact hscript.grows.kept id done
    refine ⟨hanswers, fun slots => hgrows.wellFormed_of_setMain hmain, ?_⟩
    intro id slots hid hslots
    obtain ⟨rfl, hlost⟩ | ⟨hdone, -⟩ := hgrows.cases_of_setMain hid hslots
    · refine .inr ⟨rfl, hlost, fun l hl => ?_, fun slots' hslots' => ?_⟩
      · simpa using (hanswers l hl).not_mem_of_empty hslots
      · exact (hgrows.wellFormed_of_setMain hmain hslots').not_mem_of_empty hslots
    · exact .inl hdone

def faltering : List (List Node) :=
  [[.function "f" [] [.function "g" [] [], .assign true (.value .table) (.value .table)]],
    [.function "h" ["x"] [.ret (.value (.variable "x"))]]]

theorem streams_wellFormed_faltering :
    ∃ p c', compileProgram [.function "k" [] []] (attemptAll faltering {}).2 = .ok p c' ∧
      p.code.size = 5 ∧ p.code[1]? = some #[] ∧ Lost faltering {} 1 ∧
      (∃ slots, p.code[2]? = some slots ∧ Completed slots) ∧
      ∀ slots ∈ p.code, WellFormed p.code slots := by
  have hprogram : ∃ p c' slots,
      compileProgram [.function "k" [] []] (attemptAll faltering {}).2 = .ok p c' ∧
      p.code.size = 5 ∧ p.code[1]? = some #[] ∧ p.code[2]? = some slots ∧ slots ≠ #[] :=
    ⟨_, _, _, rfl, rfl, rfl, rfl, by decide⟩
  obtain ⟨p, c', slots, hp, hsize, hgap, hslots, hne⟩ := hprogram
  obtain ⟨-, hall, hstreams⟩ := (streams_wellFormed faltering).2 _ p c' hp
  refine ⟨p, c', hp, hsize, hgap, ?_, ⟨slots, hslots, ?_⟩, hall⟩
  · obtain hdone | ⟨-, hlost, -⟩ := hstreams 1 #[] (by decide) hgap
    · exact absurd rfl hdone.ne_empty
    · exact hlost
  · exact (hstreams 2 slots (by decide) hslots).resolve_right fun h => hne h.1

end Compiler

end Scriptlet
