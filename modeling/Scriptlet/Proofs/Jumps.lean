import Scriptlet.Proofs.FunctionTable
import Scriptlet.Proofs.LexicalScope

/-! The jumps of a script's code.  A jump that takes a condition leads ahead, over the body of a
branch or out of a loop.  The other jumps are the ways back of loops, and there is one for every
loop: where it stands and where it leads is told by the sizes of the loop's parts. -/

namespace Scriptlet

open Code Node

/-- A loop of a script, and the address from which its slots stand. -/
structure Loop where
  base : Nat
  initial : Node
  bound : Node
  body : List Node

namespace Loop

def node (l : Loop) : Node := .forLoop l.initial l.bound l.body

def head (l : Loop) : Nat := l.base + 1 + l.initial.slotCount

/-- Where the jump stands that goes back to the test.  The bound stands between the variable and
the way out, and behind the body the variable is advanced. -/
def back (l : Loop) : Nat := l.head + 3 + l.bound.slotCount + 3 + slotCountOfBlock l.body + 8

theorem head_lt_back (l : Loop) : l.head < l.back := by
  rw [back]
  omega

end Loop

namespace Node

mutual

/-- The loops of a node whose slots stand from `base` on, in the order of their ends, but for
those in its functions, which have streams of their own. -/
def loops (base : Nat) : Node → List Loop
  | .value _ | .function _ _ _ => []
  | .notEqual lhs rhs => lhs.loops base ++ rhs.loops (base + lhs.slotCount)
  | .call _ _ args => loopsOfArguments base args
  | .index _ key => key.loops (base + 3)
  | .assign _ (.value (.variable _)) v => v.loops (base + 2)
  | .assign _ (.index _ key) v => key.loops (base + 3) ++ v.loops (base + 3 + key.slotCount)
  | .assign _ _ _ => []
  | .ifThen condition body =>
    condition.loops base ++ loopsOfBlock (base + condition.slotCount + 2) body
  | .forLoop initial bound body =>
    let head := base + 1 + initial.slotCount
    initial.loops (base + 1) ++ bound.loops (head + 3) ++
      loopsOfBlock (head + 3 + bound.slotCount + 3) body ++ [⟨base, initial, bound, body⟩]
  | .ret v => v.loops base

def loopsOfArguments (base : Nat) : List Node → List Loop
  | [] => []
  | n :: ns => n.loops base ++ loopsOfArguments (base + n.slotCount) ns

def loopsOfBlock (base : Nat) : List Node → List Loop
  | [] => []
  | n :: ns => n.loops base ++
    loopsOfBlock (base + n.slotCount + if n.isExpression then 1 else 0) ns

end

end Node

namespace Code

def located (base : Nat) : List Instruction → List (Nat × Instruction)
  | [] => []
  | i :: is => (base, i) :: located (base + i.width) is

theorem located_append (base : Nat) (is js : List Instruction) :
    located base (is ++ js) = located base is ++ located (base + extent is) js := by
  induction is generalizing base with
  | nil => rfl
  | cons i is ih =>
    rw [List.cons_append, located, located, ih, extent_cons, Nat.add_assoc, List.cons_append]

theorem mem_located_iff {is : List Instruction} {base a : Nat} {i : Instruction} :
    (a, i) ∈ located base is ↔ ∃ pre post, is = pre ++ i :: post ∧ a = base + extent pre := by
  induction is generalizing base with
  | nil => simp [located]
  | cons j is ih =>
    rw [located, List.mem_cons, ih]
    constructor
    · rintro (h | ⟨pre, post, rfl, rfl⟩)
      · obtain ⟨rfl, rfl⟩ := Prod.mk.inj h
        exact ⟨[], is, rfl, rfl⟩
      · exact ⟨j :: pre, post, rfl, by rw [extent_cons, Nat.add_assoc]⟩
    · rintro ⟨_ | ⟨k, pre⟩, post, his, rfl⟩
      · obtain ⟨rfl, rfl⟩ := List.cons.inj his
        exact .inl rfl
      · obtain ⟨rfl, rfl⟩ := List.cons.inj his
        exact .inr ⟨pre, post, rfl, by rw [extent_cons, Nat.add_assoc]⟩

def jump? : Nat × Instruction → Option (Nat × Nat)
  | (a, .jump t) => some (a, t)
  | _ => none

theorem jump?_eq_some {q : Nat × Instruction} {a t : Nat} :
    jump? q = some (a, t) ↔ q = (a, .jump t) := by
  unfold jump?
  split <;> simp_all

/-- In the row, which stands from `base` on, the jumps without a condition are the ways back of
the loops `ls`, whose turns it has, and the others lead ahead. -/
structure GoesBack (base : Nat) (is : List Instruction) (ls : List Loop) : Prop where
  back : (located base is).filterMap jump? = ls.map fun l => (l.back, l.head)
  ahead : ∀ a t, (a, .jumpIfFalse t) ∈ located base is → a < t
  turns : ∀ l ∈ ls, ∃ x σ pre post,
    is = pre ++ lowerTurns x σ (l.base + 1) l.initial l.bound l.body ++ post ∧
      l.base + 1 = base + extent pre

namespace GoesBack

variable {base start : Nat} {is js : List Instruction} {ls ks : List Loop} {l : Loop}

theorem straight (h : ∀ i ∈ is, i.target? = none) (base : Nat) : GoesBack base is [] := by
  constructor
  · rw [List.map_nil, List.filterMap_eq_nil_iff]
    rintro ⟨a, i⟩ hmem
    obtain ⟨pre, post, rfl, -⟩ := mem_located_iff.1 hmem
    have := h i (by simp)
    cases i <;> first | rfl | cases this
  · intro a t hmem
    obtain ⟨pre, post, rfl, -⟩ := mem_located_iff.1 hmem
    have := h (.jumpIfFalse t) (by simp)
    cases this
  · exact fun l hl => absurd hl List.not_mem_nil

theorem plain (h : is.all Instruction.isPlain) (base : Nat) : GoesBack base is [] :=
  .straight (fun i hi => Instruction.target?_of_isPlain (List.all_eq_true.1 h i hi)) base

theorem append (h : GoesBack base is ls) (h' : GoesBack start js ks)
    (hs : start = base + extent is) : GoesBack base (is ++ js) (ls ++ ks) := by
  subst hs
  constructor
  · rw [located_append, List.filterMap_append, h.back, h'.back, List.map_append]
  · intro a t hmem
    rw [located_append] at hmem
    rcases List.mem_append.1 hmem with hmem | hmem
    · exact h.ahead a t hmem
    · exact h'.ahead a t hmem
  · intro l hl
    rcases List.mem_append.1 hl with hl | hl
    · obtain ⟨x, σ, pre, post, rfl, hbase⟩ := h.turns l hl
      exact ⟨x, σ, pre, post ++ js, by simp, hbase⟩
    · obtain ⟨x, σ, pre, post, rfl, hbase⟩ := h'.turns l hl
      exact ⟨x, σ, is ++ pre, post, by simp, by rw [hbase, extent_append, Nat.add_assoc]⟩

theorem behind (h : GoesBack base is ls) (hp : js.all Instruction.isPlain) :
    GoesBack base (is ++ js) ls := by
  rw [← List.append_nil ls]
  exact h.append (.plain hp _) rfl

theorem before (hp : is.all Instruction.isPlain) (h : GoesBack start js ls)
    (hs : start = base + extent is) : GoesBack base (is ++ js) ls := by
  rw [← List.nil_append ls]
  exact (plain hp base).append h hs

theorem skip {a t : Nat} (h : a < t) : GoesBack a [.jumpIfFalse t] [] := by
  constructor
  · rfl
  · intro b u hmem
    cases List.mem_singleton.1 hmem
    exact h
  · exact fun l hl => absurd hl List.not_mem_nil

theorem close {x : String} {σ : Scoping} (h : GoesBack (l.base + 1) is ls)
    (hturns : is ++ [.jump l.head] = lowerTurns x σ (l.base + 1) l.initial l.bound l.body)
    (hback : l.back = l.base + 1 + extent is) :
    GoesBack (l.base + 1) (lowerTurns x σ (l.base + 1) l.initial l.bound l.body) (ls ++ [l]) := by
  rw [← hturns]
  constructor
  · rw [located_append, List.filterMap_append, h.back, List.map_append, ← hback]
    rfl
  · intro a t hmem
    rw [located_append] at hmem
    rcases List.mem_append.1 hmem with hmem | hmem
    · exact h.ahead a t hmem
    · cases List.mem_singleton.1 hmem
  · intro k hk
    rcases List.mem_append.1 hk with hk | hk
    · obtain ⟨y, τ, pre, post, rfl, hbase⟩ := h.turns k hk
      exact ⟨y, τ, pre, post ++ [.jump l.head], by simp, hbase⟩
    · cases List.mem_singleton.1 hk
      exact ⟨x, σ, [], [], by simp [hturns], rfl⟩

theorem scope (h : GoesBack (base + 1) is ls) :
    GoesBack base ([.enterScope] ++ is ++ [.leaveScope]) ls := by
  have hopen : GoesBack base [.enterScope] [] := .straight (by simp [Instruction.target?]) base
  have hclose (a : Nat) : GoesBack a [.leaveScope] [] :=
    .straight (by simp [Instruction.target?]) a
  simpa using (hopen.append h rfl).append (hclose _) rfl

end GoesBack

end Code

namespace Node

theorem goesBack_lowerTurns {x : String} {σ : Scoping} {l : Loop} {ls ks ms : List Loop}
    (hl : l.node.Compilable)
    (hi : GoesBack (l.base + 1) (lower σ (l.base + 1) l.initial) ls)
    (he : GoesBack (l.head + 3) (lower (σ.after l.initial) (l.head + 3) l.bound) ks)
    (hb : GoesBack (l.head + 3 + l.bound.slotCount + 3)
      (lowerBlock ((σ.after l.initial).after l.bound)
        (l.head + 3 + l.bound.slotCount + 3) l.body) ms) :
    GoesBack (l.base + 1) (lowerTurns x σ (l.base + 1) l.initial l.bound l.body)
      (ls ++ ks ++ ms ++ [l]) := by
  obtain ⟨-, hinitial, hbound, hbody⟩ := hl
  have hhead : l.base + 1 + l.initial.slotCount = l.head := rfl
  have hadvance : extent (lowerAdvance x) = 8 := rfl
  have htest : GoesBack l.head
      (load x ++ lower (σ.after l.initial) (l.head + 3) l.bound ++ [.notEqual]) ks :=
    (GoesBack.before rfl he rfl).behind rfl
  have hskip : GoesBack (l.head + 3 + l.bound.slotCount + 1) [.jumpIfFalse (l.back + 2)] [] := by
    apply GoesBack.skip
    rw [Loop.back]
    omega
  have hturn : GoesBack (l.head + 3 + l.bound.slotCount + 3)
      (lowerBlock ((σ.after l.initial).after l.bound)
        (l.head + 3 + l.bound.slotCount + 3) l.body ++ lowerAdvance x) ms := hb.behind rfl
  have hload : extent (load x) = 3 := rfl
  have hnotEqual : extent [.notEqual] = 1 := rfl
  have hjump (t : Nat) : extent [.jumpIfFalse t] = 2 := rfl
  -- what remains is that each piece stands where the one before it ends
  rw [← List.append_nil (ls ++ ks)]
  refine GoesBack.close (((hi.append htest ?_).append hskip ?_).append hturn ?_) ?_ ?_
  case refine_1 => rw [extent_lower _ _ _ hinitial, hhead]
  case refine_4 =>
    simp only [lowerTurns, extent_lower _ _ _ hinitial, hhead, extent_lower _ _ _ hbound,
      extent_lowerBlock _ _ _ hbody, hadvance, Loop.back]
  all_goals
    simp only [extent_append, extent_lower _ _ _ hinitial, extent_lower _ _ _ hbound,
      extent_lowerBlock _ _ _ hbody, hload, hnotEqual, hjump, hadvance, Loop.back, Loop.head]
    omega

mutual

theorem goesBack_lower (σ : Scoping) (base : Nat) :
    (n : Node) → n.Compilable → GoesBack base (lower σ base n) (n.loops base)
  | .value l, _ => .plain (isPlain_lowerLiteral l) base
  | .notEqual lhs rhs, h => by
    have hlhs := extent_lower σ base lhs h.1
    simp only [lower, loops, hlhs]
    refine ((goesBack_lower σ base lhs h.1).append (goesBack_lower _ _ rhs h.2) ?_).behind rfl
    rw [hlhs]
  | .call receiver f args, h => by
    rw [lower, loops]
    exact ((goesBack_lowerArguments σ base args h).behind (isPlain_lowerCallee receiver f)).behind
      rfl
  | .index b key, h => by
    rw [lower, loops]
    exact (GoesBack.before rfl (goesBack_lower σ (base + 3) key h) rfl).behind rfl
  | .assign isLocal target v, h => by
    cases target with
    | value l =>
      cases l with
      | «variable» x =>
        rw [lower, loops]
        exact (GoesBack.before rfl (goesBack_lower _ (base + 2) v h) rfl).behind
          (isPlain_lowerStore _)
      | _ => simp [Compilable] at h
    | index b key =>
      cases isLocal with
      | false =>
        have hkey := extent_lower σ (base + 3) key h.1
        simp only [lower, loops, hkey]
        refine ((GoesBack.before rfl (goesBack_lower σ (base + 3) key h.1) rfl).append
          (goesBack_lower _ _ v h.2) ?_).behind rfl
        rw [extent_append, hkey, ← Nat.add_assoc]
        rfl
      | true => simp [Compilable] at h
    | _ => simp [Compilable] at h
  | .ifThen condition body, h => by
    have hcondition := extent_lower σ base condition h.1
    simp only [lower, loops, hcondition]
    refine GoesBack.append ?_ (goesBack_lowerBlock _ _ body h.2) ?_
    · rw [← List.append_nil (condition.loops base)]
      refine (goesBack_lower σ base condition h.1).append
        (.skip (a := base + condition.slotCount) ?_) ?_
      · omega
      · rw [hcondition]
    · rw [extent_append, hcondition, ← Nat.add_assoc]
      rfl
  | .forLoop initial bound body, h => by
    obtain ⟨x, hx⟩ := Option.isSome_iff_exists.1 h.1
    rw [lower_forLoop hx, loops]
    exact .scope (goesBack_lowerTurns (l := ⟨base, initial, bound, body⟩) h
      (goesBack_lower _ _ initial h.2.1) (goesBack_lower _ _ bound h.2.2.1)
      (goesBack_lowerBlock _ _ body h.2.2.2))
  | .function f _ _, _ => by
    rw [lower, loops]
    refine .plain ?_ base
    simpa [Instruction.isPlain] using isPlain_lowerStore (σ.isDeclared f)
  | .ret v, h => by
    rw [lower, loops]
    exact (goesBack_lower σ base v h).behind rfl

theorem goesBack_lowerArguments (σ : Scoping) (base : Nat) : (ns : List Node) →
    CompilableAll ns → GoesBack base (lowerArguments σ base ns) (loopsOfArguments base ns)
  | [], _ => .plain rfl base
  | n :: ns, h => by
    have hn := extent_lower σ base n h.1
    simp only [lowerArguments, loopsOfArguments, hn]
    refine (goesBack_lower σ base n h.1).append (goesBack_lowerArguments _ _ ns h.2) ?_
    rw [hn]

theorem goesBack_lowerBlock (σ : Scoping) (base : Nat) : (ns : List Node) →
    CompilableAll ns → GoesBack base (lowerBlock σ base ns) (loopsOfBlock base ns)
  | [], _ => .plain rfl base
  | n :: ns, h => by
    have hn := extent_lower σ base n h.1
    have hpop : (if n.isExpression then [Instruction.pop] else []).all Instruction.isPlain := by
      split <;> rfl
    simp only [lowerBlock, loopsOfBlock, extent_append, hn, extent_pop, ← Nat.add_assoc]
    refine ((goesBack_lower σ base n h.1).behind hpop).append (goesBack_lowerBlock _ _ ns h.2) ?_
    rw [extent_append, hn, extent_pop, Nat.add_assoc]

end

end Node

structure Slot.JumpsAt (slots : Array Slot) (op : Opcode) (a t : Nat) : Prop where
  reaches : Slot.Reaches slots a
  opcode : slots[a]? = some (.ofOpcode op)
  target : slots[a + 1]? = some (.target t)

namespace Code

theorem exists_cut_of_reaches {is : List Instruction} {a : Nat}
    (h : Slot.Reaches (slots is).toArray a) : ∃ pre post, is = pre ++ post ∧ a = extent pre := by
  induction h with
  | start => exact ⟨[], is, rfl, rfl⟩
  | next _ hslot hop ih =>
    obtain ⟨pre, post, rfl, rfl⟩ := ih
    cases post with
    | nil => simp at hslot
    | cons i post =>
      have hi : Stands (pre ++ i :: post) (extent pre) [i] := ⟨pre, post, by simp, rfl⟩
      rw [List.getElem?_toArray, hi.slots_opcode] at hslot
      cases hslot
      cases hop.symm.trans (Opcode.ofTag?_tag i.opcode)
      exact ⟨pre ++ [i], post, by simp, by simp [Instruction.width]⟩

theorem stands_of_mem_located {is : List Instruction} {a : Nat} {i : Instruction}
    (h : (a, i) ∈ located 0 is) : Stands is a [i] := by
  obtain ⟨pre, post, rfl, rfl⟩ := mem_located_iff.1 h
  exact ⟨pre, post, by simp, Nat.zero_add _⟩

theorem reaches_of_mem_located {is : List Instruction} {a : Nat} {i : Instruction}
    (h : (a, i) ∈ located 0 is) : Slot.Reaches (slots is).toArray a := by
  obtain ⟨pre, post, rfl, rfl⟩ := mem_located_iff.1 h
  rw [Nat.zero_add]
  exact reaches_extent [] pre (i :: post) .start

theorem jumpsAt_iff {is : List Instruction} {a t : Nat} {i : Instruction}
    (hi : i.target? = some t) :
    Slot.JumpsAt (slots is).toArray i.opcode a t ↔ (a, i) ∈ located 0 is := by
  have hoperand : i.operand? = some (.target t) := by cases i <;> cases hi <;> rfl
  constructor
  · rintro ⟨hreaches, hop, htarget⟩
    obtain ⟨pre, post, rfl, rfl⟩ := exists_cut_of_reaches hreaches
    cases post with
    | nil => simp at hop
    | cons j post =>
      have hj : Stands (pre ++ j :: post) (extent pre) [j] := ⟨pre, post, by simp, rfl⟩
      rw [List.getElem?_toArray, hj.slots_opcode] at hop
      have hopcode : j.opcode = i.opcode :=
        Opcode.tag_injective (Slot.op.inj (Option.some.inj hop))
      have hji : j = i := by
        cases i <;> cases hi <;> cases j <;> cases hopcode <;>
          · rw [List.getElem?_toArray, hj.slots_operand rfl] at htarget
            cases htarget
            rfl
      exact mem_located_iff.2 ⟨pre, post, by rw [hji], (Nat.zero_add _).symm⟩
  · intro h
    have hstands := stands_of_mem_located h
    refine ⟨reaches_of_mem_located h, ?_, ?_⟩
    · simpa using hstands.slots_opcode
    · simpa using hstands.slots_operand hoperand

theorem pairwise_located (base : Nat) (is : List Instruction) :
    (located base is).Pairwise fun q r => q.1 < r.1 := by
  induction is generalizing base with
  | nil => exact .nil
  | cons i is ih =>
    apply List.Pairwise.cons
    · rintro ⟨a, j⟩ hj
      obtain ⟨pre, post, -, rfl⟩ := mem_located_iff.1 hj
      have := i.width_pos
      show base < base + i.width + extent pre
      omega
    · exact ih _

theorem GoesBack.nodup {base : Nat} {is : List Instruction} {ls : List Loop}
    (h : GoesBack base is ls) : (ls.map Loop.back).Nodup := by
  have hback : ls.map Loop.back = ((located base is).filterMap jump?).map Prod.fst := by
    rw [h.back, List.map_map]
    rfl
  have hpairwise : (((located base is).filterMap jump?).map Prod.fst).Pairwise (· < ·) := by
    apply List.Pairwise.map
    · exact fun _ _ h => h
    · apply (pairwise_located base is).filterMap
      rintro q r hlt ⟨a, t⟩ hq ⟨b, u⟩ hr
      rw [jump?_eq_some] at hq hr
      subst hq hr
      exact hlt
  rw [hback]
  exact hpairwise.imp Nat.ne_of_lt

end Code

/-- In the stream, a jump that takes a condition leads ahead, and the other jumps lead back and are
those at the end of the turns of loops, one for each loop. -/
structure Slot.LoopsBack (slots : Array Slot) (ls : List Loop) : Prop where
  ahead : ∀ a t, JumpsAt slots .jumpIfFalse a t → a < t
  back : ∀ a t, JumpsAt slots .jump a t → t < a
  loops : ∀ a t, JumpsAt slots .jump a t ↔ ∃ l ∈ ls, a = l.back ∧ t = l.head
  single : (ls.map Loop.back).Nodup
  turns : ∀ l ∈ ls, ∃ x σ pre post, slots.toList =
    pre ++ Code.slots (lowerTurns x σ (l.base + 1) l.initial l.bound l.body) ++ post ∧
      pre.length = l.base + 1

theorem Code.GoesBack.loopsBack {is : List Instruction} {ls : List Loop} (h : GoesBack 0 is ls) :
    Slot.LoopsBack (slots is).toArray ls := by
  have hloops (a t : Nat) : Slot.JumpsAt (slots is).toArray .jump a t ↔
      ∃ l ∈ ls, a = l.back ∧ t = l.head := by
    calc Slot.JumpsAt (slots is).toArray .jump a t
      _ ↔ (a, .jump t) ∈ located 0 is := jumpsAt_iff (i := .jump t) rfl
      _ ↔ (a, t) ∈ (located 0 is).filterMap jump? := by
        simp [List.mem_filterMap, jump?_eq_some]
      _ ↔ ∃ l ∈ ls, a = l.back ∧ t = l.head := by
        rw [h.back]
        simp [eq_comm]
  refine ⟨fun a t hjump => ?_, fun a t hjump => ?_, hloops, h.nodup, fun l hl => ?_⟩
  · exact h.ahead a t ((jumpsAt_iff (i := .jumpIfFalse t) rfl).1 hjump)
  · obtain ⟨l, -, rfl, rfl⟩ := (hloops a t).1 hjump
    exact l.head_lt_back
  · obtain ⟨x, σ, pre, post, rfl, hbase⟩ := h.turns l hl
    exact ⟨x, σ, slots pre, slots post, by simp, by rw [length_slots, hbase, Nat.zero_add]⟩

theorem Code.exists_of_code_assemble {streams : List (List Instruction)} {id : Nat}
    {slots : Array Slot} (h : (assemble streams).code[id]? = some slots) :
    ∃ is, streams[id]? = some is ∧ slots = (Code.slots is).toArray := by
  obtain ⟨is, his, hslots⟩ : ∃ is, streams[id]? = some is ∧ (Code.slots is).toArray = slots := by
    simpa [assemble] using h
  exact ⟨is, his, hslots.symm⟩

def Declared.loops (d : Declared) : List Loop := loopsOfBlock (1 + 4 * d.params.length) d.body

def Node.Gathers (ls : List Loop) (ds : List Declared) (ns : List Node) : Prop :=
  (ls.map Loop.node ++ ds.flatMap fun d => d.loops.map Loop.node).Perm
    (ns.filter (·.kind = .forLoop))

namespace Node.Gathers

variable {ls ks : List Loop} {ds es : List Declared} {n : Node} {ns ms : List Node}

theorem nil : Gathers [] [] [] := List.Perm.nil

theorem append (h : Gathers ls ds ns) (h' : Gathers ks es ms) :
    Gathers (ls ++ ks) (ds ++ es) (ns ++ ms) := by
  rw [Gathers, List.map_append, List.flatMap_append, List.filter_append]
  calc ls.map Loop.node ++ ks.map Loop.node ++ _
    _ |>.Perm (ls.map Loop.node ++ _ ++ (ks.map Loop.node ++ _)) := by
      simp only [List.append_assoc]
      exact (List.perm_append_comm_assoc _ _ _).append_left _
    _ |>.Perm _ := List.Perm.append h h'

theorem cons (h : Gathers ls ds ns) (hn : n.kind ≠ .forLoop) : Gathers ls ds (n :: ns) := by
  rw [Gathers, List.filter_cons_of_neg (by simpa using hn)]
  exact h

theorem function {owner first : Nat} {f : String} {params : List String} {body : List Node}
    (h : Gathers (loopsOfBlock (1 + 4 * params.length) body)
      (declaredAll first (first + 1) body) (preorderAll body)) :
    Gathers [] (declared owner first (.function f params body))
      (preorder (.function f params body)) := h.cons (by simp [kind])

theorem ofLoop {l : Loop} (h : Gathers ls ds ns) : Gathers (ls ++ [l]) ds (l.node :: ns) := by
  rw [Gathers, List.filter_cons_of_pos (by rfl), List.map_append, List.append_assoc]
  exact List.perm_middle.trans (List.Perm.cons l.node h)

end Node.Gathers

namespace Node

mutual

theorem gathers_loops : (n : Node) → n.Compilable → ∀ base owner first,
    Gathers (n.loops base) (n.declared owner first) n.preorder
  | .value l, _, _, _, _ => Gathers.nil.cons (by cases l <;> simp [kind])
  | .notEqual lhs rhs, h, _, _, _ =>
    ((gathers_loops lhs h.1 _ _ _).append (gathers_loops rhs h.2 _ _ _)).cons (by simp [kind])
  | .call _ _ args, h, _, _, _ => (gathers_loopsOfArguments args h _ _ _).cons (by simp [kind])
  | .index _ key, h, _, _, _ => (gathers_loops key h _ _ _).cons (by simp [kind])
  | .assign isLocal target v, h, base, owner, first => by
    cases target with
    | value l =>
      cases l with
      | «variable» x =>
        exact ((Gathers.nil.cons (by simp [kind])).append (gathers_loops v h _ _ _)).cons
          (by simp [kind])
      | _ => simp [Compilable] at h
    | index b key =>
      cases isLocal with
      | false =>
        exact (((gathers_loops key h.1 _ _ _).cons (by simp [kind])).append
          (gathers_loops v h.2 _ _ _)).cons (by simp [kind])
      | true => simp [Compilable] at h
    | _ => simp [Compilable] at h
  | .ifThen condition body, h, _, _, _ =>
    ((gathers_loops condition h.1 _ _ _).append (gathers_loopsOfBlock body h.2 _ _ _)).cons
      (by simp [kind])
  | .forLoop initial bound body, h, base, owner, first =>
    (((gathers_loops initial h.2.1 _ _ _).append (gathers_loops bound h.2.2.1 _ _ _)).append
      (gathers_loopsOfBlock body h.2.2.2 _ _ _)).ofLoop
  | .function _ _ body, h, _, _, _ => .function (gathers_loopsOfBlock body h _ _ _)
  | .ret v, h, _, _, _ => (gathers_loops v h _ _ _).cons (by simp [kind])

theorem gathers_loopsOfArguments : (ns : List Node) → CompilableAll ns → ∀ base owner first,
    Gathers (loopsOfArguments base ns) (declaredAll owner first ns) (preorderAll ns)
  | [], _, _, _, _ => .nil
  | n :: ns, h, _, _, _ =>
    (gathers_loops n h.1 _ _ _).append (gathers_loopsOfArguments ns h.2 _ _ _)

theorem gathers_loopsOfBlock : (ns : List Node) → CompilableAll ns → ∀ base owner first,
    Gathers (loopsOfBlock base ns) (declaredAll owner first ns) (preorderAll ns)
  | [], _, _, _, _ => .nil
  | n :: ns, h, _, _, _ => (gathers_loops n h.1 _ _ _).append (gathers_loopsOfBlock ns h.2 _ _ _)

end

end Node

namespace Script

variable {ns : List Node}

def loops (ns : List Node) : List (List Loop) :=
  loopsOfBlock 0 ns :: (functions ns).map Declared.loops

theorem length_loops (h : CompilableAll ns) : (loops ns).length = (streams ns).length := by
  rw [loops, streams, List.length_cons, List.length_cons, List.length_map, List.length_map,
    (describes_functions h).length_eq]

theorem exists_goesBack (h : CompilableAll ns) {id : Nat} {is : List Instruction}
    (hs : (streams ns)[id]? = some is) : ∃ ls, (loops ns)[id]? = some ls ∧ GoesBack 0 is ls := by
  obtain ⟨rfl, rfl⟩ | ⟨k, r, rfl, hr, rfl⟩ := stream_cases hs
  · exact ⟨_, rfl, goesBack_lowerBlock .start 0 ns h⟩
  · obtain ⟨d, hd, hparams, hbody⟩ := exists_declared h hr
    refine ⟨d.loops, by rw [loops, List.getElem?_cons_succ, List.getElem?_map, hd]; rfl, ?_⟩
    have hblock := goesBack_lowerBlock r.scoping (1 + 4 * r.params.length) _
      (compilableAll_of_routine h hr)
    have hprologue (params : List String) : (Routine.prologue params).all Instruction.isPlain := by
      simp [Routine.prologue, Instruction.isPlain]
    have hepilogue (body : List Node) : (Routine.epilogue body).all Instruction.isPlain := by
      rw [Routine.epilogue]
      split <;> rfl
    rw [Routine.lower, extent_prologue, Declared.loops, ← hparams, ← hbody]
    refine (GoesBack.before (hprologue _) hblock ?_).behind (hepilogue _)
    rw [extent_prologue, Nat.zero_add]

theorem loops_perm (h : CompilableAll ns) :
    ((loops ns).flatten.map Loop.node).Perm ((preorderAll ns).filter (·.kind = .forLoop)) := by
  have hgathers := gathers_loopsOfBlock ns h 0 0 1
  rw [Gathers] at hgathers
  rw [loops, List.flatten_cons, List.map_append, List.map_flatten, List.map_map, ← List.flatMap]
  exact hgathers

end Script

end Scriptlet
