import Scriptlet.Code.Listing
import Scriptlet.Proofs.Jumps
import Scriptlet.Proofs.WrittenForms

/-! The listing of a compiled stream.  It has a line for every instruction, at its address, and
marks the addresses to which jumps lead; the arrow of a jump points up in the way back of a loop
and nowhere else. -/

namespace Scriptlet

open Code Node

namespace Node

def ownNames : Node → List String
  | .value (.variable x) => [x]
  | .call receiver f _ => receiver.toList ++ [f]
  | .index b _ => [b]
  | .function f params _ => f :: params
  | _ => []

end Node

def Code.PushesOnly (P : String → Prop) (is : List Instruction) : Prop := ∀ x, .pushId x ∈ is → P x

namespace Node

variable {P : String → Prop}

@[simp] theorem pushesOnly_nil : PushesOnly P [] := by simp [PushesOnly]

@[simp] theorem pushesOnly_cons {i : Instruction} {is : List Instruction} :
    PushesOnly P (i :: is) ↔ (∀ x, i = .pushId x → P x) ∧ PushesOnly P is := by
  simp [PushesOnly, or_imp, forall_and, eq_comm]

@[simp] theorem pushesOnly_append {is js : List Instruction} :
    PushesOnly P (is ++ js) ↔ PushesOnly P is ∧ PushesOnly P js := by
  simp [PushesOnly, or_imp, forall_and]

def Named (P : String → Prop) (ns : List Node) : Prop := ∀ n ∈ ns, ∀ x ∈ n.ownNames, P x

@[simp] theorem named_nil : Named P [] := by simp [Named]

@[simp] theorem named_cons {n : Node} {ns : List Node} :
    Named P (n :: ns) ↔ (∀ x ∈ n.ownNames, P x) ∧ Named P ns := by simp [Named]

@[simp] theorem named_append {ns ms : List Node} :
    Named P (ns ++ ms) ↔ Named P ns ∧ Named P ms := by
  simp [Named, or_imp, forall_and]

@[simp] theorem pushesOnly_load {x : String} : PushesOnly P (load x) ↔ P x := by simp [load]

@[simp] theorem lowerStore_ne_pushId (isDeclared : Bool) (x : String) :
    lowerStore isDeclared ≠ .pushId x := by
  cases isDeclared <;> simp [lowerStore]

theorem named_loopVariable {initial : Node} {x : String}
    (hx : Compiler.loopVariable? initial = some x) (h : Named P initial.preorder) : P x := by
  unfold Compiler.loopVariable? at hx
  split at hx
  · cases hx
    simp only [preorder, named_cons, named_append, ownNames, List.forall_mem_singleton] at h
    exact h.2.1.1
  · cases hx

mutual

theorem pushesOnly_lower (σ : Scoping) (base : Nat) :
    (n : Node) → Named P n.preorder → PushesOnly P (lower σ base n)
  | .value l, h => by
    cases l with
    | «variable» x => simpa [lower, lowerLiteral, preorder, ownNames] using h
    | boolean b => cases b <;> simp [lower, lowerLiteral]
    | _ => simp [lower, lowerLiteral]
  | .notEqual lhs rhs, h => by
    simp only [preorder, named_cons, named_append] at h
    simp [lower, pushesOnly_lower _ _ lhs h.2.1, pushesOnly_lower _ _ rhs h.2.2]
  | .call receiver f args, h => by
    simp only [preorder, named_cons, ownNames, List.forall_mem_append,
      List.forall_mem_singleton] at h
    obtain ⟨⟨hreceiver, hf⟩, hargs⟩ := h
    have hcallee : PushesOnly P (lowerCallee receiver f) := by
      cases receiver with
      | none => simpa [lowerCallee] using hf
      | some r => simpa [lowerCallee, hf] using hreceiver
    simp [lower, hcallee, pushesOnly_lowerArguments _ _ args hargs]
  | .index b key, h => by
    simp only [preorder, named_cons, ownNames, List.forall_mem_singleton] at h
    simp [lower, h.1, pushesOnly_lower _ _ key h.2]
  | .assign isLocal target v, h => by
    simp only [preorder, named_cons, named_append] at h
    obtain ⟨-, htarget, hv⟩ := h
    cases target with
    | value l =>
      cases l with
      | «variable» x =>
        have hx : P x := by simpa [preorder, ownNames] using htarget
        simp [lower, hx, pushesOnly_lower _ _ v hv]
      | _ => simp [lower]
    | index b key =>
      simp only [preorder, named_cons, ownNames, List.forall_mem_singleton] at htarget
      simp [lower, htarget.1, pushesOnly_lower _ _ key htarget.2, pushesOnly_lower _ _ v hv]
    | _ => simp [lower]
  | .ifThen condition body, h => by
    simp only [preorder, named_cons, named_append] at h
    simp [lower, pushesOnly_lower _ _ condition h.2.1, pushesOnly_lowerBlock _ _ body h.2.2]
  | .forLoop initial bound body, h => by
    simp only [preorder, named_cons, named_append] at h
    obtain ⟨-, ⟨hinitial, hbound⟩, hbody⟩ := h
    cases hx : Compiler.loopVariable? initial with
    | none => simp [lower, hx]
    | some x =>
      have hname : P x := named_loopVariable hx hinitial
      simp [lower_forLoop hx, lowerTurns, lowerAdvance, hname, pushesOnly_lower _ _ initial hinitial,
        pushesOnly_lower _ _ bound hbound, pushesOnly_lowerBlock _ _ body hbody]
  | .function f params _, h => by
    simp only [preorder, named_cons, ownNames, List.forall_mem_cons] at h
    simp [lower, h.1.1]
  | .ret v, h => by
    simp only [preorder, named_cons] at h
    simp [lower, pushesOnly_lower _ _ v h.2]

theorem pushesOnly_lowerArguments (σ : Scoping) (base : Nat) :
    (ns : List Node) → Named P (preorderAll ns) → PushesOnly P (lowerArguments σ base ns)
  | [], _ => by simp [lowerArguments]
  | n :: ns, h => by
    simp only [preorderAll, named_append] at h
    simp [lowerArguments, pushesOnly_lower _ _ n h.1, pushesOnly_lowerArguments _ _ ns h.2]

theorem pushesOnly_lowerBlock (σ : Scoping) (base : Nat) :
    (ns : List Node) → Named P (preorderAll ns) → PushesOnly P (lowerBlock σ base ns)
  | [], _ => by simp [lowerBlock]
  | n :: ns, h => by
    simp only [preorderAll, named_append] at h
    have hpop : PushesOnly P (if n.isExpression then [Instruction.pop] else []) := by
      split <;> simp
    simp [lowerBlock, hpop, pushesOnly_lower _ _ n h.1, pushesOnly_lowerBlock _ _ ns h.2]

end

end Node

theorem Script.pushesOnly_streams {P : String → Prop} {ns : List Node} (h : CompilableAll ns)
    (hnames : ∀ n, Occurs n ns → ∀ x ∈ n.ownNames, P x) {id : Nat} {is : List Instruction}
    (hs : (streams ns)[id]? = some is) : PushesOnly P is := by
  have hnamed (ms : List Node) (hms : ∀ n, Occurs n ms → Occurs n ns) :
      Named P (preorderAll ms) :=
    fun n hn => hnames n (hms n (mem_preorderAll_iff.1 hn))
  obtain ⟨rfl, rfl⟩ | ⟨k, r, rfl, hr, rfl⟩ := stream_cases hs
  · exact pushesOnly_lowerBlock _ _ ns (hnamed ns fun _ hn => hn)
  · obtain ⟨d, hd, hparams, hbody⟩ := exists_declared h hr
    have hoccurs : Occurs d.node ns := occurs_of_mem_declaredAll (List.mem_of_getElem? hd)
    have hprologue : PushesOnly P (Routine.prologue r.params) := by
      intro x hx
      have hx : x ∈ r.params := by simpa [Routine.prologue] using hx
      rw [hparams] at hx
      exact hnames _ hoccurs x (List.mem_cons_of_mem _ hx)
    have hepilogue : PushesOnly P (Routine.epilogue r.body) := by
      rw [Routine.epilogue]
      split <;> simp
    have hbelow (n : Node) (hn : Occurs n r.body) : Occurs n ns := by
      rw [hbody] at hn
      exact hoccurs.inside hn
    have hblock := pushesOnly_lowerBlock r.scoping (extent (Routine.prologue r.params)) r.body
      (hnamed r.body hbelow)
    rw [Routine.lower, pushesOnly_append, pushesOnly_append]
    exact ⟨⟨hprologue, hblock⟩, hepilogue⟩

theorem Instruction.hasOperand_opcode (i : Instruction) :
    i.opcode.hasOperand = i.operand?.isSome := by
  cases i <;> rfl

namespace CodeListing

theorem entries_slots (ip : Nat) (is : List Instruction) : entries ip (Code.slots is) =
    (located ip is).map fun q => (q.1, .operation q.2.opcode q.2.operand?) := by
  induction is generalizing ip with
  | nil => rfl
  | cons i is ih =>
    rw [located, List.map_cons, slots_cons, Instruction.slots, Instruction.width, Opcode.width]
    cases ho : i.operand? with
    | none =>
      have hop : i.opcode.hasOperand = false := by rw [i.hasOperand_opcode, ho]; rfl
      simp [Slot.ofOpcode, entries, hop, ih]
    | some operand =>
      have hop : i.opcode.hasOperand = true := by rw [i.hasOperand_opcode, ho]; rfl
      simp [Slot.ofOpcode, entries, hop, ih]

theorem jumpTargets_cons_slots (slot : Slot) (is : List Instruction) :
    jumpTargets (slot :: Code.slots is) = jumpTargets (Code.slots is) := by
  cases is with
  | nil => cases slot <;> rfl
  | cons i is =>
    rw [slots_cons, Instruction.slots, List.cons_append, Slot.ofOpcode, jumpTargets]
    intro t ts h
    cases h

theorem jumpTargets_slots (is : List Instruction) :
    jumpTargets (Code.slots is) = is.filterMap Instruction.target? := by
  induction is with
  | nil => rfl
  | cons i is ih =>
    rw [slots_cons, Instruction.slots]
    cases i with
    | jump t | jumpIfFalse t =>
      have hjump : isJump (.ofOpcode .jump) ∧ isJump (.ofOpcode .jumpIfFalse) := by decide
      simp only [Instruction.opcode, Instruction.operand?, Option.toList_some, List.cons_append,
        List.nil_append, jumpTargets, hjump, if_true, jumpTargets_cons_slots, ih]
      rfl
    | _ => exact (jumpTargets_cons_slots _ is).trans ih

end CodeListing

namespace Instruction

/-- What a listing shows behind the mnemonic.  The arrow of a jump points up if the jump is the way
back of a loop. -/
def remark? (isBack : Bool) : Instruction → Option String
  | pushNumber n => some (Text.decimal n.toInt)
  | pushString s => some (Text.quote s)
  | pushId x => some x
  | pushFunction id => some ("code[" ++ Nat.repr id ++ "]")
  | jump t | jumpIfFalse t =>
    some ((if isBack then "↑" else "↓") ++ " (→ " ++ Text.zeroPad 4 t ++ ")")
  | i => (CodeListing.effect i.opcode).map ("; " ++ ·)

def text (isBack : Bool) (i : Instruction) : String :=
  match i.remark? isBack with
  | some s => Text.padRight 14 i.opcode.mnemonic ++ " " ++ s
  | none => i.opcode.mnemonic

theorem remark?_of_operand? {i : Instruction} (h : i.operand? = none) (isBack : Bool) :
    i.remark? isBack = (CodeListing.effect i.opcode).map ("; " ++ ·) := by
  cases i <;> first | rfl | cases h

theorem remark?_eq_operandText {i : Instruction} {operand : Slot} {ip : Nat} {isBack : Bool}
    (ho : i.operand? = some operand) (h : ∀ t, i.target? = some t → (isBack = true ↔ t ≤ ip)) :
    i.remark? isBack = some (CodeListing.operandText i.opcode ip operand) := by
  have harrow (t : Nat) (ht : i.target? = some t) :
      (if isBack then "↑" else "↓") = if t ≤ ip then "↑" else "↓" := by
    simp only [h t ht]
  cases i <;> cases ho
  case jump t | jumpIfFalse t =>
    rw [remark?, CodeListing.operandText, harrow t rfl]
    rfl
  all_goals rfl

theorem text_operation_none {op : Opcode} (h : op.hasOperand = false) (ip : Nat) :
    (CodeListing.Entry.operation op none).text ip =
      match CodeListing.effect op with
      | some e => Text.padRight 14 op.mnemonic ++ " ; " ++ e
      | none => op.mnemonic :=
  if_neg (by rw [h]; exact Bool.false_ne_true)

theorem text_operation_some (op : Opcode) (operand : Slot) (ip : Nat) :
    (CodeListing.Entry.operation op (some operand)).text ip =
      Text.padRight 14 op.mnemonic ++ " " ++ CodeListing.operandText op ip operand := rfl

theorem text_operation {i : Instruction} {ip : Nat} {isBack : Bool}
    (h : ∀ t, i.target? = some t → (isBack = true ↔ t ≤ ip)) :
    (CodeListing.Entry.operation i.opcode i.operand?).text ip = i.text isBack := by
  cases ho : i.operand? with
  | some operand => rw [text, remark?_eq_operandText ho h, text_operation_some]
  | none =>
    have hop : i.opcode.hasOperand = false := by rw [i.hasOperand_opcode, ho]; rfl
    have hspace (s e : String) : s ++ " ; " ++ e = s ++ " " ++ ("; " ++ e) := by
      simp [← String.toList_inj]
    rw [text, remark?_of_operand? ho, text_operation_none hop]
    cases CodeListing.effect i.opcode with
    | none => rfl
    | some e => exact hspace _ e

theorem inLine_mnemonic (op : Opcode) : Text.InLine op.mnemonic := by
  cases op <;> decide

theorem inLine_effect {op : Opcode} {e : String} (h : CodeListing.effect op = some e) :
    Text.InLine e := by
  cases op <;> cases h <;> decide

theorem inLine_remark? {i : Instruction} {isBack : Bool} {s : String}
    (hname : ∀ x, i = .pushId x → Text.InLine x) (h : i.remark? isBack = some s) :
    Text.InLine s := by
  cases ho : i.operand? with
  | none =>
    rw [remark?_of_operand? ho] at h
    obtain ⟨e, he, rfl⟩ := Option.map_eq_some_iff.1 h
    exact Text.InLine.append (by decide) (inLine_effect he)
  | some operand =>
    cases i with
    | pushNumber n =>
      cases h
      exact Text.inLine_decimal n.toInt
    | pushString t =>
      cases h
      exact Text.inLine_quote t
    | pushId =>
      cases h
      exact hname s rfl
    | pushFunction id =>
      cases h
      exact (Text.InLine.append (by decide) (Text.inLine_repr id)).append (by decide)
    | jump t | jumpIfFalse t =>
      cases h
      refine ((Text.InLine.append ?_ (by decide)).append (Text.inLine_zeroPad 4 t)).append (by decide)
      split <;> decide
    | _ => cases ho

theorem inLine_text {i : Instruction} (hname : ∀ x, i = .pushId x → Text.InLine x)
    (isBack : Bool) : Text.InLine (i.text isBack) := by
  have hmnemonic := inLine_mnemonic i.opcode
  rw [text]
  cases hr : i.remark? isBack with
  | none => exact hmnemonic
  | some s =>
    exact ((Text.inLine_padRight hmnemonic).append (by decide)).append (inLine_remark? hname hr)

end Instruction

namespace CodeListing

def ruleLine : String := "      ┌──────────────────────────────────"

def markedLines (isMarked : Bool) (a : Nat) (text : String) : List String :=
  (if isMarked then [ruleLine] else []) ++
    [Text.zeroPad 4 a ++ " " ++ (if isMarked then "► " else "  ") ++ text]

theorem line_eq_join (isMarked : Bool) (a : Nat) (text : String) :
    line isMarked a text = String.join ((markedLines isMarked a text).map (· ++ "\n")) := by
  cases isMarked <;> simp [← String.toList_inj, line, markedLines, rule, ruleLine]

theorem inLine_of_mem_markedLines {isMarked : Bool} {a : Nat} {text l : String}
    (ht : Text.InLine text) (h : l ∈ markedLines isMarked a text) : Text.InLine l := by
  rcases List.mem_append.1 h with h | h
  · split at h
    · rw [List.mem_singleton.1 h]
      decide
    · cases h
  · rw [List.mem_singleton.1 h]
    refine ((Text.inLine_zeroPad 4 a).append (by decide)).append ?_ |>.append ht
    split <;> decide

def isWayBack (ls : List Loop) (q : Nat × Instruction) : Bool :=
  q ∈ ls.map fun l => (l.back, .jump l.head)

def rowLines (ls : List Loop) (is : List Instruction) : List String :=
  let targets := is.filterMap Instruction.target?
  ((located 0 is).flatMap fun q =>
    markedLines (targets.contains q.1) q.1 (q.2.text (isWayBack ls q))) ++
  if targets.contains (extent is) then markedLines true (extent is) "<end>" else []

theorem join_map_join (l : List α) (f : α → List String) (g : String → String) :
    String.join (l.map fun a => String.join ((f a).map g)) = String.join ((l.flatMap f).map g) := by
  simp [← String.toList_inj, String.toList_join, List.flatMap_assoc, List.flatMap_map]

theorem isWayBack_iff {ls : List Loop} {is : List Instruction} (h : GoesBack 0 is ls) {a t : Nat}
    {i : Instruction} (hmem : (a, i) ∈ located 0 is) (ht : i.target? = some t) :
    isWayBack ls (a, i) = true ↔ t ≤ a := by
  cases i <;> cases ht
  case jump =>
    have hback : (a, t) ∈ (located 0 is).filterMap jump? := List.mem_filterMap.2 ⟨_, hmem, rfl⟩
    rw [h.back, List.mem_map] at hback
    obtain ⟨l, hl, hl'⟩ := hback
    obtain ⟨rfl, rfl⟩ := Prod.mk.inj hl'
    refine iff_of_true ?_ (Nat.le_of_lt l.head_lt_back)
    exact decide_eq_true (List.mem_map.2 ⟨l, hl, rfl⟩)
  case jumpIfFalse =>
    refine iff_of_false ?_ (Nat.not_le_of_lt (h.ahead a t hmem))
    simp [isWayBack]

theorem ofStream_slots {ls : List Loop} {is : List Instruction} (h : GoesBack 0 is ls) :
    ofStream (Code.slots is) = String.join ((rowLines ls is).map (· ++ "\n")) := by
  have htext (q : Nat × Instruction) (hq : q ∈ located 0 is) :
      (Entry.operation q.2.opcode q.2.operand?).text q.1 = q.2.text (isWayBack ls q) :=
    Instruction.text_operation fun t ht => isWayBack_iff h hq ht
  have hend (b : Bool) : (if b then line true (extent is) "<end>" else "") =
      String.join ((if b then markedLines true (extent is) "<end>" else []).map (· ++ "\n")) := by
    cases b
    · rfl
    · exact line_eq_join true (extent is) "<end>"
  rw [ofStream, entries_slots, jumpTargets_slots, Code.length_slots, List.map_map, rowLines,
    List.map_append, String.join_append, ← join_map_join, hend]
  congr 2
  apply List.map_congr_left
  intro q hq
  rw [Function.comp_apply, ← line_eq_join, ← htext q hq]

theorem inLine_of_mem_rowLines {ls : List Loop} {is : List Instruction}
    (hnames : PushesOnly Text.InLine is) {l : String} (hl : l ∈ rowLines ls is) :
    Text.InLine l := by
  rcases List.mem_append.1 hl with hl | hl
  · obtain ⟨⟨a, i⟩, hq, hl⟩ := List.mem_flatMap.1 hl
    obtain ⟨pre, post, rfl, -⟩ := mem_located_iff.1 hq
    refine inLine_of_mem_markedLines (Instruction.inLine_text ?_ _) hl
    rintro x rfl
    exact hnames x (by simp)
  · split at hl
    · exact inLine_of_mem_markedLines (by decide) hl
    · cases hl

theorem lines_ofStream {ls : List Loop} {is : List Instruction} (h : GoesBack 0 is ls)
    (hnames : PushesOnly Text.InLine is) :
    Text.lines (ofStream (Code.slots is)) = rowLines ls is ++ [""] := by
  rw [ofStream_slots h, Text.lines_join fun l hl => inLine_of_mem_rowLines hnames hl]

/-- What the listing of a stream with these loops shows.  The stream is the row `is`, whose
addresses are those of its slots that tell an operation, the ones that are reached by stepping.
There is a line for each, marked if a jump leads there, and a line behind the last if a jump leads
there; the arrows of the ways back point up. -/
structure Shows (slots : Array Slot) (ls : List Loop) (is : List Instruction) : Prop where
  row : slots.toList = Code.slots is
  operations : (located 0 is).map Prod.fst =
    (slots.toList.zipIdx.filter (·.1.opcode?.isSome)).map Prod.snd
  reached : ∀ a, a ∈ (located 0 is).map Prod.fst ↔ Slot.Reaches slots a ∧ a < slots.size
  targets : ∀ t, t ∈ is.filterMap Instruction.target? ↔
    ∃ a, Slot.JumpsAt slots .jump a t ∨ Slot.JumpsAt slots .jumpIfFalse a t
  loops : Slot.LoopsBack slots ls
  lines : Text.lines (ofStream slots.toList) = rowLines ls is ++ [""]

theorem operations_located (base : Nat) (is : List Instruction) :
    (located base is).map Prod.fst =
      (((Code.slots is).zipIdx base).filter (·.1.opcode?.isSome)).map Prod.snd := by
  induction is generalizing base with
  | nil => rfl
  | cons i is ih =>
    rw [located, List.map_cons, slots_cons, List.zipIdx_append, List.filter_append, List.map_append,
      Instruction.length_slots, ih]
    have hop : (Slot.ofOpcode i.opcode).opcode? = some i.opcode := Opcode.ofTag?_tag i.opcode
    have hoperand : ∀ slot, i.operand? = some slot → slot.opcode? = none := by
      cases i <;> intro slot h <;> cases h <;> rfl
    rw [Instruction.slots]
    cases ho : i.operand? with
    | none => simp [hop]
    | some slot => simp [hop, hoperand slot ho]

theorem reached_located (is : List Instruction) (a : Nat) :
    a ∈ (located 0 is).map Prod.fst ↔
      Slot.Reaches (Code.slots is).toArray a ∧ a < (Code.slots is).toArray.size := by
  rw [List.mem_map]
  constructor
  · rintro ⟨⟨a, i⟩, hmem, rfl⟩
    refine ⟨reaches_of_mem_located hmem, ?_⟩
    obtain ⟨pre, post, rfl, rfl⟩ := mem_located_iff.1 hmem
    have := i.width_pos
    simp only [List.size_toArray, Code.length_slots, extent_append, extent_cons]
    omega
  · rintro ⟨hreaches, hlt⟩
    obtain ⟨pre, post, rfl, rfl⟩ := exists_cut_of_reaches hreaches
    cases post with
    | nil => simp at hlt
    | cons i post => exact ⟨(extent pre, i), mem_located_iff.2 ⟨pre, post, rfl, by simp⟩, rfl⟩

theorem mem_targets_iff (is : List Instruction) (t : Nat) :
    t ∈ is.filterMap Instruction.target? ↔
      ∃ a, Slot.JumpsAt (Code.slots is).toArray .jump a t ∨
        Slot.JumpsAt (Code.slots is).toArray .jumpIfFalse a t := by
  have hjump (a : Nat) : Slot.JumpsAt (Code.slots is).toArray .jump a t ↔ _ :=
    jumpsAt_iff (i := .jump t) rfl
  have hjumpIfFalse (a : Nat) : Slot.JumpsAt (Code.slots is).toArray .jumpIfFalse a t ↔ _ :=
    jumpsAt_iff (i := .jumpIfFalse t) rfl
  simp only [hjump, hjumpIfFalse, List.mem_filterMap]
  constructor
  · rintro ⟨i, hi, ht⟩
    obtain ⟨pre, post, rfl⟩ := List.append_of_mem hi
    refine ⟨extent pre, ?_⟩
    have hmem : (extent pre, i) ∈ located 0 (pre ++ i :: post) :=
      mem_located_iff.2 ⟨pre, post, rfl, by simp⟩
    cases i <;> cases ht
    · exact .inl hmem
    · exact .inr hmem
  · rintro ⟨a, hmem | hmem⟩
    all_goals
      obtain ⟨pre, post, rfl, -⟩ := mem_located_iff.1 hmem
      exact ⟨_, List.mem_append_right pre List.mem_cons_self, rfl⟩

/-- The listing of a script's stream shows what the machine executes there. -/
theorem shows_stream {ns : List Node} {p : Program} {c : Compiler}
    (h : Program.ofNodes ns = .ok p c)
    (hnames : ∀ n, Occurs n ns → ∀ x ∈ n.ownNames, Text.InLine x) {id : Nat} {slots : Array Slot}
    (hid : p.code[id]? = some slots) :
    ∃ ls is, (Script.loops ns)[id]? = some ls ∧ Shows slots ls is := by
  obtain ⟨hns, rfl⟩ := Program.ofNodes_eq_ok_iff.1 ⟨c, h⟩
  obtain ⟨is, his, rfl⟩ := exists_of_code_assemble hid
  obtain ⟨ls, hls, hgoes⟩ := Script.exists_goesBack hns his
  have hpushes := Script.pushesOnly_streams hns hnames his
  exact ⟨ls, is, hls, rfl, operations_located 0 is, reached_located is, mem_targets_iff is,
    hgoes.loopsBack, lines_ofStream hgoes hpushes⟩

def spinning : List Node :=
  [.function "spin" ["n"]
    [.forLoop (.assign true (.value (.variable "i")) (.value (.number 0))) (.value (.variable "n"))
      [.ifThen (.value (.boolean true)) [.call none "print" [.value (.string "a\nb")]]]],
    .ifThen (.value (.variable "spin")) [.call none "spin" [.value (.number 3)]]]

theorem shows_stream_spinning :
    ∃ p c, Program.ofNodes spinning = .ok p c ∧ p.code.size = 2 ∧
      ∀ (id : Nat) slots, p.code[id]? = some slots →
        ∃ ls is, (Script.loops spinning)[id]? = some ls ∧ Shows slots ls is := by
  have hnames : ∀ n, Occurs n spinning → ∀ x ∈ n.ownNames, Text.InLine x := by
    intro n hn
    have hall : ∀ m ∈ preorderAll spinning, ∀ x ∈ m.ownNames, Text.InLine x := by decide
    exact hall n (mem_preorderAll_iff.2 hn)
  have hns : CompilableAll spinning := by
    simp [spinning, CompilableAll, Compilable, Compiler.loopVariable?]
  obtain ⟨c, h⟩ := Program.ofNodes_of_compilable hns
  exact ⟨_, c, h, rfl, fun id slots hid => shows_stream h hnames hid⟩

end CodeListing

end Scriptlet
