import Scriptlet.Proofs.Emission
import Scriptlet.Proofs.Failure
import Scriptlet.Proofs.Holding
import Scriptlet.Proofs.Numbering
import Scriptlet.Proofs.Scopes

/-! Compiled programs do not go wrong.  Whatever the tree that a program was compiled from,
and however often the machine is made to step on after a halt or a fault, it stays at the
boundaries of its program's instructions and holds no functions without a stream. -/

namespace Scriptlet

open Code

/-- The addresses that are reached from the beginning of a stream by the widths of its
operations. -/
inductive Slot.Reaches (slots : Array Slot) : Nat → Prop
  | start : Reaches slots 0
  | next {a : Nat} {slot : Slot} {op : Opcode} : Reaches slots a → slots[a]? = some slot →
    slot.opcode? = some op → Reaches slots (a + op.width)

def Program.IsBoundary (p : Program) (id a : Nat) : Prop :=
  ∃ slots, p.code[id]? = some slots ∧ Slot.Reaches slots a ∧ a ≤ slots.size

theorem Code.reaches_extent (done is rest : List Instruction)
    (h : Slot.Reaches (slots (done ++ is ++ rest)).toArray (extent done)) :
    Slot.Reaches (slots (done ++ is ++ rest)).toArray (extent (done ++ is)) := by
  induction is generalizing done with
  | nil => simpa using h
  | cons i is ih =>
    have hassoc : done ++ i :: is ++ rest = done ++ [i] ++ is ++ rest := by simp
    have hop : Stands (done ++ i :: is ++ rest) (extent done) [i] := ⟨done, is ++ rest, by simp, rfl⟩
    have hopcode : (Slot.ofOpcode i.opcode).opcode? = some i.opcode := Opcode.ofTag?_tag i.opcode
    have hnext := h.next (by simpa using hop.slots_opcode) hopcode
    rw [hassoc] at hnext ⊢
    have := ih (done ++ [i]) (by simpa [Instruction.width] using hnext)
    simpa using this

theorem Reading.At.isBoundary {α : Type} {streams : List (List Instruction)}
    {R : Reading α streams} {id a : Nat} {t : List α} (h : R.At id a t) :
    (assemble streams).IsBoundary id a := by
  obtain ⟨is, hs, pre, post, rfl, rfl, -⟩ := h
  refine ⟨_, code_assemble hs, ?_, by simp⟩
  simpa using reaches_extent [] pre post .start

def Fault.isOfCode : Fault → Bool
  | unknownOpcode _ _ _ | badOperand _ _ _ | missingCode _ => true
  | _ => false

namespace Machine

variable {host : Host} {m m' : Machine}

def Linked (m : Machine) : Prop :=
  ∀ id, m.Holds (.function (.compiled id)) → 1 ≤ id ∧ id < m.program.code.size

theorem not_holds_compiled_ofProgram (p : Program) (id : Nat) :
    ¬ (ofProgram p).Holds (.function (.compiled id)) := by
  intro h
  cases h with
  | stack h => cases h
  | frame hf hv =>
    cases List.mem_singleton.1 hf
    simp [globals] at hv
  | table ht hv =>
    have hlibrary (entries : List (String × Builtin)) :
        ¬ (library entries).Has (.function (.compiled id)) := by
      intro h
      obtain ⟨k, hk⟩ | h := Table.has_of_has_store h
      · simp at hk
      · exact Table.not_has_empty _ h
    have ht : _ ∈ [_, _] := Array.mem_def.1 ht
    rcases List.mem_cons.1 ht with rfl | ht
    · exact hlibrary _ hv
    · cases List.mem_singleton.1 ht
      exact hlibrary _ hv

theorem pushFunction_of_literal? {i : Instruction} {id : Nat}
    (h : literal? i = some (.function (.compiled id))) : i = .pushFunction id := by
  cases i <;> cases h
  rfl

theorem holds_of_popped {v : Value} (hp : m.Popped m') (h : m'.Holds v) : m.Holds v := by
  obtain ⟨k, w, rfl⟩ := hp
  cases h with
  | stack h => exact .stack (List.mem_of_mem_drop h)
  | frame hf hx => exact .frame hf hx
  | table ht hv => exact .table ht hv

theorem holds_of_returned {a : Activation} {calls : List Activation} {v w : Value}
    (h : (m.returned a calls w).Holds v) : v = w ∨ m.Holds v := by
  cases h with
  | stack h => exact (List.mem_cons.1 h).imp_right .stack
  | frame hf hx => exact .inr (.frame (List.mem_of_mem_drop hf) hx)
  | table ht hv => exact .inr (.table ht hv)

theorem Linked.moves {ns : List Node} (h : m.Linked)
    (hp : m.program = assemble (Script.streams ns)) (hm : m.Moves host (Script.streams ns) m') :
    m'.Linked := by
  intro id hid
  cases hm with
  | @transition i js _ hf ht =>
    rw [ht.shifts.1]
    rcases ht.accounts hid with (hid | hid) | hid
    · exact h id hid
    · exact absurd rfl hid
    · obtain ⟨-, is, hs, hi⟩ := hf
      cases pushFunction_of_literal? hid
      have hmem : Instruction.pushFunction id ∈ is := by
        obtain ⟨pre, post, rfl, -⟩ := hi
        simp
      rw [hp, size_code_assemble]
      exact Script.names_streams (List.mem_of_getElem? hs) id hmem
  | atEnd _ _ =>
    rcases holds_of_returned hid with hid | hid
    · cases hid
    · exact h id hid
  | stays hpop =>
    have hprogram : m'.program = m.program := by
      obtain ⟨k, w, rfl⟩ := hpop
      rfl
    rw [hprogram]
    exact h id (holds_of_popped hpop hid)

theorem Fails.isOfCode {i : Instruction} {f : Fault} (h : m.Linked) (hf : m.Fails i f) :
    f.isOfCode = false := by
  cases hf with
  | @missingCode args id vs hs hid =>
    have hlt := (h id (.stack (by simp [hs]))).2
    exact absurd hlt (Nat.not_lt.2 hid)
  | @builtin args f hb =>
    cases f <;> first | rfl | cases hb
  | _ => rfl

/-- The machine is well placed in the program `p` and holds what `p` has. -/
structure CodeSafe (p : Program) (m : Machine) : Prop where
  program : m.program = p
  active : p.IsBoundary m.code m.ip
  saved : ∀ a ∈ m.calls, p.IsBoundary a.code a.ip
  linked : ∀ id, m.Holds (.function (.compiled id)) → id < p.code.size
  step : ∀ host f m', step host m = .error f m' → f.isOfCode = false

structure Sound (ns : List Node) (m : Machine) : Prop where
  layered : ∃ ts, (Script.scopes ns).Layered m ts
  linked : m.Linked

theorem sound_of_reachable {ns : List Node}
    (h : Reachable (ofProgram (assemble (Script.streams ns))) m) : Sound ns m := by
  apply h.keeps
  · refine ⟨⟨_, .start _ (Script.streams_ne_nil ns)⟩, fun id h => ?_⟩
    exact absurd h (not_holds_compiled_ofProgram _ id)
  · intro m host ⟨⟨ts, hl⟩, hv⟩
    exact ⟨hl.successor host, hv.moves hl.program (moves_successor hl.placed host)⟩

theorem sound_after (ns : List Node) (host : Host) (n : Nat) :
    Sound ns ((ofProgram (assemble (Script.streams ns))).after host n) :=
  sound_of_reachable ((course_after host _).reachable n)

theorem Sound.placed {ns : List Node} (h : Sound ns m) : m.Placed (Script.streams ns) := by
  obtain ⟨⟨ts, hl⟩, -⟩ := h
  exact hl.placed

theorem Sound.codeSafe {ns : List Node} (h : Sound ns m) :
    CodeSafe (assemble (Script.streams ns)) m := by
  obtain ⟨⟨ts, hl⟩, hv⟩ := h
  refine ⟨hl.program, ?_, ?_, ?_, ?_⟩
  · obtain ⟨t, _, _, ht⟩ := hl.layers.active
    exact ht.isBoundary
  · intro a ha
    obtain ⟨t, ht⟩ := hl.layers.saved a ha
    exact ht.isBoundary
  · intro id hid
    rw [← hl.program]
    exact (hv id hid).2
  · intro host f m' hf
    obtain ⟨i, js, -, hfails⟩ := fails_of_step hl.placed hf
    exact hfails.isOfCode hv

theorem codeSafe_of_reachable {ns : List Node} {p : Program} {c : Compiler}
    (h : Program.ofNodes ns = .ok p c) {m : Machine} (hm : Reachable (ofProgram p) m) :
    CodeSafe p m := by
  obtain ⟨-, rfl⟩ := Program.ofNodes_eq_ok_iff.1 ⟨c, h⟩
  exact (sound_of_reachable hm).codeSafe

theorem codeSafe_of_reachable_oddTree :
    ∃ ns p c, Program.ofNodes ns = .ok p c ∧ p.code.size = 2 ∧
      ∀ m, Reachable (ofProgram p) m → CodeSafe p m := by
  have hns : Node.CompilableAll
      [.forLoop (.assign true (.value (.variable "i")) (.value (.number 1))) (.value (.number 3))
        [.function "f" ["x"] [.ret (.value (.variable "x"))]],
      .notEqual (.ret (.call none "f" [])) (.value .table)] := by
    simp [Node.CompilableAll, Node.Compilable, Compiler.loopVariable?]
  obtain ⟨c, h⟩ := Program.ofNodes_of_compilable hns
  exact ⟨_, _, c, h, rfl, fun m hm => codeSafe_of_reachable h hm⟩

end Machine

end Scriptlet
