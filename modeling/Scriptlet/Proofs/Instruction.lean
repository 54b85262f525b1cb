import Mathlib
import Scriptlet.Machine.Step

/-! Streams as rows of instructions.  An instruction is an operation together with its
operand, so a row of them has no stray slots.  `Code.slots` writes a row out as a stream, and
`Code.Stands` tells at which address of a longer row a shorter one begins. -/

namespace Scriptlet

theorem bind_of_ok {ε σ α β : Type} {x : EStateM ε σ α} {f : α → EStateM ε σ β} {s s' : σ}
    {a : α} (h : x s = .ok a s') : (x >>= f) s = f a s' := by
  simp [bind, EStateM.bind, h]

theorem exists_of_bind_eq_ok {ε σ α β : Type} {x : EStateM ε σ α} {f : α → EStateM ε σ β}
    {s s'' : σ} {b : β} (h : (x >>= f) s = .ok b s'') :
    ∃ a s', x s = .ok a s' ∧ f a s' = .ok b s'' := by
  simp only [bind, EStateM.bind] at h
  split at h
  · next a s' hx => exact ⟨a, s', hx, h⟩
  · cases h

/-- A call also tells how many arguments were pushed for it, which its slot does not. -/
inductive Instruction
  | pushFalse | pushTrue | pushNil
  | pushNumber (n : Int64)
  | pushString (s : String)
  | pushId (x : String)
  | pushFunction (id : Nat)
  | newTable | notEqual | increment | swap | pop
  | getEnv | setEnv | setEnvGlobal | enterScope | leaveScope
  | getTable | setTable
  | jump (address : Nat)
  | jumpIfFalse (address : Nat)
  | call (args : Nat)
  | ret | noOp
  deriving DecidableEq

namespace Instruction

def opcode : Instruction → Opcode
  | pushFalse => .pushFalse
  | pushTrue => .pushTrue
  | pushNil => .pushNil
  | pushNumber _ => .pushNumber
  | pushString _ => .pushString
  | pushId _ => .pushId
  | pushFunction _ => .pushFunction
  | newTable => .newTable
  | notEqual => .notEqual
  | increment => .increment
  | swap => .swap
  | pop => .pop
  | getEnv => .getEnv
  | setEnv => .setEnv
  | setEnvGlobal => .setEnvGlobal
  | enterScope => .enterScope
  | leaveScope => .leaveScope
  | getTable => .getTable
  | setTable => .setTable
  | jump _ => .jump
  | jumpIfFalse _ => .jumpIfFalse
  | call _ => .call
  | ret => .ret
  | noOp => .noOp

def operand? : Instruction → Option Slot
  | pushNumber n => some (.number n)
  | pushString s => some (.text s)
  | pushId x => some (.name x)
  | pushFunction id => some (.code id)
  | jump a | jumpIfFalse a => some (.target a)
  | _ => none

def target? : Instruction → Option Nat
  | jump a | jumpIfFalse a => some a
  | _ => none

def slots (i : Instruction) : List Slot := .ofOpcode i.opcode :: i.operand?.toList

def width (i : Instruction) : Nat := i.opcode.width

@[simp] theorem length_slots (i : Instruction) : i.slots.length = i.width := by
  cases i <;> rfl

theorem width_pos (i : Instruction) : 0 < i.width := by
  cases i <;> exact Nat.succ_pos _

end Instruction

namespace Code

def slots (is : List Instruction) : List Slot := is.flatMap Instruction.slots

def extent (is : List Instruction) : Nat := (is.map Instruction.width).sum

@[simp] theorem slots_nil : slots [] = [] := rfl

@[simp] theorem slots_cons (i : Instruction) (is : List Instruction) :
    slots (i :: is) = i.slots ++ slots is := rfl

@[simp] theorem slots_append (is js : List Instruction) :
    slots (is ++ js) = slots is ++ slots js := List.flatMap_append

@[simp] theorem extent_nil : extent [] = 0 := rfl

@[simp] theorem extent_cons (i : Instruction) (is : List Instruction) :
    extent (i :: is) = i.width + extent is := by
  simp [extent]

@[simp] theorem extent_append (is js : List Instruction) :
    extent (is ++ js) = extent is + extent js := by
  simp [extent]

@[simp] theorem length_slots (is : List Instruction) : (slots is).length = extent is := by
  induction is with
  | nil => rfl
  | cons i is ih => simp [ih]

theorem eq_nil_of_extent_eq_zero {is : List Instruction} (h : extent is = 0) : is = [] := by
  cases is with
  | nil => rfl
  | cons i is =>
    have := i.width_pos
    simp only [extent_cons] at h
    omega

theorem append_inj {pre pre' post post' : List Instruction}
    (h : pre ++ post = pre' ++ post') (hs : extent pre = extent pre') :
    pre = pre' ∧ post = post' := by
  induction pre generalizing pre' with
  | nil =>
    have : pre' = [] := eq_nil_of_extent_eq_zero hs.symm
    subst this
    exact ⟨rfl, h⟩
  | cons i pre ih =>
    cases pre' with
    | nil => exact absurd (eq_nil_of_extent_eq_zero hs) (List.cons_ne_nil i pre)
    | cons j pre' =>
      simp only [List.cons_append, List.cons.injEq] at h
      obtain ⟨rfl, h⟩ := h
      simp only [extent_cons, Nat.add_left_cancel_iff] at hs
      obtain ⟨rfl, rfl⟩ := ih h hs
      exact ⟨rfl, rfl⟩

theorem exists_append_of_le {pre pre' post post' : List Instruction}
    (h : pre ++ post = pre' ++ post') (hle : extent pre ≤ extent pre') :
    ∃ r, pre' = pre ++ r ∧ post = r ++ post' := by
  obtain ⟨r, rfl, rfl⟩ | ⟨r, rfl, rfl⟩ := List.append_eq_append_iff.1 h
  · exact ⟨r, rfl, rfl⟩
  · rw [extent_append] at hle
    have hr : r = [] := eq_nil_of_extent_eq_zero (by omega)
    subst hr
    exact ⟨[], by simp, rfl⟩

/-- The row `js` is a part of the row `is` and begins at the address `a`. -/
def Stands (is : List Instruction) (a : Nat) (js : List Instruction) : Prop :=
  ∃ pre post, is = pre ++ js ++ post ∧ a = extent pre

namespace Stands

variable {is js ks : List Instruction} {a : Nat} {i : Instruction}

theorem self (is : List Instruction) : Stands is 0 is := ⟨[], [], by simp, rfl⟩

theorem left (h : Stands is a (js ++ ks)) : Stands is a js := by
  obtain ⟨pre, post, rfl, rfl⟩ := h
  exact ⟨pre, ks ++ post, by simp, rfl⟩

theorem right (h : Stands is a (js ++ ks)) : Stands is (a + extent js) ks := by
  obtain ⟨pre, post, rfl, rfl⟩ := h
  exact ⟨pre ++ js, post, by simp, by simp⟩

theorem head (h : Stands is a (i :: js)) : Stands is a [i] := @left is [i] js a h

theorem tail (h : Stands is a (i :: js)) : Stands is (a + i.width) js := by
  simpa using @right is [i] js a h

theorem trans (h : Stands is a js) {b : Nat} (h' : Stands js b ks) : Stands is (a + b) ks := by
  obtain ⟨pre, post, rfl, rfl⟩ := h
  obtain ⟨pre', post', rfl, rfl⟩ := h'
  exact ⟨pre ++ pre', post' ++ post, by simp, by simp⟩

theorem slots_opcode (h : Stands is a (i :: js)) :
    (slots is)[a]? = some (.ofOpcode i.opcode) := by
  obtain ⟨pre, post, rfl, rfl⟩ := h
  rw [← length_slots]
  simp [Instruction.slots, -length_slots]

theorem slots_operand (h : Stands is a (i :: js)) {slot : Slot} (ho : i.operand? = some slot) :
    (slots is)[a + 1]? = some slot := by
  obtain ⟨pre, post, rfl, rfl⟩ := h
  rw [← length_slots]
  simp [Instruction.slots, ho, -length_slots]

theorem le_of_lt {b : Nat} (h : Stands is b (i :: js)) (hrow : Stands is a ks)
    (hlt : a < b + i.width) : a ≤ b := by
  obtain ⟨pre, post, his, rfl⟩ := h
  obtain ⟨pre', post', his', rfl⟩ := hrow
  rw [his, List.append_assoc, List.append_assoc] at his'
  apply Nat.le_of_not_lt
  intro hgt
  obtain ⟨r, rfl, hr⟩ := exists_append_of_le his' (Nat.le_of_lt hgt)
  cases r with
  | nil => simp at hgt
  | cons j r =>
    obtain ⟨rfl, -⟩ := List.cons.inj hr
    simp only [extent_append, extent_cons] at hlt
    omega

end Stands

def assemble (streams : List (List Instruction)) : Program :=
  ⟨(streams.map fun is => (slots is).toArray).toArray⟩

@[simp] theorem size_code_assemble (streams : List (List Instruction)) :
    (assemble streams).code.size = streams.length := by
  simp [assemble]

theorem code_assemble {streams : List (List Instruction)} {id : Nat} {is : List Instruction}
    (h : streams[id]? = some is) : (assemble streams).code[id]? = some (slots is).toArray := by
  simp [assemble, h]

end Code

end Scriptlet
