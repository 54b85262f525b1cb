import Scriptlet.Proofs.Instruction

/-! Reading a row of instructions for what it opens and closes.  An `Effect` tells for each
instruction how it changes a list of open things, such as scopes or operands, and may refuse
the instruction.  Reading goes from left to right and takes no jumps; a row `Flows` if it can
be read to its end and every jump in it leads to an address where the same things are open as
behind the jump. -/

namespace Scriptlet

open Code

abbrev Effect (α : Type) := List α → Instruction → Option (List α)

namespace Effect

variable {α : Type} {e : Effect α} {s t u : List α} {is js : List Instruction}
  {i : Instruction} {a base : Nat}

def scan (e : Effect α) (s : List α) : List Instruction → Option (List α)
  | [] => some s
  | i :: is => (e s i).bind (e.scan · is)

@[simp] theorem scan_nil (e : Effect α) (s : List α) : e.scan s [] = some s := rfl

@[simp] theorem scan_cons (e : Effect α) (s : List α) (i : Instruction) (is : List Instruction) :
    e.scan s (i :: is) = (e s i).bind (e.scan · is) := rfl

theorem scan_append (e : Effect α) (s : List α) (is js : List Instruction) :
    e.scan s (is ++ js) = (e.scan s is).bind (e.scan · js) := by
  induction is generalizing s with
  | nil => rfl
  | cons i is ih => simp [ih, Option.bind_assoc]

theorem scan_append_of_eq (h : e.scan s is = some t) (js : List Instruction) :
    e.scan s (is ++ js) = e.scan t js := by
  rw [scan_append, h, Option.bind_some]

theorem exists_scan_of_append (h : e.scan s (is ++ js) = some u) :
    ∃ t, e.scan s is = some t ∧ e.scan t js = some u := by
  rw [scan_append] at h
  exact Option.bind_eq_some_iff.1 h

/-- The row `is` stands from `base` on.  At the address `a` of it `t` is open, if `s` is open
at its beginning. -/
def At (e : Effect α) (base : Nat) (s : List α) (is : List Instruction) (a : Nat)
    (t : List α) : Prop :=
  ∃ pre post, is = pre ++ post ∧ a = base + extent pre ∧ e.scan s pre = some t

theorem At.start : e.At base s is base s := ⟨[], is, rfl, rfl, rfl⟩

theorem At.stop (h : e.scan s is = some t) : e.At base s is (base + extent is) t :=
  ⟨is, [], (List.append_nil is).symm, rfl, h⟩

theorem At.left (h : e.At base s is a t) : e.At base s (is ++ js) a t := by
  obtain ⟨pre, post, rfl, ha, hs⟩ := h
  exact ⟨pre, post ++ js, List.append_assoc pre post js, ha, hs⟩

theorem At.right (h : e.At (base + extent is) t js a u) (hs : e.scan s is = some t) :
    e.At base s (is ++ js) a u := by
  obtain ⟨pre, post, rfl, rfl, hu⟩ := h
  refine ⟨is ++ pre, post, by simp, by simp [Nat.add_assoc], ?_⟩
  rw [scan_append_of_eq hs, hu]

theorem At.rightAt {start : Nat} (h : e.At start t js a u) (hs : e.scan s is = some t)
    (hstart : start = base + extent is) : e.At base s (is ++ js) a u := by
  subst hstart
  exact h.right hs

theorem At.unique (h : e.At base s is a t) (h' : e.At base s is a u) : t = u := by
  obtain ⟨pre, post, rfl, rfl, ht⟩ := h
  obtain ⟨pre', post', hp, ha, hu⟩ := h'
  obtain ⟨rfl, -⟩ := append_inj hp (Nat.add_left_cancel ha)
  rw [ht] at hu
  exact Option.some.inj hu

theorem At.le (h : e.At base s is a t) : base ≤ a ∧ a ≤ base + extent is := by
  obtain ⟨pre, post, rfl, rfl, -⟩ := h
  simp only [extent_append]
  omega

theorem At.cases_stop (h : e.At base s is a t) :
    a = base + extent is ∨ ∃ i js, Stands is (a - base) (i :: js) := by
  obtain ⟨pre, post, rfl, rfl, -⟩ := h
  cases post with
  | nil => exact .inl (by rw [List.append_nil])
  | cons i js => exact .inr ⟨i, js, pre, [], by simp, Nat.add_sub_cancel_left _ _⟩

/-- Every jump in the row leads to an address, with what is open behind the jump, of which
`P` holds. -/
def JumpsTo (e : Effect α) (P : Nat → List α → Prop) (s : List α) (is : List Instruction) :
    Prop :=
  ∀ pre i post a t, is = pre ++ i :: post → i.target? = some a →
    e.scan s (pre ++ [i]) = some t → P a t

theorem JumpsTo.mono {P Q : Nat → List α → Prop} (h : e.JumpsTo P s is)
    (hPQ : ∀ a t, P a t → Q a t) : e.JumpsTo Q s is :=
  fun pre i post a t his hi hs => hPQ a t (h pre i post a t his hi hs)

theorem JumpsTo.nil {P : Nat → List α → Prop} : e.JumpsTo P s [] :=
  fun _ _ _ _ _ h => absurd h (by simp)

theorem JumpsTo.cons {P : Nat → List α → Prop} (h : e s i = some t)
    (hi : ∀ a, i.target? = some a → P a t) (hs : e.JumpsTo P t is) :
    e.JumpsTo P s (i :: is) := by
  intro pre j post a u his hj hu
  cases pre with
  | nil =>
    obtain ⟨rfl, rfl⟩ := List.cons.inj his
    simp only [List.nil_append, scan_cons, h, Option.bind_some, scan_nil, Option.some.injEq] at hu
    subst hu
    exact hi a hj
  | cons k pre =>
    obtain ⟨rfl, htail⟩ := List.cons.inj his
    simp only [List.cons_append, scan_cons, h, Option.bind_some] at hu
    exact hs pre j post a u htail hj hu

theorem JumpsTo.append {P : Nat → List α → Prop} (h : e.JumpsTo P s is)
    (ht : e.scan s is = some t) (h' : e.JumpsTo P t js) : e.JumpsTo P s (is ++ js) := by
  induction is generalizing s with
  | nil =>
    cases ht
    exact h'
  | cons i is ih =>
    rw [scan_cons] at ht
    obtain ⟨s', hs', ht⟩ := Option.bind_eq_some_iff.1 ht
    refine JumpsTo.cons hs' ?_ (ih ?_ ht)
    · intro a hi
      exact h [] i is a s' rfl hi (by simp [hs'])
    · intro pre j post a u his hj hu
      exact h (i :: pre) j post a u (by rw [his]; rfl) hj (by simpa [hs'] using hu)

theorem JumpsTo.of_straight {P : Nat → List α → Prop} (h : ∀ i ∈ is, i.target? = none) :
    e.JumpsTo P s is := by
  intro pre i post a t his hi
  rw [h i (by simp [his])] at hi
  cases hi

/-- The row `is`, standing from `base` on, leads from `s` to `t`. -/
structure Flows (e : Effect α) (base : Nat) (s : List α) (is : List Instruction) (t : List α) :
    Prop where
  scan : e.scan s is = some t
  jumps : e.JumpsTo (e.At base s is) s is

namespace Flows

theorem nil : e.Flows base s [] s := ⟨rfl, .nil⟩

theorem straight (h : e.scan s is = some t) (hi : ∀ i ∈ is, i.target? = none) :
    e.Flows base s is t := ⟨h, .of_straight hi⟩

theorem append (h : e.Flows base s is t) (h' : e.Flows (base + extent is) t js u) :
    e.Flows base s (is ++ js) u := by
  refine ⟨by rw [scan_append_of_eq h.scan, h'.scan], ?_⟩
  refine (h.jumps.mono fun a t ha => ha.left).append h.scan ?_
  exact h'.jumps.mono fun a t ha => ha.right h.scan

theorem appendAt {start : Nat} (h : e.Flows base s is t) (h' : e.Flows start t js u)
    (hs : start = base + extent is) : e.Flows base s (is ++ js) u := by
  subst hs
  exact h.append h'

theorem snoc (h : e.Flows base s is t) (hi : e t i = some u) (hn : i.target? = none) :
    e.Flows base s (is ++ [i]) u :=
  h.append (.straight (by simp [hi]) (by simp [hn]))

theorem ifThen (h : e.Flows base s is t) (hj : e t (.jumpIfFalse a) = some u)
    (h' : e.Flows (base + extent is + 2) u js u) (ha : a = base + extent is + 2 + extent js) :
    e.Flows base s (is ++ [.jumpIfFalse a] ++ js) u := by
  have hs : e.scan s (is ++ [.jumpIfFalse a]) = some u := by
    rw [scan_append_of_eq h.scan]
    simp [hj]
  have hend : e.scan s (is ++ [.jumpIfFalse a] ++ js) = some u := by
    rw [scan_append_of_eq hs, h'.scan]
  have hsize : extent (is ++ [.jumpIfFalse a]) = extent is + 2 := extent_append _ _
  have hexit : e.At base s (is ++ [.jumpIfFalse a] ++ js) a u := by
    have := @At.stop α e s u _ base hend
    rwa [extent_append, hsize, ← Nat.add_assoc, ← Nat.add_assoc, ← ha] at this
  refine ⟨hend, JumpsTo.append (JumpsTo.append ?_ h.scan ?_) hs ?_⟩
  · exact h.jumps.mono fun b t hb => hb.left.left
  · refine .cons hj ?_ .nil
    rintro b hb
    cases hb
    exact hexit
  · refine h'.jumps.mono fun b t hb => At.right ?_ hs
    rwa [hsize, ← Nat.add_assoc]

variable {test body : List Instruction} {head start exit : Nat}

theorem loop (h : e.Flows base s is t) (ht : e.Flows (base + extent is) t test u)
    (hj : e u (.jumpIfFalse exit) = some t)
    (hb : e.Flows start t body t) (hback : e t (.jump head) = some t)
    (hhead : head = base + extent is) (hstart : start = base + extent is + extent test + 2)
    (hexit : exit = start + extent body + 2) :
    e.Flows base s (is ++ test ++ [.jumpIfFalse exit] ++ body ++ [.jump head]) t := by
  have h₁ : e.scan s (is ++ test) = some u := by rw [scan_append_of_eq h.scan, ht.scan]
  have h₂ : e.scan s (is ++ test ++ [.jumpIfFalse exit]) = some t := by
    rw [scan_append_of_eq h₁]
    simp [hj]
  have h₃ : e.scan s (is ++ test ++ [.jumpIfFalse exit] ++ body) = some t := by
    rw [scan_append_of_eq h₂, hb.scan]
  have hend : e.scan s (is ++ test ++ [.jumpIfFalse exit] ++ body ++ [.jump head]) = some t := by
    rw [scan_append_of_eq h₃]
    simp [hback]
  have hatExit :
      e.At base s (is ++ test ++ [.jumpIfFalse exit] ++ body ++ [.jump head]) exit t := by
    have := @At.stop α e s t _ base hend
    have hsize :
        base + extent (is ++ test ++ [.jumpIfFalse exit] ++ body ++ [.jump head]) = exit := by
      simp only [extent_append, hexit, hstart, Nat.add_assoc]
      rfl
    rwa [hsize] at this
  refine ⟨hend, JumpsTo.append (JumpsTo.append (JumpsTo.append (JumpsTo.append ?_ h.scan ?_) h₁ ?_)
    h₂ ?_) h₃ ?_⟩
  · exact h.jumps.mono fun b t hb => hb.left.left.left.left
  · exact ht.jumps.mono fun b t hb => (hb.right h.scan).left.left.left
  · refine .cons hj ?_ .nil
    rintro b hb
    cases hb
    exact hatExit
  · refine hb.jumps.mono fun b t hb => (At.right ?_ h₂).left
    have hsize : extent (is ++ test ++ [.jumpIfFalse exit]) = extent is + extent test + 2 := by
      simp only [extent_append]
      rfl
    rwa [hsize, ← Nat.add_assoc, ← Nat.add_assoc, ← hstart]
  · refine .cons hback ?_ .nil
    rintro b hb
    cases hb
    rw [hhead]
    exact (At.stop h.scan).left.left.left.left

theorem step (h : e.Flows base s is u) (ha : e.At base s is a t)
    (hi : Stands is (a - base) (i :: js)) :
    ∃ t', e t i = some t' ∧ e.At base s is (a + i.width) t' ∧
      ∀ b, i.target? = some b → e.At base s is b t' := by
  obtain ⟨pre, post, rfl, rfl, ht⟩ := ha
  obtain ⟨pre', post', hp, hsize⟩ := hi
  rw [List.append_assoc] at hp
  obtain ⟨rfl, rfl⟩ := append_inj hp (by omega)
  obtain ⟨t₁, ht₁, hrest⟩ := exists_scan_of_append h.scan
  rw [ht] at ht₁
  cases ht₁
  rw [List.cons_append, scan_cons] at hrest
  obtain ⟨t', ht', -⟩ := Option.bind_eq_some_iff.1 hrest
  have hs : e.scan s (pre ++ [i]) = some t' := by
    rw [scan_append_of_eq ht]
    simp [ht']
  refine ⟨t', ht', ⟨pre ++ [i], js ++ post', by simp, ?_, hs⟩, ?_⟩
  · simp [Nat.add_assoc]
  · intro b hb
    exact h.jumps pre i (js ++ post') b t' (by simp) hb hs

end Flows

def Framed (e : Effect α) : Prop :=
  ∀ s i t, e s i = some t → ∀ u, e (s ++ u) i = some (t ++ u)

theorem Framed.scan (hf : e.Framed) (h : e.scan s is = some t) (u : List α) :
    e.scan (s ++ u) is = some (t ++ u) := by
  induction is generalizing s with
  | nil =>
    cases h
    rfl
  | cons i is ih =>
    rw [scan_cons] at h
    obtain ⟨s', hs', h⟩ := Option.bind_eq_some_iff.1 h
    rw [scan_cons, hf s i s' hs' u, Option.bind_some, ih h]

theorem Framed.at (hf : e.Framed) (h : e.At base s is a t) (u : List α) :
    e.At base (s ++ u) is a (t ++ u) := by
  obtain ⟨pre, post, rfl, ha, hs⟩ := h
  exact ⟨pre, post, rfl, ha, hf.scan hs u⟩

end Effect

end Scriptlet
