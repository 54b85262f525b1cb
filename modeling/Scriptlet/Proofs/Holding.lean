import Scriptlet.Proofs.Layers

/-! The values that a machine holds, on its stack, in its frames and in its tables.  A step
makes no functions: a function that is held after it was held before, or is the one that the
instruction names. -/

namespace Scriptlet

namespace Table

variable {t t' : Table} {v w : Value}

def Has (t : Table) (v : Value) : Prop := ∃ k, (k, v) ∈ t.entries

theorem not_has_empty (v : Value) : ¬ empty.Has v := by
  rintro ⟨k, h⟩
  cases h

theorem get_eq_nil_or_has (t : Table) (k : Key) : t.get k = .nil ∨ t.Has (t.get k) := by
  unfold get
  cases h : t.entries.lookup k with
  | none => exact .inl rfl
  | some v =>
    refine .inr ⟨k, ?_⟩
    obtain ⟨l₁, l₂, he, -⟩ := List.lookup_eq_some_iff.1 h
    rw [he]
    simp

theorem has_of_has_set {k : Key} (h : (t.set k w).Has v) : v = w ∨ t.Has v := by
  obtain ⟨k', h⟩ := h
  unfold set at h
  split at h
  · exact .inr ⟨k', (List.mem_filter.1 h).1⟩
  · rcases List.mem_cons.1 h with h | h
    · cases h
      exact .inl rfl
    · exact .inr ⟨k', (List.mem_filter.1 h).1⟩

theorem has_of_has_store {entries : List (Key × Value)} (h : (t.store entries).Has v) :
    (∃ k, (k, v) ∈ entries) ∨ t.Has v := by
  induction entries generalizing t with
  | nil => exact .inr h
  | cons e entries ih =>
    rcases @ih (t.set e.1 e.2) h with ⟨k, hk⟩ | h
    · exact .inl ⟨k, List.mem_cons_of_mem e hk⟩
    · rcases has_of_has_set h with rfl | h
      · exact .inl ⟨e.1, List.mem_cons_self⟩
      · exact .inr h

theorem has_of_sort (hs : t.sort = .ok () t') (h : t'.Has v) :
    v = .nil ∨ t.Has v := by
  simp only [sort] at hs
  split at hs
  · cases hs
  · cases hs
    rcases has_of_has_store h with ⟨k, hk⟩ | h
    · have hv := (List.of_mem_zip hk).2
      rw [List.mem_mergeSort] at hv
      obtain ⟨k', -, rfl⟩ := List.mem_map.1 hv
      exact t.get_eq_nil_or_has k'
    · exact .inr h

end Table

namespace Frame

variable {f : Frame} {x y : String} {v w : Value}

theorem mem_of_get? (h : f.get? x = some v) : (x, v) ∈ f := by
  obtain ⟨l₁, l₂, rfl, -⟩ := List.lookup_eq_some_iff.1 h
  simp

theorem mem_of_mem_bind (h : (y, w) ∈ f.bind x v) : w = v ∨ (y, w) ∈ f := by
  rcases List.mem_cons.1 h with h | h
  · cases h
    exact .inl rfl
  · exact .inr ((List.mem_filter.1 h).1)

end Frame

namespace Machine

variable {host : Host} {m m' : Machine} {v : Value} {i : Instruction}

inductive Holds (m : Machine) (v : Value) : Prop
  | stack : v ∈ m.stack → Holds m v
  | frame {f : Frame} {x : String} : f ∈ m.frames → (x, v) ∈ f → Holds m v
  | table {t : Table} : t ∈ m.heap → t.Has v → Holds m v

theorem holds_of_table {id : Nat} (h : (m.table id).Has v) : m.Holds v := by
  unfold Machine.table at h
  cases ht : m.heap[id]? with
  | none =>
    rw [ht] at h
    exact absurd h (Table.not_has_empty v)
  | some t =>
    rw [ht] at h
    exact .table (Array.mem_of_getElem? ht) h

theorem lookup_eq_nil_or_holds (m : Machine) (x : String) :
    m.lookup x = .nil ∨ m.Holds (m.lookup x) := by
  unfold lookup
  cases h : m.frames.findSome? (·.get? x) with
  | none => exact .inl rfl
  | some v =>
    obtain ⟨f, hf, hv⟩ := List.exists_of_findSome?_eq_some h
    exact .inr (.frame hf (Frame.mem_of_get? hv))

theorem read_eq_nil_or_holds (m : Machine) (id : Nat) (key : Value) :
    m.read id key = .nil ∨ m.Holds (m.read id key) := by
  unfold Machine.read
  cases Key.ofValue? key with
  | none => exact .inl rfl
  | some k =>
    rcases (m.table id).get_eq_nil_or_has k with h | h
    · exact .inl h
    · exact .inr (holds_of_table h)

/-- The value is held by `m`, or is no function at all. -/
def Accounts (m : Machine) (v : Value) : Prop := m.Holds v ∨ v.kind ≠ .function

theorem Accounts.of_nil_or_holds (h : v = .nil ∨ m.Holds v) : m.Accounts v := by
  rcases h with rfl | h
  · exact .inr (by simp [Value.kind])
  · exact .inl h

theorem accounts_of_mem (h : v ∈ m.stack) : m.Accounts v := .inl (.stack h)

theorem accounts_of_stack_eq {ws vs : List Value} (hs : m.stack = ws ++ vs) (h : v ∈ vs) :
    m.Accounts v := by
  refine accounts_of_mem ?_
  rw [hs]
  exact List.mem_append_right ws h

theorem accounts_of_setIfInBounds {id : Nat} {t u : Table} (ht : ∀ v, t.Has v → m.Accounts v)
    (hu : u ∈ m.heap.setIfInBounds id t) (h : u.Has v) : m.Accounts v := by
  rcases Array.mem_or_eq_of_mem_setIfInBounds hu with hu | rfl
  · exact .inl (.table hu h)
  · exact ht v h

theorem accounts_of_rearranges {heap : Array Table} {t : Table} (hr : m.Rearranges heap)
    (ht : t ∈ heap) (h : t.Has v) : m.Accounts v := by
  cases hr with
  | keep => exact .inl (.table ht h)
  | sort hs =>
    refine accounts_of_setIfInBounds (fun v hv => .of_nil_or_holds ?_) ht h
    exact (Table.has_of_sort hs hv).imp_right holds_of_table

theorem accounts_of_bind {f : Frame} {x y : String} {w : Value} (hf : f ∈ m.frames)
    (hw : w ∈ m.stack) (h : (y, v) ∈ f.bind x w) : m.Accounts v := by
  rcases Frame.mem_of_mem_bind h with rfl | h
  · exact accounts_of_mem hw
  · exact .inl (.frame hf h)

theorem Transition.accounts_stack (h : Transition host m i m') (hv : v ∈ m'.stack) :
    m.Accounts v ∨ literal? i = some v := by
  cases h with
  | literal hl =>
    rcases List.mem_cons.1 hv with rfl | hv
    · exact .inr hl
    · exact .inl (accounts_of_mem hv)
  | newTable =>
    rcases List.mem_cons.1 hv with rfl | hv
    · exact .inl (.inr (by simp [Value.kind]))
    · exact .inl (accounts_of_mem hv)
  | @notEqual a b vs hs =>
    rcases List.mem_cons.1 hv with rfl | hv
    · exact .inl (.inr (by simp [Value.kind]))
    · exact .inl (@accounts_of_stack_eq m v [b, a] vs hs hv)
  | @increment n vs hs _ =>
    rcases List.mem_cons.1 hv with rfl | hv
    · exact .inl (.inr (by simp [Value.kind]))
    · exact .inl (@accounts_of_stack_eq m v [_] vs hs hv)
  | @swap a b vs hs =>
    refine .inl (accounts_of_mem ?_)
    rw [hs]
    exact (List.Perm.swap b a vs).mem_iff.1 hv
  | @getEnv x vs hs =>
    rcases List.mem_cons.1 hv with rfl | hv
    · exact .inl (.of_nil_or_holds (m.lookup_eq_nil_or_holds x))
    · exact .inl (@accounts_of_stack_eq m v [_] vs hs hv)
  | @getTable key id vs hs =>
    rcases List.mem_cons.1 hv with rfl | hv
    · exact .inl (.of_nil_or_holds (m.read_eq_nil_or_holds id key))
    · exact .inl (@accounts_of_stack_eq m v [_, _] vs hs hv)
  | @pop w vs hs => exact .inl (@accounts_of_stack_eq m v [_] vs hs hv)
  | @jumpIfFalse a w vs hs => exact .inl (@accounts_of_stack_eq m v [_] vs hs hv)
  | @call args id vs hs _ => exact .inl (@accounts_of_stack_eq m v [_] vs hs hv)
  | @setEnv w x vs f fs hs _ => exact .inl (@accounts_of_stack_eq m v [_, _] vs hs hv)
  | @setEnvGlobal w x vs hs _ => exact .inl (@accounts_of_stack_eq m v [_, _] vs hs hv)
  | @setTable w k id vs hs => exact .inl (@accounts_of_stack_eq m v [_, _, _] vs hs hv)
  | @builtin args b vs m₁ hs hb =>
    obtain ⟨ws, w, ⟨as, -, has⟩, hw, -, hm⟩ := answered_of_callBuiltin hb
    rw [hm] at hv
    rcases List.mem_cons.1 hv with rfl | hv
    · exact .inl (.inr hw)
    · have has : vs = as ++ ws := has
      exact .inl (@accounts_of_stack_eq m v (.function (.builtin b) :: as) ws (by rw [hs, has]; rfl) hv)
  | @ret w vs a calls hs hc =>
    refine .inl (accounts_of_mem ?_)
    rw [hs]
    exact hv
  | jump | enterScope | leaveScope | noOp => exact .inl (accounts_of_mem hv)

theorem Transition.accounts_frames (h : Transition host m i m') {f : Frame} {x : String}
    (hf : f ∈ m'.frames) (hv : (x, v) ∈ f) : m.Accounts v := by
  cases h with
  | @setEnv w y vs g gs hs hg =>
    rcases List.mem_cons.1 hf with rfl | hf
    · exact accounts_of_bind (by simp [hg]) (by simp [hs]) hv
    · exact .inl (.frame (by simp [hg, hf]) hv)
  | @setEnvGlobal w y vs hs _ =>
    obtain ⟨k, hk⟩ := List.mem_iff_getElem?.1 hf
    rw [bindGlobal, List.getElem?_modify] at hk
    obtain ⟨g, hg, rfl⟩ := Option.map_eq_some_iff.1 hk
    have hg := List.mem_of_getElem? hg
    split at hv
    · exact accounts_of_bind hg (by simp [hs]) hv
    · exact .inl (.frame hg hv)
  | enterScope | call =>
    rcases List.mem_cons.1 hf with rfl | hf
    · cases hv
    · exact .inl (.frame hf hv)
  | leaveScope => exact .inl (.frame (List.mem_of_mem_tail hf) hv)
  | ret => exact .inl (.frame (List.mem_of_mem_drop hf) hv)
  | builtin _ hb =>
    obtain ⟨ws, w, hm⟩ := answered_of_callBuiltin hb
    rw [hm.machine] at hf
    exact .inl (.frame hf hv)
  | _ => exact .inl (.frame hf hv)

theorem Transition.accounts_heap (h : Transition host m i m') {t : Table} (ht : t ∈ m'.heap)
    (hv : t.Has v) : m.Accounts v := by
  cases h with
  | newTable =>
    rcases Array.mem_push.1 ht with ht | rfl
    · exact .inl (.table ht hv)
    · exact absurd hv (Table.not_has_empty v)
  | @setTable w k id vs hs =>
    refine accounts_of_setIfInBounds (fun v hv => ?_) ht hv
    rcases Table.has_of_has_set hv with rfl | hv
    · exact accounts_of_mem (by simp [hs])
    · exact .inl (holds_of_table hv)
  | @builtin args b vs m₁ hs hb =>
    obtain ⟨ws, w, hm⟩ := answered_of_callBuiltin hb
    have hacc := accounts_of_rearranges hm.heap ht hv
    exact hacc.imp_left fun
      | .stack h => .stack (by simp [hs, show v ∈ vs from h])
      | .frame hf hx => .frame hf hx
      | .table ht hv => .table ht hv
  | _ => exact .inl (.table ht hv)

theorem Transition.accounts (h : Transition host m i m') (hv : m'.Holds v) :
    m.Accounts v ∨ literal? i = some v := by
  cases hv with
  | stack hv => exact h.accounts_stack hv
  | frame hf hv => exact .inl (h.accounts_frames hf hv)
  | table ht hv => exact .inl (h.accounts_heap ht hv)

end Machine

end Scriptlet
