import Scriptlet.Proofs.Effect
import Scriptlet.Proofs.Transition

/-! Reading a running machine.  A `Reading` tells for each stream of a program what is open
at its beginning and how its instructions change that.  A machine has one layer of open
things for the active stream and one for every stream that waits for a return, the latest
first; no step takes it off its layers. -/

namespace Scriptlet

open Code

def Builtin.arity : Builtin → Nat
  | stringByte => 2
  | _ => 1

namespace Machine

variable {host : Host} {m m' : Machine}

inductive Rearranges (m : Machine) : Array Table → Prop
  | keep : Rearranges m m.heap
  | sort {id : Nat} {t : Table} : (m.table id).sort = .ok () t →
    Rearranges m (m.heap.setIfInBounds id t)

/-- The machine once a builtin has taken its arguments from above `vs` and left `v`. -/
structure Answered (m : Machine) (b : Builtin) (vs : List Value) (v : Value) (m' : Machine) :
    Prop where
  args : ∃ args, args.length = b.arity ∧ m.stack = args ++ vs
  plain : v.kind ≠ .function
  heap : m.Rearranges m'.heap
  machine : m' = { m with stack := v :: vs, heap := m'.heap, written := m'.written }

theorem written_of_write {chunk : ByteArray} (h : write host chunk m = .ok () m') :
    m' = { m with written := m'.written } := by
  rw [write, bind_of_ok (get_machine m)] at h
  cases hw : host.sink.write m.written chunk with
  | taken =>
    rw [hw] at h
    cases h
    rfl
  | refused kept reason =>
    rw [hw] at h
    cases h

theorem answered_of_callBuiltin {b : Builtin} (h : callBuiltin host b m = .ok () m') :
    ∃ vs v, m.Answered b vs v m' := by
  cases b with
  | print =>
    obtain ⟨v, _, hv, h⟩ := exists_of_bind_eq_ok h
    obtain ⟨vs, hs, rfl⟩ := stack_of_pop hv
    obtain ⟨_, m₁, hw, h⟩ := exists_of_bind_eq_ok h
    have hm := written_of_write hw
    cases h
    rw [hm]
    exact ⟨vs, .nil, ⟨[v], rfl, hs⟩, by simp [Value.kind], .keep, rfl⟩
  | stringLen =>
    obtain ⟨s, _, hv, h⟩ := exists_of_bind_eq_ok h
    obtain ⟨vs, hs, rfl⟩ := stack_of_popString hv
    cases h
    exact ⟨vs, _, ⟨[.string s], rfl, hs⟩, by simp [Value.kind], .keep, rfl⟩
  | stringByte =>
    obtain ⟨i, _, hi, h⟩ := exists_of_bind_eq_ok h
    obtain ⟨vs, hs, rfl⟩ := stack_of_popNumber hi
    obtain ⟨s, _, hv, h⟩ := exists_of_bind_eq_ok h
    obtain ⟨ws, rfl, rfl⟩ := stack_of_popString hv
    cases h
    refine ⟨ws, _, ⟨[.number i, .string s], rfl, hs⟩, ?_, .keep, rfl⟩
    split
    · split <;> simp [Value.kind]
    · simp [Value.kind]
  | tableLen =>
    obtain ⟨id, _, hv, h⟩ := exists_of_bind_eq_ok h
    obtain ⟨vs, hs, rfl⟩ := stack_of_popTable hv
    cases h
    exact ⟨vs, _, ⟨[.table id], rfl, hs⟩, by simp [Value.kind], .keep, rfl⟩
  | tableSort =>
    obtain ⟨id, _, hv, h⟩ := exists_of_bind_eq_ok h
    obtain ⟨vs, hs, rfl⟩ := stack_of_popTable hv
    rw [bind_of_ok (get_machine _)] at h
    cases ht : (m.table id).sort with
    | error kinds t =>
      have ht' : (table { m with stack := vs } id).sort = .error kinds t := ht
      rw [ht'] at h
      cases h
    | ok _ t =>
      have ht' : (table { m with stack := vs } id).sort = .ok () t := ht
      rw [ht'] at h
      cases h
      exact ⟨vs, .nil, ⟨[.table id], rfl, hs⟩, by simp [Value.kind], .sort ht, rfl⟩

inductive Shifts (m : Machine) : Instruction → Machine → Prop
  | within {i : Instruction} {m' : Machine} : m'.code = m.code → m'.calls = m.calls →
    (m'.ip = m.ip + i.width ∨ i.target? = some m'.ip) → Shifts m i m'
  | into {args id : Nat} {vs : List Value} {m' : Machine} :
    m.stack = .function (.compiled id) :: vs → id < m.program.code.size →
    m'.calls = ⟨m.ip + 1, m.code, m.frames.length⟩ :: m.calls → m'.code = id → m'.ip = 0 →
    Shifts m (.call args) m'
  | back {a : Activation} {calls : List Activation} {m' : Machine} :
    m.calls = a :: calls → m'.calls = calls → m'.code = a.code → m'.ip = a.ip →
    Shifts m .ret m'

theorem Transition.shifts {i : Instruction} (h : Transition host m i m') :
    m'.program = m.program ∧ m.Shifts i m' := by
  cases h with
  | jump => exact ⟨rfl, .within rfl rfl (.inr rfl)⟩
  | @jumpIfFalse a v vs hs =>
    refine ⟨rfl, .within rfl rfl ?_⟩
    cases v.isTruthy with
    | true => exact .inl rfl
    | false => exact .inr rfl
  | call hs hid => exact ⟨rfl, .into hs hid rfl rfl rfl⟩
  | builtin hs hb =>
    obtain ⟨vs, v, hm⟩ := answered_of_callBuiltin hb
    rw [hm.machine]
    exact ⟨rfl, .within rfl rfl (.inl rfl)⟩
  | ret hs hc => exact ⟨rfl, .back hc rfl rfl rfl⟩
  | _ => exact ⟨rfl, .within rfl rfl (.inl rfl)⟩

end Machine

structure Reading (α : Type) (streams : List (List Instruction)) where
  effect : Effect α
  entry : Nat → List α
  flows : ∀ {id is}, streams[id]? = some is → ∃ t, effect.Flows 0 (entry id) is t

namespace Reading

variable {α : Type} {streams : List (List Instruction)} {R : Reading α streams}
  {host : Host} {m m' : Machine} {t : List α} {ts : List (List α)}

def At (R : Reading α streams) (id a : Nat) (t : List α) : Prop :=
  ∃ is, streams[id]? = some is ∧ R.effect.At 0 (R.entry id) is a t

theorem At.unique {id a : Nat} {u : List α} (h : R.At id a t) (h' : R.At id a u) : t = u := by
  obtain ⟨is, hs, h⟩ := h
  obtain ⟨is', hs', h'⟩ := h'
  rw [hs] at hs'
  cases hs'
  exact Effect.At.unique h h'

theorem At.part {id a b : Nat} {is js : List Instruction} {u : List α} (h : R.At id a t)
    (hs : streams[id]? = some is) (hjs : Stands is a js) (hu : R.effect.At a t js b u) :
    R.At id b u := by
  obtain ⟨is', hs', pre, post, his, ha, hscan⟩ := h
  rw [hs] at hs'
  cases hs'
  obtain ⟨pre', post', his', ha'⟩ := hjs
  rw [Nat.zero_add] at ha
  rw [his, List.append_assoc] at his'
  obtain ⟨rfl, rfl⟩ := append_inj his' (ha.symm.trans ha')
  refine ⟨is, hs, ?_⟩
  rw [his]
  refine .right (.left ?_) hscan
  rwa [Nat.zero_add, ← ha]

theorem At.ofPart {id a b : Nat} {is js : List Instruction} {u : List α} (h : R.At id a t)
    (hs : streams[id]? = some is) (hjs : Stands is a js) (hu : R.At id b u) (hle : a ≤ b)
    (hle' : b ≤ a + extent js) : R.effect.At a t js b u := by
  obtain ⟨is₁, hs₁, pre, post, his, ha, ht⟩ := h
  obtain ⟨is₂, hs₂, pre', post', his', hb, hu⟩ := hu
  obtain ⟨pre₀, post₀, his₀, ha₀⟩ := hjs
  rw [hs] at hs₁ hs₂
  cases hs₁
  cases hs₂
  rw [Nat.zero_add] at ha hb
  subst ha hb
  rw [his, List.append_assoc] at his₀
  obtain ⟨rfl, rfl⟩ := append_inj his₀ ha₀
  obtain ⟨r, rfl, hr⟩ := exists_append_of_le (his.symm.trans his') hle
  rw [extent_append] at hle'
  obtain ⟨r', rfl, -⟩ := exists_append_of_le hr.symm (Nat.le_of_add_le_add_left hle')
  refine ⟨r, r', rfl, extent_append _ _, ?_⟩
  rwa [Effect.scan_append_of_eq ht] at hu

theorem at_entry {id : Nat} (h : id < streams.length) : R.At id 0 (R.entry id) :=
  ⟨streams[id], List.getElem?_eq_getElem h, .start⟩

/-- One layer for each stream that is not done, down to the script. -/
inductive Layers (R : Reading α streams) :
    (code ip : Nat) → List Activation → List (List α) → Prop
  | script {ip : Nat} {t : List α} : R.At 0 ip t → Layers R 0 ip [] [t]
  | call {code ip : Nat} {a : Activation} {calls : List Activation} {t : List α}
    {ts : List (List α)} : R.At code ip t → Layers R a.code a.ip calls ts →
    Layers R code ip (a :: calls) (t :: ts)

theorem Layers.active {code ip : Nat} {calls : List Activation}
    (h : R.Layers code ip calls ts) : ∃ t rest, ts = t :: rest ∧ R.At code ip t := by
  cases h with
  | script h => exact ⟨_, _, rfl, h⟩
  | call h _ => exact ⟨_, _, rfl, h⟩

theorem Layers.replace {code ip ip' : Nat} {calls : List Activation} {t' : List α}
    (h : R.Layers code ip calls (t :: ts)) (h' : R.At code ip' t') :
    R.Layers code ip' calls (t' :: ts) := by
  cases h with
  | script _ => exact .script h'
  | call _ hs => exact .call h' hs

theorem Layers.tail {code ip : Nat} {a : Activation} {calls : List Activation}
    (h : R.Layers code ip (a :: calls) (t :: ts)) : R.Layers a.code a.ip calls ts := by
  cases h with
  | call _ hs => exact hs

theorem Layers.eq_nil {code ip : Nat} {calls : List Activation}
    (h : R.Layers code ip calls (t :: ts)) (hc : calls = []) : ts = [] := by
  cases h with
  | script _ => rfl
  | call _ _ => cases hc

theorem Layers.length_eq {code ip : Nat} {calls : List Activation}
    (h : R.Layers code ip calls ts) : ts.length = calls.length + 1 := by
  induction h with
  | script _ => rfl
  | call _ _ ih => simp [ih]

theorem Layers.tail_eq {code ip code' ip' : Nat} {calls : List Activation} {t' : List α}
    {ts' : List (List α)} (h : R.Layers code ip calls (t :: ts))
    (h' : R.Layers code' ip' calls (t' :: ts')) : ts = ts' := by
  induction calls generalizing code ip code' ip' t t' ts ts' with
  | nil => exact (h.eq_nil rfl).trans (h'.eq_nil rfl).symm
  | cons a calls ih =>
    obtain ⟨u, rest, rfl, hu⟩ := h.tail.active
    obtain ⟨u', rest', rfl, hu'⟩ := h'.tail.active
    rw [hu.unique hu', ih h.tail h'.tail]

theorem Layers.saved {code ip : Nat} {calls : List Activation} (h : R.Layers code ip calls ts) :
    ∀ a ∈ calls, ∃ t, R.At a.code a.ip t := by
  induction h with
  | script _ => simp
  | call _ hs ih =>
    intro a ha
    rcases List.mem_cons.1 ha with rfl | ha
    · obtain ⟨t, _, _, h⟩ := hs.active
      exact ⟨t, h⟩
    · exact ih a ha

structure Layered (R : Reading α streams) (m : Machine) (ts : List (List α)) : Prop where
  program : m.program = assemble streams
  layers : R.Layers m.code m.ip m.calls ts

namespace Layered

theorem placed (h : R.Layered m ts) : m.Placed streams := by
  obtain ⟨t, _, -, is, hs, pre, post, rfl, ha, -⟩ := h.layers.active
  rw [Nat.zero_add] at ha
  cases post with
  | nil => exact .inr ⟨h.program, _, hs, by simpa using ha⟩
  | cons i js => exact .inl ⟨i, js, h.program, _, hs, pre, [], by simp, ha⟩

theorem read {i : Instruction} {js : List Instruction} (h : R.Layered m (t :: ts))
    (hf : m.Faces streams (i :: js)) :
    ∃ t', R.effect t i = some t' ∧ R.At m.code (m.ip + i.width) t' ∧
      ∀ b, i.target? = some b → R.At m.code b t' := by
  obtain ⟨_, _, hts, is, hs, ha⟩ := h.layers.active
  cases hts
  obtain ⟨-, is', hs', hi⟩ := hf
  rw [hs] at hs'
  cases hs'
  obtain ⟨u, hu⟩ := R.flows hs
  obtain ⟨t', ht', hnext, hjump⟩ := hu.step ha hi
  exact ⟨t', ht', ⟨is, hs, hnext⟩, fun b hb => ⟨is, hs, hjump b hb⟩⟩

theorem within {i : Instruction} {js : List Instruction} (h : R.Layered m (t :: ts))
    (hf : m.Faces streams (i :: js)) (hp : m'.program = m.program) (hcode : m'.code = m.code)
    (hcalls : m'.calls = m.calls) (hip : m'.ip = m.ip + i.width ∨ i.target? = some m'.ip) :
    ∃ t', R.effect t i = some t' ∧ R.Layered m' (t' :: ts) := by
  obtain ⟨t', ht', hnext, hjump⟩ := h.read hf
  refine ⟨t', ht', hp.trans h.program, ?_⟩
  rw [hcode, hcalls]
  refine h.layers.replace ?_
  rcases hip with hip | hip
  · rw [hip]
    exact hnext
  · exact hjump _ hip

theorem into {args id : Nat} {js : List Instruction} (h : R.Layered m (t :: ts))
    (hf : m.Faces streams (.call args :: js)) (hid : id < m.program.code.size) {depth : Nat}
    (hp : m'.program = m.program) (hcalls : m'.calls = ⟨m.ip + 1, m.code, depth⟩ :: m.calls)
    (hcode : m'.code = id) (hip : m'.ip = 0) :
    ∃ t', R.effect t (.call args) = some t' ∧ R.Layered m' (R.entry id :: t' :: ts) := by
  obtain ⟨t', ht', hnext, -⟩ := h.read hf
  refine ⟨t', ht', hp.trans h.program, ?_⟩
  rw [hcalls, hcode, hip]
  rw [h.program, size_code_assemble] at hid
  exact .call (at_entry hid) (h.layers.replace hnext)

theorem back {a : Activation} {calls : List Activation} (h : R.Layered m (t :: ts))
    (hc : m.calls = a :: calls) (hp : m'.program = m.program) (hcalls : m'.calls = calls)
    (hcode : m'.code = a.code) (hip : m'.ip = a.ip) : R.Layered m' ts := by
  refine ⟨hp.trans h.program, ?_⟩
  have hl := h.layers
  rw [hc] at hl
  rw [hcalls, hcode, hip]
  exact hl.tail

theorem shift {i : Instruction} {js : List Instruction} (h : R.Layered m (t :: ts))
    (hf : m.Faces streams (i :: js)) (hp : m'.program = m.program) (hs : m.Shifts i m') :
    ∃ ts', R.Layered m' ts' := by
  cases hs with
  | within hcode hcalls hip =>
    obtain ⟨t', -, h'⟩ := h.within hf hp hcode hcalls hip
    exact ⟨_, h'⟩
  | into hs hid hcalls hcode hip =>
    obtain ⟨t', -, h'⟩ := h.into hf hid hp hcalls hcode hip
    exact ⟨_, h'⟩
  | back hc hcalls hcode hip => exact ⟨_, h.back hc hp hcalls hcode hip⟩

theorem popped (h : R.Layered m ts) (hp : m.Popped m') : R.Layered m' ts := by
  obtain ⟨k, w, rfl⟩ := hp
  exact ⟨h.program, h.layers⟩

theorem moves (h : R.Layered m ts) (hm : m.Moves host streams m') : ∃ ts', R.Layered m' ts' := by
  obtain ⟨t, rest, rfl, -⟩ := h.layers.active
  cases hm with
  | transition hf ht => exact h.shift hf ht.shifts.1 ht.shifts.2
  | atEnd _ hc => exact ⟨_, h.back hc rfl rfl rfl rfl⟩
  | stays hp => exact ⟨_, h.popped hp⟩

theorem start (R : Reading α streams) (h : streams ≠ []) :
    R.Layered (.ofProgram (assemble streams)) [R.entry 0] :=
  ⟨rfl, .script (at_entry (List.length_pos_iff.2 h))⟩

theorem successor (h : R.Layered m ts) (host : Host) : ∃ ts', R.Layered (m.successor host) ts' :=
  h.moves (Machine.moves_successor h.placed host)

end Layered

end Reading

end Scriptlet
