import Scriptlet.Proofs.Layers

/-! Stretches of a run.  While a row of instructions runs, calls may be made in it and
return; the machine is then at no address of the row, but the activation that runs the row is
to go on at one.  `Spans` is the stretch of a run from the beginning of a row to its end in
one activation. -/

namespace Scriptlet

open Code

namespace Machine

variable {host : Host} {streams : List (List Instruction)} {m m' : Machine} {ms : Nat → Machine}
  {calls : List Activation} {c a : Nat}

theorem Moves.waiting {later : List Activation} {b : Activation} (hm : m.Moves host streams m')
    (h : m.calls = later ++ b :: calls) :
    (∃ later', m'.calls = later' ++ b :: calls) ∨
    (m'.calls = calls ∧ m'.code = b.code ∧ m'.ip = b.ip ∧
      m'.frames = m.frames.drop (m.frames.length - b.depth)) := by
  have back {a : Activation} {rest : List Activation} (hc : m.calls = a :: rest)
      (hcalls : m'.calls = rest) (hcode : m'.code = a.code) (hip : m'.ip = a.ip)
      (hframes : m'.frames = m.frames.drop (m.frames.length - a.depth)) :
      (∃ later', m'.calls = later' ++ b :: calls) ∨
      (m'.calls = calls ∧ m'.code = b.code ∧ m'.ip = b.ip ∧
        m'.frames = m.frames.drop (m.frames.length - b.depth)) := by
    rw [hc] at h
    cases later with
    | nil =>
      obtain ⟨rfl, rfl⟩ := List.cons.inj h
      exact .inr ⟨hcalls, hcode, hip, hframes⟩
    | cons _ later =>
      obtain ⟨rfl, rfl⟩ := List.cons.inj h
      exact .inl ⟨later, hcalls⟩
  cases hm with
  | atEnd _ hc => exact back hc rfl rfl rfl rfl
  | stays hp =>
    obtain ⟨k, w, rfl⟩ := hp
    exact .inl ⟨later, h⟩
  | transition hf ht =>
    cases ht with
    | ret hs hc => exact back hc rfl rfl rfl rfl
    | call hs hid =>
      refine .inl ⟨⟨m.ip + 1, m.code, m.frames.length⟩ :: later, ?_⟩
      rw [List.cons_append, ← h]
    | builtin hs hb =>
      obtain ⟨vs, v, hm⟩ := answered_of_callBuiltin hb
      rw [hm.machine]
      exact .inl ⟨later, h⟩
    | _ => exact .inl ⟨later, h⟩

/-- The activation right above `calls` is at the address `a` of the stream `c`, or waits to
go on there. -/
inductive Above (m : Machine) (calls : List Activation) : Nat → Nat → Prop
  | active : m.calls = calls → Above m calls m.code m.ip
  | waiting {later : List Activation} {b : Activation} : m.calls = later ++ b :: calls →
    Above m calls b.code b.ip

theorem ne_of_waiting {later : List Activation} {b : Activation}
    (h : m.calls = later ++ b :: calls) : m.calls ≠ calls := by
  intro heq
  have hlen := congrArg List.length (heq.symm.trans h)
  rw [List.length_append, List.length_cons] at hlen
  omega

theorem Above.eq_active (h : m.Above calls c a) (hl : m.calls.length ≤ calls.length) :
    m.calls = calls ∧ m.code = c ∧ m.ip = a := by
  cases h with
  | active h => exact ⟨h, rfl, rfl⟩
  | waiting h =>
    rw [h, List.length_append, List.length_cons] at hl
    omega

theorem Above.moves (h : m.Above calls c a) (hm : m.Moves host streams m')
    (hl : calls.length ≤ m'.calls.length) :
    (m'.Above calls c a ∧ (m.calls = calls → m'.calls = calls)) ∨
    (m.calls = calls ∧ m.code = c ∧ m.ip = a ∧ ∃ i js a', m.Faces streams (i :: js) ∧
      (a' = a + i.width ∨ i.target? = some a') ∧ m'.Above calls c a' ∧
      (m'.calls = calls ∨ ∃ args, i = .call args)) := by
  cases h with
  | @waiting later b h =>
    have hne := ne_of_waiting h
    rcases hm.waiting h with ⟨later, h'⟩ | ⟨hcalls, hcode, hip, -⟩
    · exact .inl ⟨.waiting h', fun heq => absurd heq hne⟩
    · rw [← hcode, ← hip]
      exact .inl ⟨.active hcalls, fun heq => absurd heq hne⟩
  | active h =>
    have not_back {b : Activation} {rest : List Activation} (hc : m.calls = b :: rest)
        (hcalls : m'.calls = rest) : False := by
      rw [hcalls, ← h, hc, List.length_cons] at hl
      omega
    cases hm with
    | atEnd _ hc => exact (not_back hc rfl).elim
    | stays hp =>
      obtain ⟨k, w, rfl⟩ := hp
      exact .inl ⟨.active h, fun _ => h⟩
    | @transition i js _ hf ht =>
      cases ht.shifts.2 with
      | within hcode hcalls hip =>
        refine .inr ⟨h, rfl, rfl, i, js, m'.ip, hf, hip, ?_, .inl (hcalls.trans h)⟩
        rw [← hcode]
        exact .active (hcalls.trans h)
      | into hs hid hcalls hcode hip =>
        refine .inr ⟨h, rfl, rfl, _, js, m.ip + 1, hf, .inl rfl, ?_, .inr ⟨_, rfl⟩⟩
        rw [h] at hcalls
        exact @Above.waiting m' calls [] ⟨m.ip + 1, m.code, m.frames.length⟩ hcalls
      | back hc hcalls hcode hip => exact (not_back hc hcalls).elim

theorem Faces.eq_head {i i' : Instruction} {is js js' : List Instruction}
    (h : m.Faces streams (i :: js)) (hs : streams[m.code]? = some is)
    (h' : Stands is m.ip (i' :: js')) : i = i' := by
  obtain ⟨-, is', hs', pre, post, rfl, hpre⟩ := h
  rw [hs] at hs'
  cases hs'
  obtain ⟨pre', post', hp, hpre'⟩ := h'
  rw [hpre] at hpre'
  rw [List.append_assoc, List.append_assoc] at hp
  obtain ⟨-, h⟩ := append_inj hp hpre'
  exact (List.cons.inj h).1

/-- From step `i` to step `j`, one activation runs the row from `start` to `stop` in the
stream `id`: it arrives at `stop` at `j` and not before, and has not returned till then. -/
structure Spans (ms : Nat → Machine) (id start stop i j : Nat) : Prop where
  le : i ≤ j
  enters : (ms i).code = id ∧ (ms i).ip = start
  inside : ∀ k, i ≤ k → k < j → (ms i).calls.length ≤ (ms k).calls.length ∧
    ((ms k).calls.length = (ms i).calls.length → (ms k).ip ≠ stop)
  leaves : (ms j).calls.length = (ms i).calls.length ∧
    (ms j).ip = stop

theorem Spans.step {α : Type} {e : Effect α} {s t u : List α} {id start i j k : Nat}
    {is js js' : List Instruction} {i' : Instruction}
    (h : Spans ms id start (start + extent js) i j) (hs : streams[id]? = some is)
    (hjs : Stands is start js) (hf : e.Flows start s js u) (hi : i ≤ k) (hj : k < j)
    (hcalls : (ms k).calls = (ms i).calls) (hcode : (ms k).code = id)
    (hat : e.At start s js (ms k).ip t)
    (hface : (ms k).Faces streams (i' :: js')) :
    ∃ t', e t i' = some t' ∧ e.At start s js ((ms k).ip + i'.width) t' ∧
      ∀ b, i'.target? = some b → e.At start s js b t' := by
  rcases hat.cases_stop with hstop | ⟨i'', js'', hi''⟩
  · exact absurd hstop ((h.inside k hi hj).2 (by rw [hcalls]))
  · have hstands := hjs.trans hi''
    rw [Nat.add_sub_cancel' hat.le.1] at hstands
    cases hface.eq_head (hcode ▸ hs) hstands
    exact hf.step hat hi''

theorem Spans.above {α : Type} {e : Effect α} {s u : List α} {id start i j : Nat}
    {is js : List Instruction} (h : Spans ms id start (start + extent js) i j)
    (hs : streams[id]? = some is) (hjs : Stands is start js) (hf : e.Flows start s js u)
    (hc : Course m ms) (hm : ∀ k, (ms k).Placed streams) {k : Nat} (hi : i ≤ k) (hj : k ≤ j) :
    ∃ a t, (ms k).Above (ms i).calls id a ∧ e.At start s js a t ∧
      ((ms k).calls ≠ (ms i).calls →
        ∃ args t₀, e t₀ (.call args) = some t) := by
  induction hi with
  | refl =>
    refine ⟨_, s, ?_, .start, fun hne => absurd rfl hne⟩
    rw [← h.enters.1, ← h.enters.2]
    exact .active rfl
  | @step k hi ih =>
    obtain ⟨a, t, ha, hat, hwait⟩ := ih (Nat.le_of_lt hj)
    have hl : (ms i).calls.length ≤ (ms (k + 1)).calls.length := by
      rcases Nat.lt_or_eq_of_le hj with hlt | heq
      · exact (h.inside (k + 1) (Nat.le_succ_of_le hi) hlt).1
      · rw [show k + 1 = j from heq]
        exact Nat.le_of_eq h.leaves.1.symm
    obtain ⟨host, hmoves⟩ := hc.moves (hm k)
    rcases ha.moves hmoves hl with
      ⟨h', hsame⟩ | ⟨hcalls, hcode, hip, i', js', a', hface, ha', h', hcall⟩
    · exact ⟨a, t, h', hat, fun hne => hwait fun heq => hne (hsame heq)⟩
    · subst hip
      obtain ⟨t', ht', hnext, hjump⟩ := h.step hs hjs hf hi hj hcalls hcode hat hface
      refine ⟨a', t', h', ?_, fun hne => ?_⟩
      · rcases ha' with rfl | ha'
        · exact hnext
        · exact hjump a' ha'
      · rcases hcall with hcall | ⟨args, rfl⟩
        · exact absurd hcall hne
        · exact ⟨args, t, ht'⟩

theorem Above.of_step (hm : m.Placed streams) (hstep : Machine.step host m = .ok true m')
    (h : m'.Above calls c a) :
    (m.Above calls c a ∧ calls.length < m.calls.length) ∨
    (m.calls = calls ∧ m.code = c ∧
      ∃ i js, m.Faces streams (i :: js) ∧ (a = m.ip + i.width ∨ i.target? = some a)) ∨
    a = 0 := by
  have waits {later : List Activation} {b : Activation} (hc : m.calls = later ++ b :: calls) :
      m.Above calls b.code b.ip ∧ calls.length < m.calls.length := by
    refine ⟨.waiting hc, ?_⟩
    rw [hc, List.length_append, List.length_cons]
    omega
  have back {b : Activation} {rest : List Activation} (hc : m.calls = b :: rest)
      (hcalls : m'.calls = rest) (hcode : m'.code = b.code) (hip : m'.ip = b.ip) :
      m.Above calls c a ∧ calls.length < m.calls.length := by
    cases h with
    | active h =>
      rw [hcode, hip]
      rw [h] at hcalls
      exact @waits [] b (hcalls ▸ hc)
    | @waiting later d h =>
      rw [← hcalls, h] at hc
      exact @waits (b :: later) d hc
  obtain ⟨i, js, hf, ht⟩ | ⟨-, b, rest, hc, rfl⟩ := cases_of_step hm hstep
  · cases ht.shifts.2 with
    | within hcode hcalls hip =>
      cases h with
      | active h => exact .inr (.inl ⟨hcalls ▸ h, hcode.symm, i, js, hf, hip⟩)
      | waiting h => exact .inl (waits (hcalls ▸ h))
    | into hs hid hcalls hcode hip =>
      cases h with
      | active h => exact .inr (.inr hip)
      | @waiting later b h =>
        rw [hcalls] at h
        cases later with
        | nil =>
          obtain ⟨rfl, rfl⟩ := List.cons.inj h
          exact .inr (.inl ⟨rfl, rfl, _, js, hf, .inl rfl⟩)
        | cons d later => exact .inl (waits (List.cons.inj h).2)
    | back hc hcalls hcode hip => exact .inl (back hc hcalls hcode hip)
  · exact .inl (back hc rfl rfl rfl)

/-- Since step `i` the activation right above `calls` has gone on from `start` in the stream
`id`, and it has come no further than to `a`. -/
structure Advances (host : Host) (m : Machine) (calls : List Activation) (id start a i n : Nat) :
    Prop where
  le : i ≤ n
  enters : (m.after host i).calls = calls ∧ (m.after host i).code = id ∧
    (m.after host i).ip = start
  inside : ∀ k, i ≤ k → k < n → calls.length ≤ (m.after host k).calls.length ∧
    ((m.after host k).calls.length = calls.length → (m.after host k).ip < a)

namespace Advances

variable {id start b i n : Nat}

theorem spans (h : Advances host m calls id start a i n) (hcalls : (m.after host n).calls = calls)
    (hip : (m.after host n).ip = a) : Spans (m.after host) id start a i n := by
  obtain ⟨hle, ⟨rfl, henters⟩, hinside⟩ := h
  refine ⟨hle, henters, fun k hi hk => ?_, by rw [hcalls], hip⟩
  obtain ⟨hlen, hlt⟩ := hinside k hi hk
  exact ⟨hlen, fun heq => Nat.ne_of_lt (hlt heq)⟩

theorem begin (hcalls : (m.after host n).calls = calls) (hcode : (m.after host n).code = id)
    (hip : (m.after host n).ip = start) (ha : start < a) :
    Advances host m calls id start a n (n + 1) := by
  refine ⟨Nat.le_succ n, ⟨hcalls, hcode, hip⟩, fun k hi hk => ?_⟩
  cases Nat.le_antisymm hi (Nat.le_of_lt_succ hk)
  exact ⟨Nat.le_of_eq (by rw [hcalls]), fun _ => by rwa [hip]⟩

theorem extend (h : Advances host m calls id start b i n) (hb : b ≤ a)
    (hn : calls.length ≤ (m.after host n).calls.length ∧
      ((m.after host n).calls.length = calls.length → (m.after host n).ip < a)) :
    Advances host m calls id start a i (n + 1) := by
  refine ⟨Nat.le_succ_of_le h.le, h.enters, fun k hi hk => ?_⟩
  rcases Nat.lt_or_eq_of_le (Nat.le_of_lt_succ hk) with hlt | rfl
  · obtain ⟨hlen, hip⟩ := h.inside k hi hlt
    exact ⟨hlen, fun heq => Nat.lt_of_lt_of_le (hip heq) hb⟩
  · exact hn

end Advances

theorem exists_advances {id start stop n : Nat} {is row : List Instruction}
    (hs : streams[id]? = some is) (hrow : Stands is start row)
    (hjumps : ∀ {b i js a}, Stands is b (i :: js) → i.target? = some a → start < a → stop < a)
    (hm : ∀ k, (m.after host k).Placed streams) (hcalls₀ : m.calls = []) (hip₀ : m.ip = 0)
    (hrun : Runs host m n) (h : (m.after host n).Above calls id a) (hlt : start < a)
    (hle : a ≤ stop) : ∃ i, Advances host m calls id start a i n := by
  induction n generalizing calls a with
  | zero =>
    cases h with
    | active h =>
      rw [after_zero, hip₀] at hlt
      cases hlt
    | waiting h => simp [hcalls₀] at h
  | succ n ih =>
    have hn : Runs host m n := fun k hk => hrun k (Nat.lt_succ_of_lt hk)
    obtain ⟨m', hstep⟩ := hrun n (Nat.lt_succ_self n)
    rw [after_succ, successor, hstep, stateOf_ok] at h
    obtain ⟨h, hlater⟩ | ⟨hcalls, hcode, i, js, hf, hgo⟩ | rfl := h.of_step (hm n) hstep
    · obtain ⟨i, hi⟩ := ih hn h hlt hle
      exact ⟨i, hi.extend (Nat.le_refl a)
        ⟨Nat.le_of_lt hlater, fun heq => absurd heq (Nat.ne_of_gt hlater)⟩⟩
    · obtain ⟨-, is', hs', hstands⟩ := hf
      rw [hcode, hs] at hs'
      cases hs'
      subst hcode
      rcases hgo with rfl | hgo
      · -- The step is one in the row, or it is the first one of it.
        have hwidth := i.width_pos
        have hstart := hstands.le_of_lt hrow hlt
        rcases Nat.lt_or_eq_of_le hstart with hin | heq
        · obtain ⟨j, hj⟩ := ih hn (.active hcalls) hin (by omega)
          exact ⟨j, hj.extend (by omega) ⟨Nat.le_of_eq (by rw [hcalls]), fun _ => by omega⟩⟩
        · exact ⟨n, .begin hcalls rfl heq.symm hlt⟩
      · exact absurd (hjumps hstands hgo hlt) (Nat.not_lt.2 hle)
    · cases hlt

end Machine

end Scriptlet
