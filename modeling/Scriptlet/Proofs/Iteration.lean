import Scriptlet.Proofs.Border
import Scriptlet.Proofs.Stretch

/-! Loops that count.  A loop from one number to another runs its body once for each number from
the first up to the bound, which is left out, and with the number as the value of its variable;
since it goes on until the two are equal, one that begins above the bound only ends when there is
no next number.  This holds of every body that leaves the variable alone in its own scope and that
is run to its end whenever it is begun. -/

namespace Scriptlet

open Code

namespace Machine

/-- The instructions, one after the other, make `m'` of `m` in one activation.  Only the last one
may jump. -/
inductive Performs (host : Host) : Machine → List Instruction → Machine → Prop
  | last {m m' : Machine} {i : Instruction} : Transition host m i m' → m'.code = m.code →
    m'.calls = m.calls → Performs host m [i] m'
  | next {m m₁ m' : Machine} {i : Instruction} {is : List Instruction} :
    Transition host m i m₁ → m₁.code = m.code → m₁.calls = m.calls → m₁.ip = m.ip + i.width →
    Performs host m₁ is m' → Performs host m (i :: is) m'

variable {host : Host} {ns : List Node} {hns : ∀ n ∈ ns, n.Statement} {m m' m₀ : Machine}

theorem Performs.acts {is : List Instruction} (h : Performs host m is m') :
    m'.code = m.code ∧ m'.calls = m.calls := by
  induction h with
  | last _ hcode hcalls => exact ⟨hcode, hcalls⟩
  | next _ hcode hcalls _ _ ih => exact ⟨ih.1.trans hcode, ih.2.trans hcalls⟩

theorem passes_of_faces {i : Instruction} {js : List Instruction} {R : Nat → Nat → Prop}
    (h : m.Faces (Script.streams ns) (i :: js)) (hi : ∀ args, i ≠ .call args) : Passes ns R m := by
  intro args f vs hf
  obtain ⟨-, is, hs, hstands⟩ := h
  exact absurd (hf.eq_head hs hstands).symm (hi args)

theorem Faces.next {i : Instruction} {js : List Instruction} {streams : List (List Instruction)}
    (h : m.Faces streams (i :: js)) (hp : m'.program = m.program) (hcode : m'.code = m.code)
    (hip : m'.ip = m.ip + i.width) : m'.Faces streams js := by
  obtain ⟨hprogram, is, hs, hstands⟩ := h
  refine ⟨hp.trans hprogram, is, hcode ▸ hs, ?_⟩
  rw [hip]
  exact hstands.tail

theorem Performs.run {is js : List Instruction} (h : Performs host m is m')
    (hf : m.Faces (Script.streams ns) (is ++ js)) (hcall : ∀ i ∈ is, ∀ args, i ≠ .call args) :
    m.after host is.length = m' ∧ RunsExactly host ns m is.length ∧
      ∀ l, l < is.length → (m.after host l).calls = m.calls ∧ m.ip + l ≤ (m.after host l).ip ∧
        (m.after host l).ip < m.ip + extent is := by
  have one {m m' : Machine} {i : Instruction} {js : List Instruction}
      (ht : Transition host m i m') (hf : m.Faces (Script.streams ns) (i :: js))
      (hi : ∀ args, i ≠ .call args) : m.after host 1 = m' ∧ RunsExactly host ns m 1 := by
    refine ⟨ht.successor hf, runs_one (ht.step hf), fun k hk => ?_⟩
    cases Nat.lt_one_iff.1 hk
    exact passes_of_faces hf hi
  induction h with
  | @last m m' i ht hcode hcalls =>
    obtain ⟨hafter, hrun⟩ := one ht hf (hcall i List.mem_cons_self)
    refine ⟨hafter, hrun, fun l hl => ?_⟩
    cases Nat.lt_one_iff.1 hl
    have := i.width_pos
    exact ⟨rfl, Nat.le_refl _, by simpa using this⟩
  | @next m m₁ m' i is ht hcode hcalls hip _ ih =>
    obtain ⟨hi, his⟩ := List.forall_mem_cons.1 hcall
    obtain ⟨hafter, hrun⟩ := one ht hf hi
    obtain ⟨hend, hruns, hinside⟩ := ih (hf.next ht.shifts.1 hcode hip) his
    have hshift (l : Nat) : m.after host (1 + l) = m₁.after host l := by rw [after_add, hafter]
    have hwidth := i.width_pos
    rw [List.length_cons, Nat.add_comm, hshift]
    refine ⟨hend, hrun.add (by rwa [hafter]), fun l hl => ?_⟩
    cases l with
    | zero => exact ⟨rfl, Nat.le_refl _, by simp only [after_zero, extent_cons]; omega⟩
    | succ l =>
      obtain ⟨hcalls', hlow, hhigh⟩ := hinside l (by omega)
      rw [Nat.add_comm l 1, hshift, extent_cons]
      exact ⟨hcalls'.trans hcalls, by omega, by omega⟩

/-- The activation that runs in `m₀` is at the address `a` of the stream `id` in `m`. -/
def ActsAt (m m₀ : Machine) (id a : Nat) : Prop := m.calls = m₀.calls ∧ m.code = id ∧ m.ip = a

instance (m m₀ : Machine) (id a : Nat) : Decidable (m.ActsAt m₀ id a) :=
  inferInstanceAs (Decidable (_ ∧ _ ∧ _))

def arrivals (host : Host) (m m₀ : Machine) (id a i j : Nat) : List Nat :=
  (List.range' i (j - i)).filter fun k => (m.after host k).ActsAt m₀ id a

section Arrivals

variable {id a i j k : Nat}

theorem arrivals_append (hij : i ≤ j) (hjk : j ≤ k) :
    arrivals host m m₀ id a i k = arrivals host m m₀ id a i j ++ arrivals host m m₀ id a j k := by
  have hcut := @List.range'_append i (j - i) (k - j) 1
  rw [Nat.one_mul, Nat.add_sub_cancel' hij, show j - i + (k - j) = k - i by omega] at hcut
  rw [arrivals, ← hcut, List.filter_append]
  rfl

theorem arrivals_eq_nil (h : ∀ l, i ≤ l → l < j → ¬ (m.after host l).ActsAt m₀ id a) :
    arrivals host m m₀ id a i j = [] := by
  refine List.filter_eq_nil_iff.2 fun l hl => ?_
  rw [List.mem_range'_1] at hl
  simpa using h l hl.1 (by omega)

theorem arrivals_eq_singleton (hij : i < j) (hi : (m.after host i).ActsAt m₀ id a)
    (h : ∀ l, i < l → l < j → ¬ (m.after host l).ActsAt m₀ id a) :
    arrivals host m m₀ id a i j = [i] := by
  rw [arrivals_append (Nat.le_add_right i 1) hij, arrivals_eq_nil h, arrivals,
    Nat.add_sub_cancel_left]
  simp [hi]

def values (host : Host) (m m₀ : Machine) (id a : Nat) (x : String) (i j : Nat) : List Value :=
  (arrivals host m m₀ id a i j).map fun k => (m.after host k).lookup x

theorem values_append {x : String} (hij : i ≤ j) (hjk : j ≤ k) :
    values host m m₀ id a x i k = values host m m₀ id a x i j ++ values host m m₀ id a x j k := by
  rw [values, arrivals_append hij hjk, List.map_append]
  rfl

theorem values_eq_nil {x : String} (h : ∀ l, i ≤ l → l < j → ¬ (m.after host l).ActsAt m₀ id a) :
    values host m m₀ id a x i j = [] := by
  rw [values, arrivals_eq_nil h, List.map_nil]

end Arrivals

def ascending (x : Int64) (count : Nat) : List Value :=
  (List.range count).map fun k : Nat => .number (.ofInt (x.toInt + k))

theorem ascending_succ (x : Int64) (count : Nat) :
    ascending x (count + 1) = .number x :: ascending (x + 1) count := by
  rw [ascending, List.range_succ_eq_map, List.map_cons, List.map_map]
  refine congr (congrArg List.cons ?_) (List.map_congr_left fun k _ => ?_)
  · simp
  · have hone : Int64.ofInt 1 = 1 := rfl
    simp only [Function.comp_apply, Int.natCast_succ, Int64.ofInt_add, Int64.ofInt_toInt, hone]
    rw [Int64.add_assoc, Int64.add_comm (.ofInt k)]

/-- A loop whose variable counts from a number to another, as it stands from `base` on in the
stream `id`.  The instructions of its body are `row`. -/
structure Counter where
  id : Nat
  base : Nat
  name : String
  first : Int64
  bound : Int64
  row : List Instruction

namespace Counter

variable (c : Counter)

def head : Nat := c.base + 6

def start : Nat := c.base + 14

def stop : Nat := c.start + extent c.row

def exit : Nat := c.stop + 10

def entry : List Instruction := [.enterScope, .pushId c.name, .pushNumber c.first, .setEnv]

def test : List Instruction :=
  [.pushId c.name, .getEnv, .pushNumber c.bound, .notEqual, .jumpIfFalse c.exit]

def advance : List Instruction := [.increment, .pushId c.name, .swap, .setEnv, .jump c.head]

def code : List Instruction :=
  c.entry ++ (c.test ++ (c.row ++ (Node.load c.name ++ (c.advance ++ [.leaveScope]))))

structure StandsIn (ns : List Node) (hns : ∀ n ∈ ns, n.Statement) : Prop where
  code : ∃ is, (Script.streams ns)[c.id]? = some is ∧ Stands is c.base c.code
  block : BlockAt ns hns c.id c.start c.row
  spares : Node.Spares c.name [] c.row
  ahead : Node.JumpsAhead c.start c.row

end Counter

/-- Before step `k`, the activation that runs at step `n` has neither returned nor come to
`exit`. -/
def Dwells (host : Host) (m : Machine) (exit n k : Nat) : Prop :=
  ∀ l, n ≤ l → l < k → (m.after host n).calls.length ≤ (m.after host l).calls.length ∧
    ((m.after host l).calls.length = (m.after host n).calls.length → (m.after host l).ip ≠ exit)

/-- The body of the loop that is begun at step `n` is run to its end whenever it is begun, and in
calls that pass just as many arguments as are taken. -/
def Completes (host : Host) (ns : List Node) (m : Machine) (id start stop exit n : Nat) : Prop :=
  ∀ i, n ≤ i → RunsExactly host ns m i → Dwells host m exit n i →
    (m.after host i).ActsAt (m.after host n) id start →
    ∃ j, Spans (m.after host) id start stop i j ∧ RunsExactly host ns m j

/-- At step `k`, the loop that was begun at step `n` has come to the address `a`. -/
structure Underway (c : Counter) (host : Host) (ns : List Node) (m : Machine) (n k a : Nat) :
    Prop where
  machine : m = ofProgram (assemble (Script.streams ns))
  le : n ≤ k
  runs : RunsExactly host ns m k
  dwells : Dwells host m c.exit n k
  acts : (m.after host k).ActsAt (m.after host n) c.id a

/-- Moreover, the stack has `us` above what it had at step `n`, and the frame of the loop is the
innermost one and has `x` under its variable. -/
structure Stage (c : Counter) (host : Host) (ns : List Node) (m : Machine) (n k a : Nat)
    (us : List Value) (x : Int64) : Prop extends Underway c host ns m n k a where
  stack : (m.after host k).stack = us ++ (m.after host n).stack
  frames : ∃ f fs, (m.after host k).frames = f :: fs ∧
    fs.length = (m.after host n).frames.length ∧ f.get? c.name = some (.number x)

variable {c : Counter} {n k a a' : Nat} {us : List Value} {x : Int64}

namespace Underway

theorem frameDepth (h : Underway c host ns m n k a) (l : Nat) : FrameDepth ns (m.after host l) := by
  rw [h.machine]
  exact frameDepth_after ns host l

theorem faces {is js : List Instruction} (h : Underway c host ns m n k a)
    (hs : (Script.streams ns)[c.id]? = some is) (hjs : Stands is a js) :
    (m.after host k).Faces (Script.streams ns) js := by
  obtain ⟨ts, hl, -⟩ := h.frameDepth k
  obtain ⟨-, hcode, hip⟩ := h.acts
  exact ⟨hl.program, is, hcode ▸ hs, hip ▸ hjs⟩

theorem performs {is row : List Instruction} (h : Underway c host ns m n k a)
    (hp : Performs host (m.after host k) row m') (hs : (Script.streams ns)[c.id]? = some is)
    (hrow : Stands is a row) (hcall : ∀ i ∈ row, ∀ args, i ≠ .call args)
    (hexit : a + extent row ≤ c.exit) (hip : m'.ip = a') :
    Underway c host ns m n (k + row.length) a' ∧ m.after host (k + row.length) = m' ∧
      ∀ l, k ≤ l → l < k + row.length →
        a + (l - k) ≤ (m.after host l).ip ∧ (m.after host l).ip < a + extent row := by
  have hf : (m.after host k).Faces (Script.streams ns) (row ++ []) := by
    rw [List.append_nil]
    exact h.faces hs hrow
  obtain ⟨hend, hruns, hinside⟩ := hp.run hf hcall
  obtain ⟨hcalls, hcode, rfl⟩ := h.acts
  have hpiece (l : Nat) (hk : k ≤ l) (hl : l < k + row.length) :
      (m.after host l).calls = (m.after host n).calls ∧
        (m.after host k).ip + (l - k) ≤ (m.after host l).ip ∧
        (m.after host l).ip < (m.after host k).ip + extent row := by
    have := hinside (l - k) (by omega)
    rwa [← after_add, Nat.add_sub_cancel' hk, hcalls] at this
  have hlast : m.after host (k + row.length) = m' := by rw [after_add, hend]
  refine ⟨⟨h.machine, Nat.le_add_right_of_le h.le, h.runs.add hruns, fun l hn hl => ?_, ?_⟩,
    hlast, fun l hk hl => (hpiece l hk hl).2⟩
  · rcases Nat.lt_or_ge l k with hlt | hge
    · exact h.dwells l hn hlt
    · obtain ⟨hsame, -, hhigh⟩ := hpiece l hge hl
      exact ⟨Nat.le_of_eq (by rw [hsame]), fun _ => by omega⟩
  · rw [hlast]
    exact ⟨hp.acts.2.trans hcalls, hp.acts.1.trans hcode, hip⟩

end Underway

namespace Stage

theorem lookup_eq (h : Stage c host ns m n k a us x) :
    (m.after host k).lookup c.name = .number x := by
  obtain ⟨f, fs, hf, -, hx⟩ := h.frames
  simp [lookup, hf, hx]

theorem entry (h : Underway c host ns m n n c.base) (hc : c.StandsIn ns hns) :
    Stage c host ns m n (n + 4) c.head [] c.first ∧
      values host m (m.after host n) c.id c.start c.name n (n + 4) = [] := by
  obtain ⟨is, hs, hcode⟩ := hc.code
  have hp : Performs host (m.after host n) c.entry _ :=
    .next .enterScope rfl rfl rfl <| .next (.literal rfl) rfl rfl rfl <|
    .next (.literal rfl) rfl rfl rfl <| .last (.setEnv rfl rfl) rfl rfl
  have hextent : extent c.entry = 6 := rfl
  have hexit : c.base + extent c.entry ≤ c.exit := by
    rw [hextent, Counter.exit, Counter.stop, Counter.start]
    omega
  have hip : (m.after host n).ip + 1 + 2 + 2 + 1 = c.head := by rw [h.acts.2.2, Counter.head]
  obtain ⟨hunder, hend, haddress⟩ := h.performs hp hs hcode.left (by simp [Counter.entry]) hexit hip
  refine ⟨⟨hunder, (congrArg Machine.stack hend).trans rfl, _, (m.after host n).frames,
    (congrArg Machine.frames hend).trans rfl, rfl, Frame.get?_bind_self [] c.name _⟩,
    values_eq_nil fun l hk hl hacts => ?_⟩
  have := (haddress l hk hl).2
  rw [hacts.2.2, hextent, Counter.start] at this
  omega

theorem test (h : Stage c host ns m n k c.head [] x) (hc : c.StandsIn ns hns) :
    Stage c host ns m n (k + 5) (if x = c.bound then c.exit else c.start) [] x ∧
      values host m (m.after host n) c.id c.start c.name k (k + 5) = [] := by
  obtain ⟨is, hs, hcode⟩ := hc.code
  have hp : Performs host (m.after host k) c.test _ :=
    .next (.literal rfl) rfl rfl rfl <| .next (.getEnv rfl) rfl rfl rfl <|
    .next (.literal rfl) rfl rfl rfl <| .next (.notEqual rfl) rfl rfl rfl <|
    .last (.jumpIfFalse rfl) rfl rfl
  have hextent : extent c.test = 8 := rfl
  have hexit : c.head + extent c.test ≤ c.exit := by
    rw [hextent, Counter.exit, Counter.stop, Counter.start, Counter.head]
    omega
  have hip : (if (Value.boolean !(((m.after host k).lookup c.name).equal
      (.number c.bound))).isTruthy then (m.after host k).ip + 2 + 1 + 2 + 1 + 2 else c.exit) =
      if x = c.bound then c.exit else c.start := by
    rw [h.lookup_eq, h.acts.2.2]
    by_cases hx : x = c.bound
    · simp [hx, Value.equal, Value.isTruthy]
    · simp [hx, Value.equal, Value.isTruthy, Counter.head, Counter.start]
  obtain ⟨hunder, hend, haddress⟩ := h.performs hp hs hcode.right.left (by simp [Counter.test])
    hexit hip
  obtain ⟨f, fs, hframes, hkept⟩ := h.frames
  refine ⟨⟨hunder, (congrArg Machine.stack hend).trans h.stack, f, fs,
    (congrArg Machine.frames hend).trans hframes, hkept⟩, values_eq_nil fun l hk hl hacts => ?_⟩
  have := (haddress l hk hl).2
  rw [hacts.2.2, hextent, Counter.start, Counter.head] at this
  omega

theorem advance (h : Stage c host ns m n k (c.stop + 3) [.number x] x) (hc : c.StandsIn ns hns)
    (hx : x ≠ Int64.maxValue) :
    Stage c host ns m n (k + 5) c.head [] (x + 1) ∧
      values host m (m.after host n) c.id c.start c.name k (k + 5) = [] := by
  obtain ⟨is, hs, hcode⟩ := hc.code
  obtain ⟨f, fs, hframes, hlen, -⟩ := h.frames
  have hp : Performs host (m.after host k) c.advance _ :=
    .next (.increment h.stack hx) rfl rfl rfl <| .next (.literal rfl) rfl rfl rfl <|
    .next (.swap rfl) rfl rfl rfl <| .next (.setEnv rfl hframes) rfl rfl rfl <|
    .last .jump rfl rfl
  have hexit : c.stop + 3 + extent c.advance ≤ c.exit := Nat.le_refl _
  obtain ⟨hunder, hend, haddress⟩ := h.performs hp hs hcode.right.right.right.right.left
    (by simp [Counter.advance]) hexit rfl
  refine ⟨⟨hunder, (congrArg Machine.stack hend).trans rfl, _, fs,
    (congrArg Machine.frames hend).trans rfl, hlen, f.get?_bind_self c.name _⟩,
    values_eq_nil fun l hk hl hacts => ?_⟩
  have := (haddress l hk hl).1
  rw [hacts.2.2, Counter.stop] at this
  omega

theorem overflows (h : Stage c host ns m n k (c.stop + 3) [.number Int64.maxValue] x)
    (hc : c.StandsIn ns hns) : ∃ m', step host (m.after host k) = .error .overflow m' := by
  obtain ⟨is, hs, hcode⟩ := hc.code
  have hf : (m.after host k).Faces (Script.streams ns) c.advance :=
    h.faces hs hcode.right.right.right.right.left
  refine ⟨{ m.after host k with stack := (m.after host n).stack }, ?_⟩
  rw [step_of_faces hf, execute, Instruction.opcode, perform,
    bind_of_ok (popNumber_of_cons h.stack)]
  rfl

theorem exists_spans (h : Stage c host ns m n k c.start [] x) (hc : c.StandsIn ns hns)
    (hcomplete : Completes host ns m c.id c.start c.stop c.exit n) :
    ∃ j, Spans (m.after host) c.id c.start c.stop k j ∧ Stage c host ns m n j c.stop [] x := by
  obtain ⟨j, hspan, hrun⟩ := hcomplete k h.le h.runs h.dwells h.acts
  have hm := h.frameDepth
  obtain ⟨is, hs, hrow⟩ := hc.block.stands
  obtain ⟨hcalls, hcode⟩ := hspan.acts hc.block hm
  have hlayered : ∃ ts, (Script.operands ns hns).Layered (m.after host k) ts := by
    rw [h.machine]
    exact layered_after _ host k
  have hagree (l : Nat) (hl : l < j) : ∃ t ts, Agrees hns Matches (m.after host l) t ts := by
    have hruns := hrun.runs.mono (Nat.le_of_lt hl)
    have hpasses (l' : Nat) (hl' : l' < l) := hrun.passes l' (Nat.lt_trans hl' hl)
    rw [h.machine] at hruns hpasses ⊢
    exact agrees_after kept_matches hns hruns hpasses
  refine ⟨j, hspan, ⟨h.machine, Nat.le_trans h.le hspan.le, hrun, fun l hn hl => ?_,
    hcalls.trans h.acts.1, hcode, hspan.leaves.2⟩,
    (hspan.stack_eq hc.block hm hlayered hrun).trans h.stack, ?_⟩
  · rcases Nat.lt_or_ge l k with hlt | hge
    · exact h.dwells l hn hlt
    · rw [← h.acts.1]
      refine ⟨(hspan.inside l hge hl).1, fun heq => ?_⟩
      obtain ⟨a, t, ha, hat, -⟩ := hspan.above hs hrow hc.block.operands (course_after host m)
        (fun k => (hm k).placed) hge (Nat.le_of_lt hl)
      obtain ⟨-, -, rfl⟩ := ha.eq_active (Nat.le_of_eq heq)
      have := hat.le.2
      rw [Counter.exit, Counter.stop]
      omega
  · obtain ⟨f, fs, hf, hlen, hx⟩ := h.frames
    have hpos := (hm n).pos
    have hlength := hspan.frames_eq hc.block hm
    have hdepth : 1 < (m.after host k).frames.length := by
      rw [hf, List.length_cons]
      omega
    have hbinding := hspan.binding_eq hc.block hc.spares hm hagree hdepth hspan.le (Nat.le_refl j)
    obtain ⟨g, gs, hg⟩ := List.exists_cons_of_length_pos (Nat.zero_lt_of_lt (hlength ▸ hdepth))
    rw [binding_of_eq hlength, binding_of_eq rfl, hf, hg] at hbinding
    rw [hf, hg, List.length_cons, List.length_cons] at hlength
    exact ⟨g, gs, hg, (Nat.succ.inj hlength).trans hlen, hbinding.trans hx⟩

theorem body (h : Stage c host ns m n k c.start [] x) (hc : c.StandsIn ns hns)
    (hcomplete : Completes host ns m c.id c.start c.stop c.exit n) :
    ∃ j, k ≤ j ∧ Stage c host ns m n j (c.stop + 3) [.number x] x ∧
      values host m (m.after host n) c.id c.start c.name k j = [.number x] := by
  obtain ⟨j, hspan, hj⟩ := h.exists_spans hc hcomplete
  obtain ⟨is, hs, hcode⟩ := hc.code
  have hp : Performs host (m.after host j) (Node.load c.name) _ :=
    .next (.literal rfl) rfl rfl rfl <| .last (.getEnv rfl) rfl rfl
  have hexit : c.stop + extent (Node.load c.name) ≤ c.exit := Nat.le_add_right (c.stop + 3) 7
  have hip : (m.after host j).ip + 2 + 1 = c.stop + 3 := by rw [hj.acts.2.2]
  obtain ⟨hunder, hend, haddress⟩ := hj.performs hp hs hcode.right.right.right.left
    (by simp [Node.load]) hexit hip
  obtain ⟨f, fs, hframes, hkept⟩ := hj.frames
  refine ⟨j + 2, Nat.le_add_right_of_le hspan.le, ⟨hunder, ?_, f, fs,
    (congrArg Machine.frames hend).trans hframes, hkept⟩, ?_⟩
  · refine (congrArg Machine.stack hend).trans ?_
    exact congr (congrArg List.cons hj.lookup_eq) hj.stack
  · have hlt : k < j + 2 := Nat.lt_add_right 1 (Nat.lt_succ_of_le hspan.le)
    rw [values, arrivals_eq_singleton hlt h.acts, List.map_singleton, h.lookup_eq]
    intro l hkl hl hacts
    rcases Nat.lt_or_ge j l with hlt | hge
    · have := (haddress l (Nat.le_of_lt hlt) hl).1
      rw [hacts.2.2, Counter.stop] at this
      omega
    · obtain ⟨hcalls, hcode, hip⟩ := hacts
      obtain ⟨l, rfl⟩ := Nat.exists_eq_succ_of_ne_zero (Nat.ne_zero_of_lt hkl)
      refine hspan.not_above_start hc.block hc.ahead (Nat.succ_pos _) h.frameDepth hj.runs.runs
        (Nat.le_of_lt_succ hkl) hge ?_
      rw [← hcode, ← hip]
      exact .active (hcalls.trans h.acts.1.symm)

theorem turn (h : Stage c host ns m n k c.head [] x) (hc : c.StandsIn ns hns)
    (hcomplete : Completes host ns m c.id c.start c.stop c.exit n) (hx : x ≠ c.bound) :
    ∃ j, k ≤ j ∧ Stage c host ns m n j (c.stop + 3) [.number x] x ∧
      values host m (m.after host n) c.id c.start c.name k j = [.number x] := by
  obtain ⟨hstart, hnone⟩ := h.test hc
  rw [if_neg hx] at hstart
  obtain ⟨j, hle, hj, hone⟩ := hstart.body hc hcomplete
  refine ⟨j, by omega, hj, ?_⟩
  rw [values_append (Nat.le_add_right k 5) hle, hnone, hone, List.nil_append]

theorem next (h : Stage c host ns m n k c.head [] x) (hc : c.StandsIn ns hns)
    (hcomplete : Completes host ns m c.id c.start c.stop c.exit n) (hx : x ≠ c.bound)
    (hmax : x ≠ Int64.maxValue) :
    ∃ j, k ≤ j ∧ Stage c host ns m n j c.head [] (x + 1) ∧
      values host m (m.after host n) c.id c.start c.name k j = [.number x] := by
  obtain ⟨j, hle, hj, hone⟩ := h.turn hc hcomplete hx
  obtain ⟨hnext, hnone⟩ := hj.advance hc hmax
  refine ⟨j + 5, Nat.le_add_right_of_le hle, hnext, ?_⟩
  rw [values_append hle (Nat.le_add_right j 5), hone, hnone]
  rfl

theorem exists_exit (h : Stage c host ns m n k c.head [] x) (hc : c.StandsIn ns hns)
    (hcomplete : Completes host ns m c.id c.start c.stop c.exit n)
    (hx : x.toInt ≤ c.bound.toInt) :
    ∃ e, k ≤ e ∧ Stage c host ns m n e c.exit [] c.bound ∧
      values host m (m.after host n) c.id c.start c.name k e =
        ascending x (c.bound.toInt - x.toInt).toNat := by
  generalize hcount : (c.bound.toInt - x.toInt).toNat = count
  induction count generalizing k x with
  | zero =>
    obtain rfl : x = c.bound := Int64.toInt_inj.1 (by omega)
    obtain ⟨hexit, hnone⟩ := h.test hc
    rw [if_pos rfl] at hexit
    exact ⟨k + 5, Nat.le_add_right k 5, hexit, hnone⟩
  | succ count ih =>
    have hne : x ≠ c.bound := by
      rintro rfl
      omega
    have hmax : x ≠ Int64.maxValue := by
      rintro rfl
      have := c.bound.toInt_le
      omega
    obtain ⟨j, hkj, hj, hone⟩ := h.next hc hcomplete hne hmax
    have hsucc := Table.toInt_add_one hmax
    obtain ⟨e, hje, he, hrest⟩ := ih hj (by omega) (by omega)
    refine ⟨e, Nat.le_trans hkj hje, he, ?_⟩
    rw [values_append hkj hje, hone, hrest, ascending_succ]
    rfl

theorem exists_overflow (h : Stage c host ns m n k c.head [] x) (hc : c.StandsIn ns hns)
    (hcomplete : Completes host ns m c.id c.start c.stop c.exit n)
    (hx : c.bound.toInt < x.toInt) :
    ∃ e m', k ≤ e ∧ RunsExactly host ns m e ∧ step host (m.after host e) = .error .overflow m' ∧
      values host m (m.after host n) c.id c.start c.name k e =
        ascending x (2 ^ 63 - x.toInt).toNat := by
  generalize hcount : (2 ^ 63 - x.toInt).toNat = count
  induction count generalizing k x with
  | zero =>
    have := x.toInt_lt
    omega
  | succ count ih =>
    have hne : x ≠ c.bound := by
      rintro rfl
      omega
    by_cases hmax : x = Int64.maxValue
    · subst hmax
      have hlast : (2 ^ 63 - Int64.maxValue.toInt).toNat = 1 := rfl
      obtain rfl : count = 0 := Nat.succ.inj (hcount.symm.trans hlast)
      obtain ⟨e, hle, he, hone⟩ := h.turn hc hcomplete hne
      obtain ⟨m', hm'⟩ := he.overflows hc
      exact ⟨e, m', hle, he.runs, hm', hone⟩
    · obtain ⟨j, hkj, hj, hone⟩ := h.next hc hcomplete hne hmax
      have hsucc := Table.toInt_add_one hmax
      obtain ⟨e, m', hje, hruns, hm', hrest⟩ := ih hj (by omega) (by omega)
      refine ⟨e, m', Nat.le_trans hkj hje, hruns, hm', ?_⟩
      rw [values_append hkj hje, hone, hrest, ascending_succ]
      rfl

end Stage

/-- The loop that is begun at step `n` is left by step `e`.  Its frame is gone, and the stack is
as it was. -/
structure Leaves (host : Host) (ns : List Node) (m : Machine) (id a n e : Nat) : Prop where
  le : n ≤ e
  runs : RunsExactly host ns m e
  acts : (m.after host e).ActsAt (m.after host n) id a
  stack : (m.after host e).stack = (m.after host n).stack
  frames : FramesKept (m.after host) n e

theorem Underway.loops (h : Underway c host ns m n n c.base) (hc : c.StandsIn ns hns)
    (hk : Underway c host ns m n k c.exit) (hlt : n < k) :
    Loops (m.after host) c.id c.base c.exit n k := by
  obtain ⟨is, hs, hcode⟩ := hc.code
  have hp : Performs host (m.after host n) [.enterScope] _ := .last .enterScope rfl rfl
  have hrow : Stands is c.base [.enterScope] := hcode.left.head
  have hexit : c.base + extent [.enterScope] ≤ c.exit := by
    rw [Counter.exit, Counter.stop, Counter.start, show extent [.enterScope] = 1 from rfl]
    omega
  have hip : (m.after host n).ip + 1 = c.base + 1 := by rw [h.acts.2.2]
  obtain ⟨⟨-, -, -, -, hcalls, hacts⟩, -⟩ := h.performs hp hs hrow (by simp) hexit hip
  have hcalls : (m.after host (n + 1)).calls = (m.after host n).calls := hcalls
  refine ⟨h.acts.2, hlt, hacts, fun l hn hl => ?_, ?_, hk.acts.2.2⟩
  · rw [hcalls]
    exact hk.dwells l (Nat.le_of_succ_le hn) hl
  · rw [hcalls, hk.acts.1]

theorem Stage.leaves (h : Stage c host ns m n k c.exit [] x) (hc : c.StandsIn ns hns)
    (hn : Underway c host ns m n n c.base) (hlt : n < k) (hat : LoopAt ns c.id c.base c.exit)
    (hns : Node.CompilableAll ns) :
    Leaves host ns m c.id (c.exit + 1) n (k + 1) ∧
      values host m (m.after host n) c.id c.start c.name k (k + 1) = [] := by
  obtain ⟨is, hs, hcode⟩ := hc.code
  have hf : (m.after host k).Faces (Script.streams ns) ([.leaveScope] ++ []) :=
    h.faces hs hcode.right.right.right.right.right
  obtain ⟨hcalls, hcodeAt, hip⟩ := h.acts
  have hp : Performs host (m.after host k) [.leaveScope] _ :=
    .last (.leaveScope ((h.frameDepth k).one_lt hf)) rfl rfl
  obtain ⟨hend, hruns, -⟩ := hp.run hf (by simp)
  have hlast : m.after host (k + 1) = _ := (after_add host m k 1).trans hend
  refine ⟨⟨Nat.le_succ_of_le h.le, h.runs.add hruns, ?_, ?_, ?_⟩, values_eq_nil ?_⟩
  · rw [hlast]
    exact ⟨hcalls, hcodeAt, congrArg (· + 1) hip⟩
  · rw [hlast]
    exact h.stack
  · exact (hn.loops hc h.toUnderway hlt).framesKept hat hns (course_after host m) h.frameDepth
  · intro l hk hl hacts
    obtain rfl : l = k := by omega
    rw [hacts.2.2, Counter.exit, Counter.stop] at hip
    omega

theorem Underway.exists_leaves (h : Underway c host ns m n n c.base) (hc : c.StandsIn ns hns)
    (hcomplete : Completes host ns m c.id c.start c.stop c.exit n)
    (hat : LoopAt ns c.id c.base c.exit) (hle : c.first.toInt ≤ c.bound.toInt) :
    ∃ e, Leaves host ns m c.id (c.exit + 1) n e ∧
      values host m (m.after host n) c.id c.start c.name n e =
        ascending c.first (c.bound.toInt - c.first.toInt).toNat := by
  obtain ⟨hhead, hentry⟩ := Stage.entry h hc
  obtain ⟨k, hk, hexit, hturns⟩ := hhead.exists_exit hc hcomplete hle
  have hcompilable := Node.compilableAll_iff.2 fun n hn => (hns n hn).compilable
  obtain ⟨hleaves, hlast⟩ := hexit.leaves hc h (by omega) hat hcompilable
  refine ⟨k + 1, hleaves, ?_⟩
  rw [values_append hexit.le (Nat.le_add_right k 1), hlast,
    values_append (Nat.le_add_right n 4) hk, hentry, hturns, List.nil_append, List.append_nil]

theorem Underway.exists_overflow (h : Underway c host ns m n n c.base) (hc : c.StandsIn ns hns)
    (hcomplete : Completes host ns m c.id c.start c.stop c.exit n)
    (hlt : c.bound.toInt < c.first.toInt) :
    ∃ e m', n ≤ e ∧ RunsExactly host ns m e ∧ step host (m.after host e) = .error .overflow m' ∧
      values host m (m.after host n) c.id c.start c.name n e =
        ascending c.first (2 ^ 63 - c.first.toInt).toNat := by
  obtain ⟨hhead, hentry⟩ := Stage.entry h hc
  obtain ⟨e, m', he, hruns, hfails, hturns⟩ := hhead.exists_overflow hc hcomplete hlt
  refine ⟨e, m', by omega, hruns, hfails, ?_⟩
  rw [values_append (Nat.le_add_right n 4) he, hentry, hturns, List.nil_append]

theorem lower_forLoop_eq (σ : Scoping) (id base : Nat) (x : String) (first bound : Int64)
    (body : List Node) :
    Node.lower σ base (.forLoop (.assign true (.value (.variable x)) (.value (.number first)))
      (.value (.number bound)) body) =
    (Counter.mk id base x first bound (Node.lowerBlock (σ.enter [x]) (base + 14) body)).code := by
  have hdeclare : (σ.enter []).declareIf true x = σ.enter [x] := rfl
  have hstore : Node.lowerStore ((σ.enter [x]).isDeclared x) = .setEnv := by
    simp [Node.lowerStore, Scoping.isDeclared, Scoping.enter]
  rw [Node.lower_forLoop rfl, Node.lowerTurns]
  simp only [Node.lower, Scoping.after, hdeclare, hstore, List.append_assoc]
  rfl

theorem standsIn_of_knownAt {bs : List Script.Block} {x : String} {first bound : Int64}
    {body : List Node} {id base : Nat} {σ : Scoping} (hns : ∀ n ∈ ns, n.Statement)
    (h : Script.KnownAt ns bs (.forLoop (.assign true (.value (.variable x))
      (.value (.number first))) (.value (.number bound)) body) id base σ)
    (hbody : ∀ s ∈ body, ¬ s.Rebinds x) :
    ∃ row, extent row = Node.slotCountOfBlock body ∧
      (Counter.mk id base x first bound row).StandsIn ns hns := by
  have hstatements : ∀ s ∈ body, s.Statement := by
    cases h.statement with
    | expression h => cases h.isExpression
    | forLoop _ _ _ hb => exact hb
  obtain ⟨is, hs, hrow⟩ := h.stands
  have hbare := Script.at_of_mem_parts hns (h.within (Node.mem_parts_self σ base _)) rfl
  rw [lower_forLoop_eq σ id base] at hrow
  refine ⟨Node.lowerBlock (σ.enter [x]) (base + 14) body, ?_, ⟨is, hs, hrow⟩,
    ⟨⟨is, hs, hrow.right.right.left⟩, ?_, ?_, hbare.part hs hrow ?_⟩, ?_, ?_⟩
  · exact Node.extent_lowerBlock _ _ body
      (Node.compilableAll_iff.2 fun s hs => (hstatements s hs).compilable)
  · exact Node.keepsScopes_lowerBlock _ _ body
  · exact Node.flows_lowerBlock (fun s hs => (hstatements s hs).settles) _ _
  · exact ⟨_, _, (List.append_assoc _ _ _).symm, rfl, rfl⟩
  · have hspares (s : Node) (hs : s ∈ body) := (hstatements s hs).spares (hbody s hs)
    exact Node.spares_lowerBlock hstatements hspares _ _
  · exact Node.jumpsAhead_lowerBlock (fun s hs => (hstatements s hs).jumpsAhead) _ _

theorem loopAt_of_knownAt {bs : List Script.Block} {x : String} {first bound : Int64}
    {body : List Node} {id base : Nat} {σ : Scoping}
    (h : Script.KnownAt ns bs (.forLoop (.assign true (.value (.variable x))
      (.value (.number first))) (.value (.number bound)) body) id base σ) :
    LoopAt ns id base (base + 14 + Node.slotCountOfBlock body + 10) := by
  refine ⟨_, h.within (Node.mem_parts_self σ base _), ⟨_, _, _, rfl⟩, rfl, ?_⟩
  rw [Part.row, Node.extent_lower _ _ _ h.statement.compilable]
  simp only [Node.slotCount, Compiler.literal, List.length_cons, List.length_nil]
  omega

/-- The law of loops between two numbers.  Let the machine come to such a loop by a run in which
calls pass just as many arguments as are taken, and let the body not store the variable in its own
scope and be run to its end, by such calls, whenever it is begun.  If the first number is not above
the bound, the body is begun once for each number from the first on and below the bound, in this
order and with the number as the value of the variable; then the loop is left, without its frame
and with the stack as it was.  Otherwise it is begun for each number from the first on to the
highest one, and then the machine fails, since there is no next number. -/
theorem forLoop_counts {s s' : TokenStream} {ns : List Node} (h : s.parse = .ok ns s') :
    ∃ p c, Program.ofNodes ns = .ok p c ∧ ∀ host bs x first bound body id base n,
      Script.StandsAt p ns bs (.forLoop (.assign true (.value (.variable x))
        (.value (.number first))) (.value (.number bound)) body) id base →
      (∀ s ∈ body, ¬ s.Rebinds x) → RunsExactly host ns (ofProgram p) n →
      ((ofProgram p).after host n).code = id → ((ofProgram p).after host n).ip = base →
      Completes host ns (ofProgram p) id (base + 14) (base + 14 + Node.slotCountOfBlock body)
        (base + 14 + Node.slotCountOfBlock body + 10) n →
      (first ≤ bound → ∃ e,
        Leaves host ns (ofProgram p) id (base + 14 + Node.slotCountOfBlock body + 11) n e ∧
        values host (ofProgram p) ((ofProgram p).after host n) id (base + 14) x n e =
          ascending first (bound.toInt - first.toInt).toNat) ∧
      (bound < first → ∃ e m', n ≤ e ∧ RunsExactly host ns (ofProgram p) e ∧
        step host ((ofProgram p).after host e) = .error .overflow m' ∧
        values host (ofProgram p) ((ofProgram p).after host n) id (base + 14) x n e =
          ascending first (2 ^ 63 - first.toInt).toNat) := by
  have hns := TokenStream.statement_of_parse h
  obtain ⟨c, hc⟩ := Program.ofNodes_of_statement hns
  refine ⟨_, c, hc, fun host bs x first bound body id base n hstands hbody hrun hcode hip
    hcomplete => ?_⟩
  obtain ⟨σ, hσ⟩ := hstands.exists_knownAt hns
  obtain ⟨row, hrow, hin⟩ := standsIn_of_knownAt hns hσ hbody
  have hat := loopAt_of_knownAt hσ
  rw [← hrow] at hcomplete hat ⊢
  have hn : Underway ⟨id, base, x, first, bound, row⟩ host ns _ n n base :=
    ⟨rfl, Nat.le_refl n, hrun, fun l hl hl' => absurd hl' (Nat.not_lt.2 hl), rfl, hcode, hip⟩
  refine ⟨fun hle => ?_, fun hlt => ?_⟩
  · exact hn.exists_leaves hin hcomplete hat (Int64.le_iff_toInt_le.1 hle)
  · exact hn.exists_overflow hin hcomplete (Int64.lt_iff_toInt_lt.1 hlt)

/-- The script `for i = 1, 3 do for i = 5, 6 do end end`. -/
def nestedLoop : List Node :=
  [.forLoop (.assign true (.value (.variable "i")) (.value (.number 1))) (.value (.number 3))
    [.forLoop (.assign true (.value (.variable "i")) (.value (.number 5))) (.value (.number 6)) []]]

def lateLoop : List Node :=
  [.forLoop (.assign true (.value (.variable "i")) (.value (.number 9223372036854775806)))
    (.value (.number 0)) []]

theorem completes_of_eq (host : Host) (ns : List Node) (m : Machine) (id start exit n : Nat) :
    Completes host ns m id start start exit n := by
  intro i _ hrun _ hacts
  exact ⟨i, ⟨Nat.le_refl i, hacts.2, fun k hi hk => absurd hk (Nat.not_lt.2 hi), rfl, hacts.2.2⟩,
    hrun⟩

theorem runsExactly_nestedLoop :
    RunsExactly ⟨.unlimited, fun a => a⟩ nestedLoop
      (ofProgram (assemble (Script.streams nestedLoop))) 78 := by
  have hreach : reaches ⟨.unlimited, fun a => a⟩
      (ofProgram (assemble (Script.streams nestedLoop))) 78 fun m => m.op? = none := by
    decide +kernel
  have hcalls : ∀ k < 78, ((ofProgram (assemble (Script.streams nestedLoop))).after
      ⟨.unlimited, fun a => a⟩ k).op? ≠ some .call := by decide +kernel
  exact ⟨(runs_of_reaches hreach).1, fun k hk => passes_of_op? (hcalls k hk)⟩

theorem completes_nestedLoop :
    Completes ⟨.unlimited, fun a => a⟩ nestedLoop
      (ofProgram (assemble (Script.streams nestedLoop))) 0 14 39 49 0 := by
  intro i _ hrun _ hacts
  have hlt : i < 79 := by
    apply Nat.lt_of_not_le
    intro hle
    have hhalt : reaches ⟨.unlimited, fun a => a⟩
        (ofProgram (assemble (Script.streams nestedLoop))) 79 (fun _ => true) = false := by
      decide +kernel
    rw [reaches_of_runs (hrun.runs.mono hle)] at hhalt
    cases hhalt
  have hbegins : ∀ i < 79, ((ofProgram (assemble (Script.streams nestedLoop))).after
      ⟨.unlimited, fun a => a⟩ i).ActsAt (ofProgram (assemble (Script.streams nestedLoop))) 0 14 →
      i ∈ [9, 43] := by decide +kernel
  have hinside : ∀ i ∈ [9, 43], ∀ k < i + 22, i ≤ k → ((ofProgram (assemble (Script.streams
      nestedLoop))).after ⟨.unlimited, fun a => a⟩ k).ip ≠ 39 := by decide +kernel
  have hends : ∀ i ∈ [9, 43], i + 22 ≤ 78 ∧ ((ofProgram (assemble (Script.streams
      nestedLoop))).after ⟨.unlimited, fun a => a⟩ (i + 22)).ip = 39 := by decide +kernel
  have hcalls : ∀ k < 79, ((ofProgram (assemble (Script.streams nestedLoop))).after
      ⟨.unlimited, fun a => a⟩ k).calls = [] := by decide +kernel
  have hi := hbegins i hlt hacts
  obtain ⟨hle, hstop⟩ := hends i hi
  refine ⟨i + 22, ⟨Nat.le_add_right i 22, hacts.2, fun k hk hk' => ⟨?_, fun _ => ?_⟩, ?_, hstop⟩,
    runsExactly_nestedLoop.mono hle⟩
  · rw [hcalls i hlt]
    exact Nat.zero_le _
  · exact hinside i hi k hk' hk
  · rw [hcalls i hlt, hcalls (i + 22) (Nat.lt_succ_of_le hle)]

theorem forLoop_counts_nestedLoop :
    (∃ s s' p c e, TokenStream.parse s = .ok nestedLoop s' ∧ Program.ofNodes nestedLoop = .ok p c ∧
      Leaves ⟨.unlimited, fun a => a⟩ nestedLoop (ofProgram p) 0 50 0 e ∧
      values ⟨.unlimited, fun a => a⟩ (ofProgram p) (ofProgram p) 0 14 "i" 0 e =
        [.number 1, .number 2]) ∧
    ∃ s s' p c e m', TokenStream.parse s = .ok lateLoop s' ∧ Program.ofNodes lateLoop = .ok p c ∧
      step ⟨.unlimited, fun a => a⟩ ((ofProgram p).after ⟨.unlimited, fun a => a⟩ e) =
        .error .overflow m' ∧
      values ⟨.unlimited, fun a => a⟩ (ofProgram p) (ofProgram p) 0 14 "i" 0 e =
        [.number 9223372036854775806, .number 9223372036854775807] := by
  constructor
  · have hparse : (TokenStream.mk ([.keyword .forKw, .ident "i", .symbol .assign, .number 1,
        .symbol .comma, .number 3, .keyword .doKw, .keyword .forKw, .ident "i", .symbol .assign,
        .number 5, .symbol .comma, .number 6, .keyword .doKw, .keyword .endKw,
        .keyword .endKw].map (⟨·, .start⟩)) .start).parse = .ok nestedLoop ⟨[], .start⟩ := by
      cbv
    obtain ⟨c', hc'⟩ := Program.ofNodes_of_statement (TokenStream.statement_of_parse hparse)
    obtain ⟨p, c, hc, hcounts⟩ := forLoop_counts hparse
    cases hc.symm.trans hc'
    have hbody : ∀ s ∈ [Node.forLoop (.assign true (.value (.variable "i")) (.value (.number 5)))
        (.value (.number 6)) []], ¬ s.Rebinds "i" := by
      intro s hs hrebinds
      cases List.mem_singleton.1 hs
      cases hrebinds with
      | here h => cases h
    have hstands : Script.StandsAt (assemble (Script.streams nestedLoop)) nestedLoop
        [⟨.script, []⟩] _ 0 0 := .script rfl
    obtain ⟨e, hleaves, hvalues⟩ := (hcounts _ _ _ _ _ _ _ _ 0 hstands hbody
      (runsExactly_zero _ _ _) rfl rfl completes_nestedLoop).1 (by decide)
    exact ⟨_, _, _, _, e, hparse, hc, hleaves, hvalues⟩
  · have hparse : (TokenStream.mk ([.keyword .forKw, .ident "i", .symbol .assign,
        .number 9223372036854775806, .symbol .comma, .number 0, .keyword .doKw,
        .keyword .endKw].map (⟨·, .start⟩)) .start).parse = .ok lateLoop ⟨[], .start⟩ := by
      cbv
    obtain ⟨c', hc'⟩ := Program.ofNodes_of_statement (TokenStream.statement_of_parse hparse)
    obtain ⟨p, c, hc, hcounts⟩ := forLoop_counts hparse
    cases hc.symm.trans hc'
    have hstands : Script.StandsAt (assemble (Script.streams lateLoop)) lateLoop
        [⟨.script, []⟩] _ 0 0 := .script rfl
    obtain ⟨e, m', -, -, hfails, hvalues⟩ := (hcounts ⟨.unlimited, fun a => a⟩ _ _ _ _ _ _ _ 0
      hstands (fun s hs => absurd hs List.not_mem_nil) (runsExactly_zero _ _ _) rfl rfl
      (completes_of_eq _ _ _ _ _ _ _)).2 (by decide)
    exact ⟨_, _, _, _, e, m', hparse, hc, hfails, hvalues⟩

end Machine

end Scriptlet
