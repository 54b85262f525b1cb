import Scriptlet.Proofs.Assignment
import Scriptlet.Proofs.Standstill

/-! Machines in any hands.  The program may be any table of streams, and a host may make the
machine step, take and put operands, define globals and call builtins, in any order and whatever
has failed before.  The global frame stays at the bottom of the frames and keeps its names, and
every call comes back to a place of the program, so no step lacks a frame or the active stream. -/

namespace Scriptlet.Machine

variable {host : Host} {m m' : Machine} {f : Fault}

inductive Goes (host : Host) (m : Machine) : Machine → Prop
  | transition {i : Instruction} {m' : Machine} :
    m.outlook = .instruction i → Transition host m i m' → Goes host m m'
  | atEnd {a : Activation} {calls : List Activation} :
    m.calls = a :: calls → Goes host m (m.returned a calls .nil)
  | stays {m' : Machine} : Popped m m' → Goes host m m'

theorem goes_successor (host : Host) (m : Machine) : Goes host m (m.successor host) := by
  rw [successor, step_eq]
  cases ho : m.outlook with
  | noCode | noOpcode | noOperand => exact .stays (.refl m)
  | atEnd =>
    cases hc : m.calls with
    | nil => exact .stays (.refl m)
    | cons a calls => exact .atEnd hc
  | instruction i =>
    dsimp only
    cases hx : execute host i m with
    | error f m' => exact .stays (failsPopped_execute host i m f m' hx)
    | ok flow m' =>
      obtain ⟨rfl, -, -, v, hv, hm⟩ | ⟨hflow, ht⟩ := Transition.of_execute hx
      · refine .stays ⟨1, m.written, ?_⟩
        simp only [proceed, stateOf_ok, hv, List.drop_one, List.tail_cons]
        exact hm
      · cases flow with
        | halt => exact absurd rfl hflow
        | next | moved => exact .transition ho ht

theorem lt_size_of_outlook {i : Instruction} (h : m.outlook = .instruction i) :
    ∃ slots, m.program.code[m.code]? = some slots ∧ m.ip < slots.size := by
  rw [outlook] at h
  split at h
  · cases h
  · next slots hcode =>
    split at h
    · cases h
    · next slot hslot => exact ⟨slots, hcode, (Array.getElem?_eq_some_iff.1 hslot).1⟩

def GrowsGlobal (m m' : Machine) : Prop :=
  ∀ g, m.frames.getLast? = some g →
    ∃ g', m'.frames.getLast? = some g' ∧ ∀ x, (g.get? x).isSome → (g'.get? x).isSome

theorem GrowsGlobal.of_getLast? (h : m'.frames.getLast? = m.frames.getLast?) :
    GrowsGlobal m m' := fun g hg => ⟨g, h.trans hg, fun _ => id⟩

theorem GrowsGlobal.trans {m'' : Machine} (h : GrowsGlobal m m') (h' : GrowsGlobal m' m'') :
    GrowsGlobal m m'' := by
  intro g hg
  obtain ⟨g', hg', hx⟩ := h g hg
  obtain ⟨g'', hg'', hx'⟩ := h' g' hg'
  exact ⟨g'', hg'', fun x hgx => hx' x (hx x hgx)⟩

theorem isSome_get?_bind {g : Frame} {x : String} (h : (g.get? x).isSome) (y : String) (v : Value) :
    ((g.bind y v).get? x).isSome := by
  by_cases hxy : x = y
  · subst hxy
    rw [Frame.get?_bind_self]
    rfl
  · rwa [Frame.get?_bind_of_ne g hxy]

theorem growsGlobal_bindGlobal (m : Machine) (x : String) (v : Value) :
    GrowsGlobal m (m.bindGlobal x v) := by
  intro g hg
  obtain ⟨fs, hfs⟩ := List.getLast?_eq_some_iff.1 hg
  refine ⟨g.bind x v, ?_, fun y hy => isSome_get?_bind hy x v⟩
  simp only [bindGlobal, hfs]
  rw [modify_concat, List.getLast?_concat]

theorem growsGlobal_returned {a : Activation} (ha : 1 ≤ a.depth) (calls : List Activation)
    (v : Value) : GrowsGlobal m (m.returned a calls v) := by
  intro g hg
  refine ⟨g, ?_, fun _ => id⟩
  have hpos : 0 < m.frames.length := by
    rw [List.length_pos_iff]
    rintro hnil
    rw [hnil] at hg
    cases hg
  rw [returned, List.getLast?_drop, if_neg (by omega), hg]

theorem Transition.growsGlobal {i : Instruction} (h : Transition host m i m')
    (hd : ∀ a ∈ m.calls, 1 ≤ a.depth) : GrowsGlobal m m' := by
  cases h with
  | @setEnv v x vs f fs hs hf =>
    intro g hg
    rw [hf] at hg
    cases fs with
    | nil =>
      cases hg
      exact ⟨_, rfl, fun y hy => isSome_get?_bind hy x v⟩
    | cons f' fs => exact ⟨g, hg, fun _ => id⟩
  | @setEnvGlobal v x vs hs hf => exact growsGlobal_bindGlobal m x v
  | enterScope | call =>
    intro g hg
    refine ⟨g, ?_, fun _ => id⟩
    rw [List.getLast?_cons, hg]
    rfl
  | leaveScope hl =>
    refine .of_getLast? ?_
    rw [List.getLast?_tail, if_neg (by omega)]
  | @ret v vs a calls hs hc =>
    have ha : 1 ≤ a.depth := hd a (by simp [hc])
    exact growsGlobal_returned (m := { m with stack := vs }) ha calls v
  | builtin hs hb =>
    obtain ⟨vs, v, hm⟩ := answered_of_callBuiltin hb
    rw [hm.machine]
    exact .of_getLast? rfl
  | _ => exact .of_getLast? rfl

/-- There is a frame, the active stream exists, and every call keeps a frame and a place to come
back to. -/
structure Sturdy (m : Machine) : Prop where
  frames : m.frames ≠ []
  active : m.code < m.program.code.size
  depths : ∀ a ∈ m.calls, 1 ≤ a.depth
  places : ∀ a ∈ m.calls, ∃ slots, m.program.code[a.code]? = some slots ∧ a.ip ≤ slots.size

theorem sturdy_ofProgram {p : Program} (hp : 0 < p.code.size) : (ofProgram p).Sturdy :=
  ⟨List.cons_ne_nil _ _, hp, nofun, nofun⟩

theorem GrowsGlobal.frames_ne_nil (h : GrowsGlobal m m') (hm : m.frames ≠ []) :
    m'.frames ≠ [] := by
  obtain ⟨g', hg', -⟩ := h _ (List.getLast?_eq_some_getLast hm)
  rintro hnil
  rw [hnil] at hg'
  cases hg'

structure Endures (m m' : Machine) : Prop where
  program : m'.program = m.program
  global : GrowsGlobal m m'
  sturdy : m'.Sturdy

theorem Endures.trans {m'' : Machine} (h : Endures m m') (h' : Endures m' m'') : Endures m m'' :=
  ⟨h'.program.trans h.program, h.global.trans h'.global, h'.sturdy⟩

namespace Sturdy

theorem refl (h : m.Sturdy) : Endures m m := ⟨rfl, .of_getLast? rfl, h⟩

theorem beside (h : m.Sturdy) (hp : m'.program = m.program) (hc : m'.code = m.code)
    (hcalls : m'.calls = m.calls) (hg : GrowsGlobal m m') : Endures m m' := by
  refine ⟨hp, hg, hg.frames_ne_nil h.frames, ?_, ?_, ?_⟩
  · rw [hc, hp]
    exact h.active
  · rw [hcalls]
    exact h.depths
  · rw [hcalls, hp]
    exact h.places

theorem popped (h : m.Sturdy) (hm : Popped m m') : Endures m m' := by
  obtain ⟨k, w, rfl⟩ := hm
  exact h.beside rfl rfl rfl (.of_getLast? rfl)

theorem back {a : Activation} {calls : List Activation} (h : m.Sturdy) (hc : m.calls = a :: calls)
    (hp : m'.program = m.program) (hcode : m'.code = a.code) (hcalls : m'.calls = calls)
    (hg : GrowsGlobal m m') : Endures m m' := by
  have hmem : ∀ b ∈ m'.calls, b ∈ m.calls := by
    rw [hcalls, hc]
    exact fun b => List.mem_cons_of_mem a
  obtain ⟨slots, hslots, -⟩ := h.places a (by simp [hc])
  refine ⟨hp, hg, hg.frames_ne_nil h.frames, ?_, fun b hb => h.depths b (hmem b hb), ?_⟩
  · rw [hp, hcode]
    exact (Array.getElem?_eq_some_iff.1 hslots).1
  · intro b hb
    rw [hp]
    exact h.places b (hmem b hb)

theorem transition {i : Instruction} (h : m.Sturdy) (ho : m.outlook = .instruction i)
    (ht : Transition host m i m') : Endures m m' := by
  have hg := ht.growsGlobal h.depths
  obtain ⟨hp, hs⟩ := ht.shifts
  cases hs with
  | within hc hcalls _ => exact h.beside hp hc hcalls hg
  | back hc hcalls hcode _ => exact h.back hc hp hcode hcalls hg
  | into _ hid hcalls hcode _ =>
    obtain ⟨slots, hslots, hip⟩ := lt_size_of_outlook ho
    refine ⟨hp, hg, hg.frames_ne_nil h.frames, ?_, ?_, ?_⟩
    · rw [hp, hcode]
      exact hid
    · rw [hcalls]
      exact List.forall_mem_cons.2 ⟨List.length_pos_iff.2 h.frames, h.depths⟩
    · rw [hcalls, hp]
      exact List.forall_mem_cons.2 ⟨⟨slots, hslots, hip⟩, h.places⟩

theorem goes (h : m.Sturdy) (hm : Goes host m m') : Endures m m' := by
  cases hm with
  | transition ho ht => exact h.transition ho ht
  | atEnd hc => exact h.back hc rfl rfl rfl (growsGlobal_returned (h.depths _ (by simp [hc])) _ _)
  | stays hp => exact h.popped hp

end Sturdy

/-- A host makes the machine step, or has a hand in its operands, tables and globals itself. -/
inductive Request
  | step
  | push (v : Value)
  | pop
  | popNumber
  | popString
  | popTable
  | newTable
  | define (x : String) (v : Value)
  | builtin (b : Builtin)
  deriving DecidableEq

def Request.action (host : Host) : Request → Action Unit
  | step => discard (Machine.step host)
  | push v => Machine.push v
  | pop => discard Machine.pop
  | popNumber => discard Machine.popNumber
  | popString => discard Machine.popString
  | popTable => discard Machine.popTable
  | newTable => discard Machine.newTable
  | define x v => Machine.define x v
  | builtin b => callBuiltin host b

/-- The machine after some requests, each of a host of its own, whether or not they fail. -/
def serve (m : Machine) (rs : List (Host × Request)) : Machine :=
  rs.foldl (fun m r => stateOf (r.2.action r.1 m)) m

theorem stateOf_discard (a : Action α) (m : Machine) : stateOf (discard a m) = stateOf (a m) := by
  simp only [discard, Functor.mapConst, EStateM.map, Function.comp_apply]
  cases a m <;> rfl

theorem OnlyPops.endures {a : Action α} (ha : OnlyPops a) (h : m.Sturdy) :
    Endures m (stateOf (discard a m)) := by
  rw [stateOf_discard]
  exact h.popped (ha m)

theorem Sturdy.callBuiltin (h : m.Sturdy) (host : Host) (b : Builtin) :
    Endures m (stateOf (callBuiltin host b m)) := by
  cases hb : Machine.callBuiltin host b m with
  | error f m' => exact h.popped (failsPopped_callBuiltin host b m f m' hb)
  | ok _ m' =>
    obtain ⟨vs, v, hm⟩ := answered_of_callBuiltin hb
    rw [stateOf_ok, hm.machine]
    exact h.beside rfl rfl rfl (.of_getLast? rfl)

theorem Sturdy.request (h : m.Sturdy) (host : Host) (r : Request) :
    Endures m (stateOf (r.action host m)) := by
  cases r with
  | step =>
    rw [Request.action, stateOf_discard]
    exact h.goes (goes_successor host m)
  | pop => exact onlyPops_pop.endures h
  | popNumber => exact onlyPops_popNumber.endures h
  | popString => exact onlyPops_popString.endures h
  | popTable => exact onlyPops_popTable.endures h
  | push | newTable => exact h.beside rfl rfl rfl (.of_getLast? rfl)
  | define x v => exact h.beside rfl rfl rfl (growsGlobal_bindGlobal m x v)
  | builtin b => exact h.callBuiltin host b

theorem Sturdy.serve (h : m.Sturdy) (rs : List (Host × Request)) : Endures m (m.serve rs) := by
  induction rs generalizing m with
  | nil => exact h.refl
  | cons r rs ih =>
    have hr := h.request r.1 r.2
    exact hr.trans (ih hr.sturdy)

theorem outlook_ne_noCode (h : m.code < m.program.code.size) : m.outlook ≠ .noCode := by
  rw [outlook, Array.getElem?_eq_getElem h]
  dsimp only
  split
  · exact Outlook.noConfusion
  · split
    · exact Outlook.noConfusion
    · split <;> exact Outlook.noConfusion

theorem Sturdy.fails_of_step (h : m.Sturdy) (hs : step host m = .error f m') :
    (∃ i, m.op? = some i.opcode ∧ m.Fails i f) ∨
      (∃ slot, f = .unknownOpcode m.code m.ip slot) ∨ ∃ op, f = .badOperand op m.code m.ip := by
  rw [step_eq] at hs
  cases ho : m.outlook with
  | noCode => exact absurd ho (outlook_ne_noCode h.active)
  | atEnd =>
    rw [ho] at hs
    cases hc : m.calls <;> simp [hc] at hs
  | noOpcode slot =>
    rw [ho] at hs
    cases hs
    exact .inr (.inl ⟨slot, rfl⟩)
  | noOperand op =>
    rw [ho] at hs
    cases hs
    exact .inr (.inr ⟨op, rfl⟩)
  | instruction i =>
    rw [ho] at hs
    exact .inl ⟨i, op?_of_outlook ho, .of_execute (eq_error_of_proceed hs)⟩

theorem lastFrame_of_scopeUnderflow (h : m.Sturdy) (hs : step host m = .error .scopeUnderflow m') :
    m.op? = some .leaveScope ∧ m.frames.length = 1 := by
  obtain ⟨i, hop, hi⟩ | ⟨slot, hf⟩ | ⟨op, hf⟩ := h.fails_of_step hs
  · cases hi with
    | noFrame hf => exact absurd hf h.frames
    | lastFrame hl => exact ⟨hop, Nat.le_antisymm hl (List.length_pos_iff.2 h.frames)⟩
    | builtin hb => cases hb
  · cases hf
  · cases hf

theorem callee_of_missingCode {id : Nat} (h : m.Sturdy)
    (hs : step host m = .error (.missingCode id) m') :
    m.op? = some .call ∧ m.program.code.size ≤ id ∧
      ∃ vs, m.stack = .function (.compiled id) :: vs := by
  obtain ⟨i, hop, hi⟩ | ⟨slot, hf⟩ | ⟨op, hf⟩ := h.fails_of_step hs
  · cases hi with
    | missingCode hstack hid => exact ⟨hop, hid, _, hstack⟩
    | builtin hb => cases hb
  · cases hf
  · cases hf

theorem eq_error_of_discard {a : Action α} (h : discard a m = .error f m') : a m = .error f m' := by
  simp only [discard, Functor.mapConst, EStateM.map, Function.comp_apply] at h
  cases ha : a m with
  | ok x m₁ =>
    rw [ha] at h
    cases h
  | error g m₁ =>
    rw [ha] at h
    cases h
    rfl

theorem Request.fault_of_ne_step {r : Request} (hr : r ≠ .step)
    (h : r.action host m = .error f m') : f = .stackUnderflow ∨ f.isOfBuiltin := by
  cases r with
  | step => exact absurd rfl hr
  | push | newTable | define => cases h
  | pop => exact .inl (underflow_of_pop (eq_error_of_discard h)).1
  | popNumber =>
    obtain ⟨hf, -⟩ | ⟨v, vs, rfl, -⟩ := cases_of_popNumber (eq_error_of_discard h)
    · exact .inl hf
    · exact .inr rfl
  | popString =>
    obtain ⟨hf, -⟩ | ⟨v, vs, rfl, -⟩ := cases_of_popString (eq_error_of_discard h)
    · exact .inl hf
    · exact .inr rfl
  | popTable => exact (cases_of_popTable (eq_error_of_discard h)).imp_left (·.1)
  | builtin b => exact (cases_of_callBuiltin h).imp_left (·.1)

/-- If the request fails for want of a frame or of a stream, then it is a step that leaves the
last frame, or that calls a function without a stream. -/
structure Blames (r : Request) (m : Machine) (f : Fault) : Prop where
  frame : f = .scopeUnderflow → r = .step ∧ m.op? = some .leaveScope ∧ m.frames.length = 1
  stream : ∀ id, f = .missingCode id → r = .step ∧ m.op? = some .call ∧
    m.program.code.size ≤ id ∧ ∃ vs, m.stack = .function (.compiled id) :: vs

theorem Sturdy.blames {r : Request} (h : m.Sturdy) (hr : r.action host m = .error f m') :
    Blames r m f := by
  by_cases hstep : r = .step
  · subst hstep
    have hs := eq_error_of_discard hr
    constructor
    · rintro rfl
      exact ⟨rfl, lastFrame_of_scopeUnderflow h hs⟩
    · rintro id rfl
      exact ⟨rfl, callee_of_missingCode h hs⟩
  · have hf := Request.fault_of_ne_step hstep hr
    constructor
    · rintro rfl
      simp [Fault.isOfBuiltin] at hf
    · rintro id rfl
      simp [Fault.isOfBuiltin] at hf

def HasGlobal (m : Machine) (x : String) : Prop :=
  ∃ g, m.frames.getLast? = some g ∧ (g.get? x).isSome

theorem GrowsGlobal.hasGlobal (h : GrowsGlobal m m') {x : String} (hx : m.HasGlobal x) :
    m'.HasGlobal x := by
  obtain ⟨g, hg, hgx⟩ := hx
  obtain ⟨g', hg', hnames⟩ := h g hg
  exact ⟨g', hg', hnames x hgx⟩

/-- Whatever the streams of a program, and whatever hosts ask of its machine: the machine is
sturdy all the time, no global goes away, and the faults for want of a frame or a stream have no
other causes than those that they are meant for. -/
theorem sturdy_serve (p : Program) (hp : 0 < p.code.size) (rs : List (Host × Request)) :
    ((ofProgram p).serve rs).program = p ∧ ((ofProgram p).serve rs).Sturdy ∧
    (∀ more x, ((ofProgram p).serve rs).HasGlobal x →
      ((ofProgram p).serve (rs ++ more)).HasGlobal x) ∧
    ∀ host r f m', Request.action host r ((ofProgram p).serve rs) = .error f m' →
      Blames r ((ofProgram p).serve rs) f := by
  obtain ⟨hprogram, -, hsturdy⟩ := (sturdy_ofProgram hp).serve rs
  refine ⟨hprogram, hsturdy, fun more x hx => ?_, fun host r f m' hr => hsturdy.blames hr⟩
  rw [serve, List.foldl_append]
  exact (hsturdy.serve more).global.hasGlobal hx

/-- A function that closes its own frame and one of its caller's, and then tries the last. -/
def closing : Program :=
  ⟨#[#[.ofOpcode .enterScope, .ofOpcode .pushFunction, .code 1, .ofOpcode .call],
    #[.ofOpcode .leaveScope, .ofOpcode .leaveScope, .ofOpcode .leaveScope]]⟩

def accepting : Host := ⟨.unlimited, id⟩

def refusing : Host := ⟨⟨fun _ _ => .refused 0 "full", fun _ => none⟩, id⟩

def opening : List (Host × Request) :=
  [(accepting, .push .nil), (refusing, .builtin .print), (accepting, .push .nil),
    (accepting, .builtin .print), (accepting, .define "x" .nil)]

def closed : Machine :=
  (ofProgram closing).serve (opening ++ List.replicate 5 (accepting, .step))

theorem sturdy_serve_closing :
    closed.frames.length = 1 ∧ closed.calls = [⟨4, 0, 2⟩] ∧ closed.written = "nil\n".toUTF8 ∧
      closed.Sturdy ∧ closed.HasGlobal "x" ∧
      ∃ m', Request.step.action accepting closed = .error .scopeUnderflow m' ∧
        Blames .step closed .scopeUnderflow := by
  have hp : 0 < closing.code.size := by decide
  obtain ⟨-, hm, -, hblames⟩ :=
    sturdy_serve closing hp (opening ++ List.replicate 5 (accepting, .step))
  obtain ⟨-, -, hx, -⟩ := sturdy_serve closing hp opening
  have hglobal : (((ofProgram closing).serve opening).frames.getLast?.bind
      (·.get? "x")).isSome := by decide +kernel
  obtain ⟨v, hv⟩ := Option.isSome_iff_exists.1 hglobal
  obtain ⟨g, hg, hgx⟩ := Option.bind_eq_some_iff.1 hv
  have hfault : (match Request.step.action accepting closed with
      | .ok _ _ => none
      | .error f _ => some f) = some .scopeUnderflow := by decide +kernel
  refine ⟨by decide +kernel, by decide +kernel, by decide +kernel, hm,
    hx _ "x" ⟨g, hg, by rw [hgx]; rfl⟩, ?_⟩
  cases hstep : Request.step.action accepting closed with
  | ok _ m' =>
    rw [hstep] at hfault
    cases hfault
  | error f m' =>
    rw [hstep] at hfault
    cases hfault
    exact ⟨m', rfl, hblames _ _ _ _ hstep⟩

end Scriptlet.Machine
