import Scriptlet.Proofs.Relocation
import Scriptlet.Proofs.Streams

/-! The table of functions.  The functions of a script are numbered in the order of its text, and
each has the number of the function around it, or zero.  The compiler keeps to these numbers: a
function's stream stands at its number, and its number is pushed once in the program, by the
stream of the function around it. -/

namespace Scriptlet

open Code

/-- A function in a script: its number, the number of the innermost function around it, which is
zero if there is none, and what is written there. -/
structure Declared where
  id : Nat
  owner : Nat
  name : String
  params : List String
  body : List Node

namespace Node

mutual

/-- The functions in a node in the order of the text, numbered from `first` on.  The node is in
the body of the function `owner`. -/
def declared (owner first : Nat) : Node → List Declared
  | .value _ => []
  | .notEqual lhs rhs =>
    let l := declared owner first lhs
    l ++ declared owner (first + l.length) rhs
  | .call _ _ args => declaredAll owner first args
  | .index _ key => declared owner first key
  | .assign _ target v =>
    let t := declared owner first target
    t ++ declared owner (first + t.length) v
  | .ifThen condition body =>
    let c := declared owner first condition
    c ++ declaredAll owner (first + c.length) body
  | .forLoop initial bound body =>
    let i := declared owner first initial
    let e := declared owner (first + i.length) bound
    i ++ e ++ declaredAll owner (first + i.length + e.length) body
  | .function f params body =>
    ⟨first, owner, f, params, body⟩ :: declaredAll first (first + 1) body
  | .ret v => declared owner first v

def declaredAll (owner first : Nat) : List Node → List Declared
  | [] => []
  | n :: ns =>
    let l := declared owner first n
    l ++ declaredAll owner (first + l.length) ns

end

theorem declared_eq_children (owner first : Nat) {n : Node}
    (h : ∀ f params body, n ≠ .function f params body) :
    n.declared owner first = declaredAll owner first n.children := by
  cases n with
  | function f params body => exact absurd rfl (h f params body)
  | _ => simp [declared, declaredAll, children]

end Node

open Node

def Declared.node (d : Declared) : Node := .function d.name d.params d.body

theorem occurs_of_mem_declaredAll_of {d : Declared} {ns : List Node}
    (h : ∀ n ∈ ns, ∀ owner first, d ∈ n.declared owner first →
      d.node = n ∨ Occurs d.node n.children) :
    ∀ owner first, d ∈ declaredAll owner first ns → Occurs d.node ns := by
  induction ns with
  | nil => exact fun _ _ hd => absurd hd List.not_mem_nil
  | cons n ns ih =>
    obtain ⟨hn, hns⟩ := List.forall_mem_cons.1 h
    intro owner first hd
    rcases List.mem_append.1 hd with hd | hd
    · rcases hn owner first hd with hd | hd
      · exact .here (by simp [hd])
      · exact .under List.mem_cons_self hd
    · exact (ih hns _ _ hd).of_subset (List.subset_cons_self n ns)

theorem occurs_of_mem_declared {d : Declared} (n : Node) :
    ∀ owner first, d ∈ n.declared owner first → d.node = n ∨ Occurs d.node n.children := by
  induction n using Node.induction_children with
  | h n ih =>
    have hchildren := occurs_of_mem_declaredAll_of ih
    intro owner first hd
    by_cases hn : ∃ f params body, n = .function f params body
    · obtain ⟨f, params, body, rfl⟩ := hn
      rcases List.mem_cons.1 hd with rfl | hd
      · exact .inl rfl
      · exact .inr (hchildren _ _ hd)
    · rw [declared_eq_children owner first fun f params body h => hn ⟨f, params, body, h⟩] at hd
      exact .inr (hchildren _ _ hd)

theorem occurs_of_mem_declaredAll {d : Declared} {ns : List Node} {owner first : Nat}
    (hd : d ∈ declaredAll owner first ns) : Occurs d.node ns :=
  occurs_of_mem_declaredAll_of (fun n _ => occurs_of_mem_declared n) owner first hd

def Declared.within (owner : Nat) (ds : List Declared) : List Declared :=
  ds.filter (·.owner = owner)

/-- The functions are numbered in order, and each is owned by `owner` or by one of them.  A
function among them owns just those that are right in its body. -/
structure Enumerates (owner first : Nat) (ds : List Declared) : Prop where
  ids : ds.map Declared.id = List.range' first ds.length
  owners : ∀ d ∈ ds, d.owner = owner ∨ (first ≤ d.owner ∧ d.owner < first + ds.length)
  within : ∀ d ∈ ds,
    Declared.within d.id ds = Declared.within d.id (declaredAll d.id (d.id + 1) d.body)

namespace Enumerates

variable {owner first id : Nat} {ds es : List Declared}

theorem nil (owner first : Nat) : Enumerates owner first [] := ⟨rfl, by simp, by simp⟩

theorem id_mem (h : Enumerates owner first ds) {d : Declared} (hd : d ∈ ds) :
    first ≤ d.id ∧ d.id < first + ds.length := by
  have hid : d.id ∈ ds.map Declared.id := List.mem_map_of_mem hd
  rw [h.ids, List.mem_range'_1] at hid
  exact hid

theorem within_eq_nil (h : Enumerates owner first ds) (hne : id ≠ owner)
    (hid : id < first ∨ first + ds.length ≤ id) : Declared.within id ds = [] := by
  rw [Declared.within, List.filter_eq_nil_iff]
  intro d hd
  have := h.owners d hd
  rw [decide_eq_true_eq]
  omega

theorem append (h : Enumerates owner first ds) (h' : Enumerates owner (first + ds.length) es)
    (ho : owner < first) : Enumerates owner first (ds ++ es) := by
  refine ⟨?_, ?_, ?_⟩
  · rw [List.map_append, h.ids, h'.ids, List.length_append, List.range'_append_1]
  · intro d hd
    rw [List.length_append]
    rcases List.mem_append.1 hd with hd | hd
    · have := h.owners d hd
      omega
    · have := h'.owners d hd
      omega
  · intro d hd
    rw [Declared.within, List.filter_append, ← Declared.within, ← Declared.within]
    rcases List.mem_append.1 hd with hd | hd
    · have hid := h.id_mem hd
      rw [h'.within_eq_nil (by omega) (by omega), List.append_nil, h.within d hd]
    · have hid := h'.id_mem hd
      rw [h.within_eq_nil (by omega) (by omega), List.nil_append, h'.within d hd]

theorem function (f : String) (params : List String) {body : List Node} (ho : owner < first)
    (h : Enumerates first (first + 1) (declaredAll first (first + 1) body)) :
    Enumerates owner first
      (⟨first, owner, f, params, body⟩ :: declaredAll first (first + 1) body) := by
  have hself (id : Nat) (hid : id ≠ owner) : Declared.within id
      (⟨first, owner, f, params, body⟩ :: declaredAll first (first + 1) body) =
      Declared.within id (declaredAll first (first + 1) body) := by
    rw [Declared.within, List.filter_cons_of_neg (by simpa using hid.symm), Declared.within]
  refine ⟨?_, ?_, ?_⟩
  · rw [List.map_cons, h.ids, List.length_cons, List.range'_succ]
  · intro d hd
    rcases List.mem_cons.1 hd with rfl | hd
    · exact .inl rfl
    · have := h.owners d hd
      rw [List.length_cons]
      omega
  · intro d hd
    rcases List.mem_cons.1 hd with rfl | hd
    · exact hself first (by omega)
    · have hid := h.id_mem hd
      rw [hself d.id (by omega), h.within d hd]

end Enumerates

theorem enumerates_declaredAll_of {ns : List Node}
    (h : ∀ n ∈ ns, ∀ owner first, owner < first → Enumerates owner first (n.declared owner first)) :
    ∀ owner first, owner < first → Enumerates owner first (declaredAll owner first ns) := by
  induction ns with
  | nil => exact fun owner first _ => .nil owner first
  | cons n ns ih =>
    obtain ⟨hn, hns⟩ := List.forall_mem_cons.1 h
    intro owner first ho
    exact (hn owner first ho).append (ih hns owner _ (by omega)) ho

theorem enumerates_declared (n : Node) :
    ∀ owner first, owner < first → Enumerates owner first (n.declared owner first) := by
  induction n using Node.induction_children with
  | h n ih =>
    have hchildren := enumerates_declaredAll_of ih
    intro owner first ho
    by_cases hn : ∃ f params body, n = .function f params body
    · obtain ⟨f, params, body, rfl⟩ := hn
      exact .function f params ho (hchildren first (first + 1) (Nat.lt_succ_self first))
    · rw [declared_eq_children owner first fun f params body h => hn ⟨f, params, body, h⟩]
      exact hchildren owner first ho

theorem enumerates_declaredAll {owner first : Nat} (ho : owner < first) (ns : List Node) :
    Enumerates owner first (declaredAll owner first ns) :=
  enumerates_declaredAll_of (fun n _ => enumerates_declared n) owner first ho

inductive Code.Binds : List Instruction → List (String × Nat) → Prop
  | none {is : List Instruction} : is.all (!·.isPushFunction) → Binds is []
  | one (f : String) (id : Nat) : Binds [.pushId f, .pushFunction id] [(f, id)]
  | append {is js : List Instruction} {fs gs : List (String × Nat)} : Binds is fs → Binds js gs →
    Binds (is ++ js) (fs ++ gs)

namespace Code.Binds

variable {is js : List Instruction} {fs : List (String × Nat)}

theorem before (hp : is.all (!·.isPushFunction)) (h : Binds js fs) : Binds (is ++ js) fs :=
  (Binds.none hp).append h

theorem behind (h : Binds is fs) (hp : js.all (!·.isPushFunction)) : Binds (is ++ js) fs := by
  rw [← List.append_nil fs]
  exact h.append (.none hp)

theorem count_eq (h : Binds is fs) (id : Nat) :
    (slots is).count (.code id) = (fs.map Prod.snd).count id := by
  induction h with
  | none hp =>
    rw [List.map_nil, List.count_nil, List.count_eq_zero]
    intro hmem
    have hplain := List.all_eq_true.1 hp _ (pushFunction_of_mem_slots hmem)
    cases hplain
  | one f id' =>
    have hslots : slots [.pushId f, .pushFunction id'] =
        [.ofOpcode .pushId, .name f, .ofOpcode .pushFunction, .code id'] := rfl
    simp [hslots, Slot.ofOpcode, List.count_cons]
  | append _ _ ih ih' =>
    rw [slots_append, List.count_append, ih, ih', List.map_append, List.count_append]

theorem exists_of_mem (h : Binds is fs) {f : String} {id : Nat} (hf : (f, id) ∈ fs) :
    ∃ pre post, is = pre ++ [.pushId f, .pushFunction id] ++ post := by
  induction h with
  | none _ => cases hf
  | one f' id' =>
    cases List.mem_singleton.1 hf
    exact ⟨[], [], rfl⟩
  | @append is js _ _ _ _ ih ih' =>
    rcases List.mem_append.1 hf with hf | hf
    · obtain ⟨pre, post, rfl⟩ := ih hf
      exact ⟨pre, post ++ js, by simp⟩
    · obtain ⟨pre, post, rfl⟩ := ih' hf
      exact ⟨is ++ pre, post, by simp⟩

end Code.Binds

def Declared.binding (d : Declared) : String × Nat := (d.name, d.id)

/-- The functions `ds` are those that the compiler finds, and the row binds those of them that are
right in the body of `owner`. -/
structure Describes (owner : Nat) (ds : List Declared) (rs : List Routine)
    (is : List Instruction) : Prop where
  routines : ds.map (fun d => (d.params, d.body, d.id + 1, some d.params)) =
    rs.map fun r => (r.params, r.body, r.scoping.next, r.scoping.scopes.head?)
  row : Binds is ((Declared.within owner ds).map Declared.binding)

namespace Describes

variable {owner : Nat} {ds es : List Declared} {rs ts : List Routine} {is js : List Instruction}

theorem none (owner : Nat) (hp : is.all (!·.isPushFunction)) : Describes owner [] [] is :=
  ⟨rfl, .none hp⟩

theorem length_eq (h : Describes owner ds rs is) : ds.length = rs.length := by
  simpa using congrArg List.length h.routines

theorem next_after {n : Node} {σ : Scoping}
    (h : Describes owner (n.declared owner σ.next) (n.routines σ) is) :
    σ.next + (n.declared owner σ.next).length = (σ.after n).next := by
  rw [Scoping.next_after, h.length_eq]

theorem append (h : Describes owner ds rs is) (h' : Describes owner es ts js) :
    Describes owner (ds ++ es) (rs ++ ts) (is ++ js) := by
  refine ⟨?_, ?_⟩
  · rw [List.map_append, List.map_append, h.routines, h'.routines]
  · rw [Declared.within, List.filter_append, List.map_append]
    exact h.row.append h'.row

theorem before (hp : is.all (!·.isPushFunction)) (h : Describes owner ds rs js) :
    Describes owner ds rs (is ++ js) := (none owner hp).append h

theorem behind (h : Describes owner ds rs is) (hp : js.all (!·.isPushFunction)) :
    Describes owner ds rs (is ++ js) := ⟨h.routines, h.row.behind hp⟩

end Describes

theorem Scoping.lt_next_after {owner : Nat} (σ : Scoping) (h : owner < σ.next) (n : Node) :
    owner < (σ.after n).next := Nat.lt_of_lt_of_le h (σ.next_le_after n)

namespace Node

theorem describes_function {owner : Nat} {σ : Scoping} (ho : owner < σ.next) {f : String}
    {params : List String} {body : List Node} {is : List Instruction}
    (h : Describes σ.next (declaredAll σ.next (σ.next + 1) body)
      (routinesAll (σ.enterFunction params) body) is) (base : Nat) :
    Describes owner (declared owner σ.next (.function f params body))
      (routines σ (.function f params body)) (lower σ base (.function f params body)) := by
  rw [declared, routines, lower]
  refine ⟨?_, ?_⟩
  · rw [List.map_cons, List.map_cons, h.routines]
    rfl
  · -- the functions in the body are owned by this one
    have hinner : Declared.within owner (declaredAll σ.next (σ.next + 1) body) = [] :=
      (enumerates_declaredAll (Nat.lt_succ_self _) body).within_eq_nil (by omega) (by omega)
    rw [Declared.within, List.filter_cons_of_pos (by simp), ← Declared.within, hinner]
    exact (Binds.one f σ.next).behind (names_lowerStore _)

theorem describes_lowerTurns {owner : Nat} {x : String} {σ : Scoping} {base : Nat}
    {initial bound : Node} {body : List Node} {ds es fs : List Declared} {rs ts us : List Routine}
    (hi : Describes owner ds rs (lower σ base initial))
    (he : ∀ b, Describes owner es ts (lower (σ.after initial) b bound))
    (hb : ∀ b, Describes owner fs us (lowerBlock ((σ.after initial).after bound) b body)) :
    Describes owner (ds ++ es ++ fs) (rs ++ ts ++ us)
      (lowerTurns x σ base initial bound body) := by
  rw [lowerTurns]
  refine .behind (.append (.behind (.append hi ?_) rfl) (.behind (hb _) rfl)) rfl
  exact .behind (.before rfl (he _)) rfl

mutual

theorem describes_lower : (n : Node) → n.Compilable → ∀ {owner : Nat} {σ : Scoping} (base : Nat),
    owner < σ.next → Describes owner (n.declared owner σ.next) (n.routines σ) (n.lower σ base)
  | .value l, _, _, _, _, _ => .none _ (names_lowerLiteral l)
  | .notEqual lhs rhs, h, owner, σ, base, ho => by
    have hl := describes_lower lhs h.1 base ho
    rw [declared, routines, lower, hl.next_after]
    exact (hl.append (describes_lower rhs h.2 _ (σ.lt_next_after ho lhs))).behind rfl
  | .call receiver f args, h, owner, σ, base, ho => by
    rw [declared, routines, lower]
    have hargs := describes_lowerArguments args h base ho
    exact (hargs.behind (names_lowerCallee receiver f)).behind rfl
  | .index b key, h, owner, σ, base, ho => by
    rw [declared, routines, lower]
    exact ((describes_lower key h _ ho).before rfl).behind rfl
  | .assign isLocal target v, h, owner, σ, base, ho => by
    cases target with
    | value l =>
      cases l with
      | «variable» x =>
        rw [← Scoping.next_declareIf σ isLocal x] at ho ⊢
        have hv := describes_lower v h (base + 2) ho
        rw [declared, declared, routines, lower]
        exact (hv.before rfl).behind (names_lowerStore _)
      | _ => simp [Compilable] at h
    | index b key =>
      cases isLocal with
      | false =>
        have hk := describes_lower key h.1 (base + 3) ho
        rw [declared, declared, routines, lower, hk.next_after]
        exact ((hk.before rfl).append (describes_lower v h.2 _ (σ.lt_next_after ho key))).behind rfl
      | true => simp [Compilable] at h
    | _ => simp [Compilable] at h
  | .ifThen condition body, h, owner, σ, base, ho => by
    have hc := describes_lower condition h.1 base ho
    rw [declared, routines, lower, hc.next_after]
    exact (hc.behind rfl).append (describes_lowerBlock body h.2 _ (σ.lt_next_after ho condition))
  | .forLoop initial bound body, h, owner, σ, base, ho => by
    obtain ⟨hx, hi, he, hb⟩ := h
    obtain ⟨x, hx⟩ := Option.isSome_iff_exists.1 hx
    rw [← Scoping.next_enter σ []] at ho ⊢
    have ho₁ := (σ.enter []).lt_next_after ho initial
    have ho₂ := ((σ.enter []).after initial).lt_next_after ho₁ bound
    have hi := describes_lower initial hi (base + 1) ho
    have he (b : Nat) := describes_lower bound he b ho₁
    have hb (b : Nat) := describes_lowerBlock body hb b ho₂
    rw [declared, routines, lower_forLoop hx, hi.next_after, (he 0).next_after]
    exact ((describes_lowerTurns hi he hb).before rfl).behind rfl
  | .function f params body, h, owner, σ, base, ho => by
    have hinner : σ.next < (σ.enterFunction params).next := Nat.lt_succ_self σ.next
    exact describes_function ho (describes_lowerBlock body h 0 hinner) base
  | .ret v, h, owner, σ, base, ho => by
    rw [declared, routines, lower]
    exact (describes_lower v h base ho).behind rfl

theorem describes_lowerArguments : (ns : List Node) → CompilableAll ns →
    ∀ {owner : Nat} {σ : Scoping} (base : Nat), owner < σ.next →
      Describes owner (declaredAll owner σ.next ns) (routinesAll σ ns) (lowerArguments σ base ns)
  | [], _, _, _, _, _ => .none _ rfl
  | n :: ns, h, owner, σ, base, ho => by
    have hn := describes_lower n h.1 base ho
    rw [declaredAll, routinesAll, lowerArguments, hn.next_after]
    exact hn.append (describes_lowerArguments ns h.2 _ (σ.lt_next_after ho n))

theorem describes_lowerBlock : (ns : List Node) → CompilableAll ns →
    ∀ {owner : Nat} {σ : Scoping} (base : Nat), owner < σ.next →
      Describes owner (declaredAll owner σ.next ns) (routinesAll σ ns) (lowerBlock σ base ns)
  | [], _, _, _, _, _ => .none _ rfl
  | n :: ns, h, owner, σ, base, ho => by
    have hn := describes_lower n h.1 base ho
    rw [declaredAll, routinesAll, lowerBlock, hn.next_after]
    refine (hn.behind ?_).append (describes_lowerBlock ns h.2 _ (σ.lt_next_after ho n))
    split <;> rfl

end

end Node

def Declared.entry (d : Declared) : List Slot :=
  .ofOpcode .noOp :: d.params.reverse.flatMap fun x =>
    [.ofOpcode .pushId, .name x, .ofOpcode .swap, .ofOpcode .setEnv]

theorem Compiler.exists_compileNodes_relocate {ns : List Node} (h : CompilableAll ns)
    {c : Compiler} (hc : c.scopes ≠ []) (d : Nat) :
    ∃ l c', compileNodes ns c = .ok l c' ∧
      slots (lowerBlock c.scoping d ns) = l.map (Slot.relocate d) := by
  obtain ⟨c', hl, -⟩ := yields_emitBlock ns h 0 hc rfl
  obtain ⟨c'', hd, -⟩ := yields_emitBlock ns h d hc rfl
  refine ⟨_, c', hl, ?_⟩
  have hmoved : emitBlock d ns = List.map (Slot.relocate d) <$> emitBlock 0 ns :=
    moved_emitBlock ns (Nat.zero_add d).symm
  rw [hmoved, ← bind_pure_comp, bind_of_ok hl] at hd
  exact (EStateM.Result.ok.inj hd).1.symm

namespace Script

open Compiler

def functions (ns : List Node) : List Declared := declaredAll 0 1 ns

variable {ns : List Node}

theorem enumerates_functions (ns : List Node) : Enumerates 0 1 (functions ns) :=
  enumerates_declaredAll Nat.one_pos ns

theorem id_of_functions {k : Nat} {d : Declared} (hd : (functions ns)[k]? = some d) :
    d.id = k + 1 := by
  have hids := (enumerates_functions ns).ids
  have hlt := (List.getElem?_eq_some_iff.1 hd).1
  have hk := congrArg (·[k]?) hids
  simp only [List.getElem?_map, hd, Option.map_some, List.getElem?_range' hlt] at hk
  have := Option.some.inj hk
  omega

theorem describes_functions (h : CompilableAll ns) :
    Describes 0 (functions ns) (routines ns) (lowerBlock .start 0 ns) := by
  have hfirst : 0 < Scoping.start.next := Nat.one_pos
  exact describes_lowerBlock ns h 0 hfirst

theorem exists_routine (h : CompilableAll ns) {k : Nat} {d : Declared}
    (hd : (functions ns)[k]? = some d) :
    ∃ σ, (routines ns)[k]? = some ⟨d.params, d.body, σ⟩ ∧ σ.scopes.head? = some d.params ∧
      σ.next = d.id + 1 := by
  have hk := congrArg (·[k]?) (describes_functions h).routines
  simp only [List.getElem?_map, hd, Option.map_some] at hk
  obtain ⟨⟨params, body, σ⟩, hr, heq⟩ := Option.map_eq_some_iff.1 hk.symm
  simp only [Prod.mk.injEq] at heq
  obtain ⟨rfl, rfl, hnext, hhead⟩ := heq
  exact ⟨σ, hr, hhead, hnext⟩

theorem exists_declared (h : CompilableAll ns) {k : Nat} {r : Routine}
    (hr : (routines ns)[k]? = some r) :
    ∃ d, (functions ns)[k]? = some d ∧ r.params = d.params ∧ r.body = d.body := by
  have hlt := (List.getElem?_eq_some_iff.1 hr).1
  rw [← (describes_functions h).length_eq] at hlt
  have hd := List.getElem?_eq_getElem hlt
  obtain ⟨σ, hσ, -⟩ := exists_routine h hd
  cases hr.symm.trans hσ
  exact ⟨_, hd, rfl, rfl⟩

theorem compilableAll_of_routine (h : CompilableAll ns) {k : Nat} {r : Routine}
    (hr : (routines ns)[k]? = some r) : CompilableAll r.body :=
  compilableAll_iff.2 <| hereditary_compilable.routinesAll .start ns (compilableAll_iff.1 h) r
    (List.mem_of_getElem? hr)

theorem binds_streams (h : CompilableAll ns) {id : Nat} {is : List Instruction}
    (hs : (streams ns)[id]? = some is) :
    Binds is ((Declared.within id (functions ns)).map Declared.binding) := by
  cases id with
  | zero =>
    cases hs
    exact (describes_functions h).row
  | succ k =>
    obtain ⟨r, hr, rfl⟩ : ∃ r, (routines ns)[k]? = some r ∧ r.lower = is := by
      simpa [streams] using hs
    have hlt := (List.getElem?_eq_some_iff.1 hr).1
    rw [← (describes_functions h).length_eq] at hlt
    have hd := List.getElem?_eq_getElem hlt
    obtain ⟨σ, hσ, -, hnext⟩ := exists_routine h hd
    have hid := id_of_functions hd
    rw [hr] at hσ
    cases hσ
    generalize (functions ns)[k] = d at *
    have hbody := compilableAll_of_routine h hr
    have hblock := describes_lowerBlock d.body hbody (extent (Routine.prologue d.params))
      (Nat.lt_of_lt_of_eq (Nat.lt_succ_self d.id) hnext.symm)
    rw [hnext] at hblock
    rw [← hid, (enumerates_functions ns).within d (List.mem_of_getElem? hd)]
    refine (hblock.row.before ?_).behind ?_
    · simp [Routine.prologue, Instruction.isPushFunction]
    · rw [Routine.epilogue]
      split <;> rfl

theorem count_within {d : Declared} (hd : d ∈ functions ns) (id : Nat) :
    ((Declared.within id (functions ns)).map Declared.id).count d.id =
      if id = d.owner then 1 else 0 := by
  have hnodup : ((functions ns).map Declared.id).Nodup := by
    rw [(enumerates_functions ns).ids]
    exact List.nodup_range'
  split
  · next h =>
    apply List.count_eq_one_of_mem
    · exact hnodup.sublist (List.filter_sublist.map _)
    · exact List.mem_map_of_mem (List.mem_filter.2 ⟨hd, by simpa using h.symm⟩)
  · next h =>
    rw [List.count_eq_zero]
    intro hmem
    obtain ⟨d', hd', hid⟩ := List.mem_map.1 hmem
    obtain ⟨hd', howner⟩ := List.mem_filter.1 hd'
    cases List.inj_on_of_nodup_map hnodup hd' hd hid
    exact h (of_decide_eq_true howner).symm

inductive Closes : List Node → List Slot → Prop
  | returned (ns : List Node) (v : Node) : Closes (ns ++ [.ret v]) []
  | running {ns : List Node} : (∀ ms v, ns ≠ ms ++ [.ret v]) →
    Closes ns [.ofOpcode .pushNil, .ofOpcode .ret]

theorem closes_epilogue (body : List Node) : Closes body (epilogue body) := by
  unfold epilogue
  split
  · next v h =>
    obtain ⟨ns, rfl⟩ := List.getLast?_eq_some_iff.1 h
    exact .returned ns v
  · next h =>
    refine .running ?_
    rintro ms v rfl
    exact h v (by simp)

/-- What a program holds of the function `d`, in whose body `σ` is known: at its number the
stream that binds its parameters, does what its body says and returns, and in the stream of its
owner, and nowhere else, its number behind its name. -/
structure Tabled (p : Program) (σ : Scoping) (d : Declared) : Prop where
  stream : ∀ c : Compiler, c.scoping = σ → ∃ l c' exit, c.compileNodes d.body = .ok l c' ∧
    Closes d.body exit ∧
    p.code[d.id]? = some (d.entry ++ l.map (Slot.relocate d.entry.length) ++ exit).toArray
  pushed : ∃ before behind, p.code[d.owner]? = some (before ++
    [.ofOpcode .pushId, .name d.name, .ofOpcode .pushFunction, .code d.id] ++ behind).toArray
  once : ∀ id slots, p.code[id]? = some slots →
    slots.count (.code d.id) = if id = d.owner then 1 else 0

theorem stream_of_routine {σ : Scoping} {d : Declared} (h : CompilableAll d.body) {c : Compiler}
    (hc : c.scoping = σ) (hσ : σ.scopes ≠ []) :
    ∃ l c', c.compileNodes d.body = .ok l c' ∧ slots (Routine.lower ⟨d.params, d.body, σ⟩) =
      d.entry ++ l.map (Slot.relocate d.entry.length) ++ epilogue d.body := by
  subst hc
  have hentry : d.entry = prologue d.params := rfl
  obtain ⟨l, c', hl, hslots⟩ := exists_compileNodes_relocate h hσ (prologue d.params).length
  refine ⟨l, c', hl, ?_⟩
  rw [Routine.lower, slots_append, slots_append, slots_prologue, slots_epilogue, ← length_slots,
    slots_prologue, hslots, hentry]

theorem exists_stream_of_owner (h : CompilableAll ns) {d : Declared} (hd : d ∈ functions ns) :
    ∃ is, (streams ns)[d.owner]? = some is := by
  have hlength := (describes_functions h).length_eq
  have hlt : d.owner < (streams ns).length := by
    rw [streams, List.length_cons, List.length_map, ← hlength]
    have := (enumerates_functions ns).owners d hd
    omega
  exact ⟨_, List.getElem?_eq_getElem hlt⟩

theorem tabled_of_functions (h : CompilableAll ns) {k : Nat} {d : Declared}
    (hd : (functions ns)[k]? = some d) {σ : Scoping} (hσ : σ.scopes.head? = some d.params)
    (hr : (routines ns)[k]? = some ⟨d.params, d.body, σ⟩) :
    Tabled (assemble (streams ns)) σ d := by
  have hmem := List.mem_of_getElem? hd
  refine ⟨fun c hc => ?_, ?_, fun id slots hid => ?_⟩
  · have hbody := compilableAll_of_routine h hr
    have hne : σ.scopes ≠ [] := by
      intro hnil
      rw [hnil] at hσ
      cases hσ
    obtain ⟨l, c', hl, hslots⟩ := stream_of_routine hbody hc hne
    refine ⟨l, c', _, hl, closes_epilogue d.body, ?_⟩
    rw [← hslots, id_of_functions hd]
    exact code_assemble (by simp [streams, hr])
  · obtain ⟨is, his⟩ := exists_stream_of_owner h hmem
    have hbinding : (d.name, d.id) ∈ (Declared.within d.owner (functions ns)).map
        Declared.binding := by
      refine List.mem_map.2 ⟨d, List.mem_filter.2 ⟨hmem, decide_eq_true rfl⟩, rfl⟩
    obtain ⟨before, behind, rfl⟩ := (binds_streams h his).exists_of_mem hbinding
    refine ⟨slots before, slots behind, ?_⟩
    rw [code_assemble his, slots_append, slots_append]
    rfl
  · obtain ⟨is, his, rfl⟩ : ∃ is, (streams ns)[id]? = some is ∧
        (Code.slots is).toArray = slots := by
      simpa [assemble] using hid
    have hcount := (binds_streams h his).count_eq d.id
    rw [List.map_map] at hcount
    rw [List.count_toArray, hcount]
    exact count_within hmem id

/-- Of the program of a script: it has a stream for the script and one for each function in it,
and the functions, numbered from one in the order of the text, have the streams at their
numbers. -/
theorem functions_own_streams {ns : List Node} {p : Program} {c : Compiler}
    (h : Program.ofNodes ns = .ok p c) :
    p.code.size = 1 + (functions ns).length ∧
    ∀ k d, (functions ns)[k]? = some d → d.id = k + 1 ∧
      ∃ σ, (routines ns)[k]? = some ⟨d.params, d.body, σ⟩ ∧ σ.scopes.head? = some d.params ∧
        σ.next = d.id + 1 ∧ Tabled p σ d := by
  obtain ⟨hns, rfl⟩ := Program.ofNodes_eq_ok_iff.1 ⟨c, h⟩
  constructor
  · rw [size_code_assemble, streams, List.length_cons, List.length_map,
      ← (describes_functions hns).length_eq, Nat.add_comm]
  · intro k d hd
    obtain ⟨σ, hr, hhead, hnext⟩ := exists_routine hns hd
    exact ⟨id_of_functions hd, σ, hr, hhead, hnext, tabled_of_functions hns hd hhead hr⟩

def nested : List Node :=
  [.function "f" ["a", "b"] [.function "g" [] [], .ret (.value (.variable "a"))],
    .forLoop (.assign true (.value (.variable "i")) (.value (.number 0))) (.value (.number 2))
      [.function "h" [] [.call none "print" [.function "k" ["i"] []]]]]

theorem functions_own_streams_nested :
    ∃ p c, Program.ofNodes nested = .ok p c ∧ p.code.size = 5 ∧
      (functions nested).map (fun d => (d.name, d.id, d.owner)) =
        [("f", 1, 0), ("g", 2, 1), ("h", 3, 0), ("k", 4, 3)] ∧
      ∀ d ∈ functions nested, ∃ σ, Tabled p σ d := by
  have hp : ∃ p c, Program.ofNodes nested = .ok p c := ⟨_, _, rfl⟩
  obtain ⟨p, c, hp⟩ := hp
  obtain ⟨hsize, hfunctions⟩ := functions_own_streams hp
  refine ⟨p, c, hp, hsize, rfl, fun d hd => ?_⟩
  obtain ⟨k, hk⟩ := List.getElem?_of_mem hd
  obtain ⟨-, σ, -, -, -, htabled⟩ := hfunctions k d hk
  exact ⟨σ, htabled⟩

end Script

end Scriptlet
