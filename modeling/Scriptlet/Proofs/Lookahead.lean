import Scriptlet.Proofs.Descent

/-! Reading with one token of lookahead.  A reader decides by the tokens that it takes and by
the one after them.  It recognizes a grammar if, on every input, it takes a phrase of the
grammar or stops at the first token that no phrase can have at that point. -/

namespace Scriptlet

namespace Parser

def words (ts : List Located) : List Token := ts.map Located.token

@[simp] theorem words_nil : words [] = [] := rfl

@[simp] theorem words_append (ts us : List Located) : words (ts ++ us) = words ts ++ words us :=
  List.map_append

@[simp] theorem words_eq_nil {ts : List Located} : words ts = [] ↔ ts = [] := List.map_eq_nil_iff

theorem exists_of_words_cons {ts : List Located} {x : Token} {us : List Token}
    (h : words ts = x :: us) : ∃ place rs, ts = ⟨x, place⟩ :: rs ∧ words rs = us := by
  obtain ⟨⟨_, place⟩, rs, rfl, rfl, hrs⟩ := List.map_eq_cons_iff.1 h
  exact ⟨place, rs, rfl, hrs⟩

def unplaced (us : List Token) : List Located := us.map (⟨·, .start⟩)

@[simp] theorem words_unplaced (us : List Token) : words (unplaced us) = us := by
  simp [words, unplaced, Function.comp_def]

theorem accept?_of_head?_ne {x : Token} {ts : List Located} (h : (words ts).head? ≠ some x) :
    accept? x ts = none := by
  apply accept?_eq_none
  rintro place rs rfl
  exact h rfl

def settle (rs : List Located) :
    Except SyntaxCause α → EStateM.Result SyntaxCause (List Located) α
  | .ok a => .ok a rs
  | .error e => .error e rs

/-- Where the tokens `us` are left and `t` is next after them, `p` takes just `us` and comes to
`out`, whatever stands behind. -/
def Decides (p : Reader α) (us : List Token) (t : Option Token) (out : Except SyntaxCause α) :
    Prop :=
  ∀ ls rs, words ls = us → (words rs).head? = t → p (ls ++ rs) = settle rs out

namespace Decides

variable {α β : Type} {p q : Reader α} {f : α → Reader β} {us vs : List Token} {t : Option Token}
  {x : Token} {a : α} {e : SyntaxCause} {what : Expectation} {out : Except SyntaxCause α}
  {out' : Except SyntaxCause β}

theorem of_nothing (h : ∀ rs, (words rs).head? = t → p rs = settle rs out) :
    Decides p [] t out := by
  intro ls rs hl hr
  rw [words_eq_nil.1 hl]
  exact h rs hr

protected theorem pure : Decides (pure a) [] t (.ok a) := of_nothing fun _ _ => rfl

theorem bind (hp : Decides p us (vs.head?.or t) (.ok a)) (hf : Decides (f a) vs t out') :
    Decides (p >>= f) (us ++ vs) t out' := by
  intro ls rs hl hr
  obtain ⟨l₁, l₂, rfl, h₁, h₂⟩ := List.map_eq_append_iff.1 hl
  have hnext : (words (l₂ ++ rs)).head? = vs.head?.or t := by
    rw [words_append, List.head?_append, hr, ← h₂]
    rfl
  simp only [List.append_assoc, Bind.bind, EStateM.bind, hp l₁ (l₂ ++ rs) h₁ hnext, settle]
  exact hf l₂ rs h₂ hr

theorem bind_cons (hp : Decides p us (some x) (.ok a)) (hf : Decides (f a) (x :: vs) t out') :
    Decides (p >>= f) (us ++ x :: vs) t out' := bind hp hf

theorem bind_nothing (hp : Decides p us t (.ok a)) (hf : Decides (f a) [] t out') :
    Decides (p >>= f) us t out' := by
  rw [← List.append_nil us]
  exact bind hp hf

theorem bind_error (hp : Decides p us t (.error e)) : Decides (p >>= f) us t (.error e) := by
  intro ls rs hl hr
  simp only [Bind.bind, EStateM.bind, hp ls rs hl hr, settle]

theorem ifNext_next (hp : Decides p us t out) : Decides (ifNext x p q) (x :: us) t out := by
  intro ls rs hl hr
  obtain ⟨place, ls, rfl, hls⟩ := exists_of_words_cons hl
  simp only [List.cons_append, ifNext, accept?, if_true]
  exact hp ls rs hls hr

theorem ifNext_else (hq : Decides q us t out) (hx : us.head?.or t ≠ some x) :
    Decides (ifNext x p q) us t out := by
  intro ls rs hl hr
  rw [ifNext, accept?_of_head?_ne]
  · exact hq ls rs hl hr
  · rwa [words_append, List.head?_append, hr, hl]

theorem word : Decides (word x what) [x] t (.ok ()) := by
  intro ls rs hl hr
  obtain ⟨place, ls, rfl, hls⟩ := exists_of_words_cons hl
  obtain rfl := words_eq_nil.1 hls
  simp only [List.cons_append, List.nil_append, Parser.word, accept?, if_true]
  rfl

theorem word_bind {q : Unit → Reader α} (hq : Decides (q ()) us t out) :
    Decides (Parser.word x what >>= q) (x :: us) t out := bind word hq

theorem word_error (h : t ≠ some x) :
    Decides (Parser.word x what) [] t (.error (.expected what)) := by
  apply of_nothing
  intro rs hr
  rw [Parser.word, accept?_of_head?_ne (hr ▸ h)]
  rfl

theorem refuse_else (h : t ≠ some x) : Decides (refuse x e) [] t (.ok ()) := by
  apply of_nothing
  intro rs hr
  rw [refuse, accept?_of_head?_ne (hr ▸ h)]
  rfl

theorem refuse_next : Decides (refuse x e) [] (some x) (.error e) := by
  apply of_nothing
  intro rs hr
  obtain ⟨us, hus⟩ := List.head?_eq_some_iff.1 hr
  obtain ⟨place, rs, rfl, -⟩ := exists_of_words_cons hus
  simp only [refuse, accept?, if_true]
  rfl

theorem atEnd_end (hp : Decides p [] none out) : Decides (atEnd p q) [] none out := by
  apply of_nothing
  intro rs hr
  obtain rfl := words_eq_nil.1 (List.head?_eq_none_iff.1 hr)
  exact hp [] [] rfl rfl

theorem atEnd_else (hq : Decides q us t out) (h : us.head?.or t ≠ none) :
    Decides (atEnd p q) us t out := by
  intro ls rs hl hr
  rw [← hq ls rs hl hr]
  rw [← hl, ← hr, ← List.head?_append, ← words_append] at h
  cases hw : ls ++ rs with
  | nil => exact absurd rfl (hw ▸ h)
  | cons l ls => rfl

theorem ident {y : String} : Decides (reader (expectIdent what)) [.ident y] t (.ok y) := by
  intro ls rs hl hr
  obtain ⟨place, ls, rfl, hls⟩ := exists_of_words_cons hl
  obtain rfl := words_eq_nil.1 hls
  rfl

theorem ident_bind {y : String} {f : String → Reader α} (hf : Decides (f y) us t out) :
    Decides (reader (expectIdent what) >>= f) (.ident y :: us) t out := bind ident hf

theorem ident_error (h : ∀ y, t ≠ some (.ident y)) :
    Decides (reader (expectIdent what)) [] t (.error (.expected what)) := by
  apply of_nothing
  intro rs hr
  rw [reader, expectIdent.eq_def]
  split
  · exact absurd hr.symm (h _)
  · rfl

end Decides

end Parser

abbrev Grammar (α : Type) := α → List Token → Prop

namespace Grammar

def after (u : List Token) (G : Grammar α) : Grammar α := fun a v => G a (u ++ v)

def ident : Grammar String := fun x u => u = [.ident x]

inductive Listed (G : Grammar α) : Grammar (List α)
  | nil : Listed G [] []
  | one {a : α} {u : List Token} : G a u → Listed G [a] u
  | cons {a b : α} {bs : List α} {u v : List Token} : G a u → Listed G (b :: bs) v →
    Listed G (a :: b :: bs) (u ++ .symbol .comma :: v)

inductive Joined (G : Grammar α) : Grammar (List α)
  | nil : Joined G [] []
  | cons {a : α} {as : List α} {u v : List Token} : G a u → Joined G as v →
    Joined G (a :: as) (u ++ v)

theorem Listed.unzip {P : α → Prop} {G : Grammar α} {as : List α} {u : List Token}
    (h : Listed (fun a v => P a ∧ G a v) as u) : (∀ a ∈ as, P a) ∧ Listed G as u := by
  induction h with
  | nil => exact ⟨by simp, .nil⟩
  | one ha => exact ⟨by simpa using ha.1, .one ha.2⟩
  | cons ha _ ih => exact ⟨List.forall_mem_cons.2 ⟨ha.1, ih.1⟩, .cons ha.2 ih.2⟩

theorem Joined.unzip {P : α → Prop} {G : Grammar α} {as : List α} {u : List Token}
    (h : Joined (fun a v => P a ∧ G a v) as u) : (∀ a ∈ as, P a) ∧ Joined G as u := by
  induction h with
  | nil => exact ⟨by simp, .nil⟩
  | cons ha _ ih => exact ⟨List.forall_mem_cons.2 ⟨ha.1, ih.1⟩, .cons ha.2 ih.2⟩

def closedBy (t : Token) (G : Grammar α) : Grammar α := fun a w => ∃ u, w = u ++ [t] ∧ G a u

def Fits (G : Grammar α) (us : List Token) : Except SyntaxCause α → Prop
  | .ok a => G a us
  | .error _ => ∃ a vs, G a (us ++ vs)

end Grammar

namespace Parser

open Grammar

/-- On fewer than `k` tokens, `p` takes a phrase of the grammar, or else it fails where what it
has taken can go on to a phrase, and what stands behind the next token makes no difference. -/
structure Recognizes (k : Nat) (p : Reader α) (G : Grammar α) : Prop where
  productive : ∃ a ws, G a ws
  reads : ∀ ws : List Token, ws.length < k →
    ∃ us rs out, ws = us ++ rs ∧ Decides p us rs.head? out ∧ G.Fits us out

namespace Recognizes

variable {α β : Type} {k j : Nat} {p q : Reader α} {f : α → Reader β} {G : Grammar α}
  {K : Grammar β} {x : Token} {a : α} {e : SyntaxCause} {what : Expectation}

theorem cases_of (h : Recognizes k p G) {ts : List Located} (hts : ts.length < k) :
    ∃ ls rs out, ts = ls ++ rs ∧ p ts = settle rs out ∧ G.Fits (words ls) out ∧
      Decides p (words ls) (words rs).head? out := by
  obtain ⟨us, ws, out, hw, hd, hout⟩ := h.reads (words ts) (by simpa [words] using hts)
  obtain ⟨ls, rs, rfl, rfl, rfl⟩ := List.map_eq_append_iff.1 hw
  exact ⟨ls, rs, out, rfl, hd ls rs rfl rfl, hout, hd⟩

theorem mono (h : Recognizes k p G) (hj : j ≤ k) : Recognizes j p G :=
  ⟨h.productive, fun ws hws => h.reads ws (Nat.lt_of_lt_of_le hws hj)⟩

theorem weaken {H : Grammar α} (h : Recognizes k p G) (hG : ∀ a u, G a u → H a u) :
    Recognizes k p H := by
  obtain ⟨a, u, ha⟩ := h.productive
  refine ⟨⟨a, u, hG a u ha⟩, fun ws hws => ?_⟩
  obtain ⟨us, rs, out, rfl, hd, hout⟩ := h.reads ws hws
  refine ⟨us, rs, out, rfl, hd, ?_⟩
  cases out with
  | ok a => exact hG a us hout
  | error e =>
    obtain ⟨a, vs, ha⟩ := hout
    exact ⟨a, vs, hG a _ ha⟩

protected theorem pure (h : G a []) : Recognizes k (pure a) G :=
  ⟨⟨a, [], h⟩, fun ws _ => ⟨[], ws, .ok a, rfl, .pure, h⟩⟩

theorem bind (hp : Recognizes k p G)
    (hf : ∀ a u, G a u → Recognizes (k - u.length) (f a) (K.after u)) :
    Recognizes k (p >>= f) K := by
  constructor
  · obtain ⟨a, u, ha⟩ := hp.productive
    obtain ⟨b, v, hb⟩ := (hf a u ha).productive
    exact ⟨b, u ++ v, hb⟩
  · intro ws hws
    obtain ⟨us, rs, out, rfl, hd, hout⟩ := hp.reads ws hws
    cases out with
    | error e =>
      obtain ⟨a, vs, ha⟩ := hout
      obtain ⟨b, v, hb⟩ := (hf a _ ha).productive
      refine ⟨us, rs, .error e, rfl, hd.bind_error, b, vs ++ v, ?_⟩
      rw [← List.append_assoc]
      exact hb
    | ok a =>
      have hrs : rs.length < k - us.length := by
        rw [List.length_append] at hws
        omega
      obtain ⟨vs, rs, out, rfl, hd', hout'⟩ := (hf a us hout).reads rs hrs
      rw [List.head?_append] at hd
      refine ⟨us ++ vs, rs, out, (List.append_assoc ..).symm, hd.bind hd', ?_⟩
      cases out with
      | ok b => exact hout'
      | error e =>
        obtain ⟨b, v, hb⟩ := hout'
        refine ⟨b, v, ?_⟩
        rw [List.append_assoc]
        exact hb

theorem ifNext (hp : Recognizes (k - 1) p (G.after [x])) (hq : Recognizes k q G) :
    Recognizes k (ifNext x p q) G := by
  refine ⟨hq.productive, fun ws hws => ?_⟩
  by_cases hx : ws.head? = some x
  · obtain ⟨ws, rfl⟩ := List.head?_eq_some_iff.1 hx
    rw [List.length_cons] at hws
    obtain ⟨us, rs, out, rfl, hd, hout⟩ := hp.reads ws (by omega)
    refine ⟨x :: us, rs, out, rfl, hd.ifNext_next, ?_⟩
    cases out <;> exact hout
  · obtain ⟨us, rs, out, rfl, hd, hout⟩ := hq.reads ws hws
    rw [List.head?_append] at hx
    exact ⟨us, rs, out, rfl, hd.ifNext_else hx, hout⟩

theorem word_bind {q : Unit → Reader α} (hq : Recognizes (k - 1) (q ()) (G.after [x])) :
    Recognizes k (word x what >>= q) G := by
  obtain ⟨a, v, ha⟩ := hq.productive
  refine ⟨⟨a, x :: v, ha⟩, fun ws hws => ?_⟩
  by_cases hx : ws.head? = some x
  · obtain ⟨ws, rfl⟩ := List.head?_eq_some_iff.1 hx
    rw [List.length_cons] at hws
    obtain ⟨us, rs, out, rfl, hd, hout⟩ := hq.reads ws (by omega)
    refine ⟨x :: us, rs, out, rfl, hd.word_bind, ?_⟩
    cases out <;> exact hout
  · exact ⟨[], ws, _, rfl, (Decides.word_error hx).bind_error, a, x :: v, ha⟩

theorem refuse_bind {q : Unit → Reader α} (hq : Recognizes k (q ()) G) :
    Recognizes k (refuse x e >>= q) G := by
  refine ⟨hq.productive, fun ws hws => ?_⟩
  by_cases hx : ws.head? = some x
  · refine ⟨[], ws, .error e, rfl, ?_, hq.productive⟩
    rw [hx]
    exact Decides.refuse_next.bind_error
  · obtain ⟨us, rs, out, rfl, hd, hout⟩ := hq.reads ws hws
    rw [List.head?_append] at hx
    exact ⟨us, rs, out, rfl, (Decides.refuse_else hx).bind hd, hout⟩

theorem ident_bind {f : String → Reader α}
    (hf : ∀ y, Recognizes (k - 1) (f y) (G.after [.ident y])) :
    Recognizes k (reader (expectIdent what) >>= f) G := by
  obtain ⟨a, v, ha⟩ := (hf "").productive
  refine ⟨⟨a, .ident "" :: v, ha⟩, fun ws hws => ?_⟩
  by_cases hx : ∃ y, ws.head? = some (.ident y)
  · obtain ⟨y, hy⟩ := hx
    obtain ⟨ws, rfl⟩ := List.head?_eq_some_iff.1 hy
    rw [List.length_cons] at hws
    obtain ⟨us, rs, out, rfl, hd, hout⟩ := (hf y).reads ws (by omega)
    refine ⟨.ident y :: us, rs, out, rfl, hd.ident_bind, ?_⟩
    cases out <;> exact hout
  · have hd : Decides (reader (expectIdent what)) [] ws.head? _ :=
      .ident_error (not_exists.1 hx)
    exact ⟨[], ws, _, rfl, hd.bind_error, a, .ident "" :: v, ha⟩

theorem atEnd (hp : ∃ out, Decides p [] none out ∧ G.Fits [] out) (hq : Recognizes k q G) :
    Recognizes k (atEnd p q) G := by
  refine ⟨hq.productive, fun ws hws => ?_⟩
  cases ws with
  | nil =>
    obtain ⟨out, hd, hout⟩ := hp
    exact ⟨[], [], out, rfl, hd.atEnd_end, hout⟩
  | cons x ws =>
    obtain ⟨us, rs, out, h, hd, hout⟩ := hq.reads _ hws
    refine ⟨us, rs, out, h, hd.atEnd_else ?_, hout⟩
    rw [← List.head?_append, ← h]
    simp

end Recognizes

end Parser

end Scriptlet
