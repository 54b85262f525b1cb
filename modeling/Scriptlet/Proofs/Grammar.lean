import Scriptlet.Node.Parser
import Scriptlet.Proofs.Emission
import Scriptlet.Proofs.Parts

/-! The trees that scripts spell.  A node may stand anywhere in a tree; the grammar tells
expressions from statements, and the parser builds nothing but statements of the grammar. -/

namespace Scriptlet

namespace Node

mutual

inductive Postfixed : Node → Prop
  | value (l : Literal) : Postfixed (.value l)
  | call (receiver : Option String) (f : String) {args : List Node} :
    (∀ n ∈ args, Expression n) → Postfixed (.call receiver f args)
  | index (b : String) {key : Node} : Expression key → Postfixed (.index b key)

inductive Expression : Node → Prop
  | postfixed {n : Node} : Postfixed n → Expression n
  | notEqual {lhs rhs : Node} : Postfixed lhs → Postfixed rhs → Expression (.notEqual lhs rhs)

end

inductive Statement : Node → Prop
  | expression {n : Node} : Expression n → Statement n
  | assign (isLocal : Bool) (x : String) {v : Node} : Expression v →
    Statement (.assign isLocal (.value (.variable x)) v)
  | assignIndex (b : String) {key v : Node} : Expression key → Expression v →
    Statement (.assign false (.index b key) v)
  | ifThen {condition : Node} {body : List Node} : Expression condition →
    (∀ n ∈ body, Statement n) → Statement (.ifThen condition body)
  | forLoop (x : String) {v bound : Node} {body : List Node} : Expression v → Expression bound →
    (∀ n ∈ body, Statement n) →
    Statement (.forLoop (.assign true (.value (.variable x)) v) bound body)
  | function (f : String) (params : List String) {body : List Node} :
    (∀ n ∈ body, Statement n) → Statement (.function f params body)
  | ret {v : Node} : Expression v → Statement (.ret v)

mutual

theorem Postfixed.compilable {n : Node} : Postfixed n → n.Compilable
  | .value _ => trivial
  | .call _ _ h => compilableAll_iff.2 fun n hn => (h n hn).compilable
  | .index _ h => h.compilable

theorem Expression.compilable {n : Node} : Expression n → n.Compilable
  | .postfixed h => h.compilable
  | .notEqual hl hr => ⟨hl.compilable, hr.compilable⟩

end

theorem Statement.compilable {n : Node} (h : Statement n) : n.Compilable := by
  induction h with
  | expression h => exact h.compilable
  | assign _ _ h => exact h.compilable
  | assignIndex _ hk hv => exact ⟨hk.compilable, hv.compilable⟩
  | ifThen hc _ ih => exact ⟨hc.compilable, compilableAll_iff.2 ih⟩
  | forLoop x hv hb _ ih =>
    exact ⟨rfl, hv.compilable, hb.compilable, compilableAll_iff.2 ih⟩
  | function _ _ _ ih => exact compilableAll_iff.2 ih
  | ret h => exact h.compilable

theorem Expression.isExpression {n : Node} (h : Expression n) : n.isExpression := by
  cases h with
  | postfixed h => cases h <;> rfl
  | notEqual => rfl

theorem Statement.toExpression {n : Node} (h : Statement n) (hn : n.isExpression) :
    Expression n := by
  cases h with
  | expression h => exact h
  | _ => cases hn

theorem Expression.toPostfixed {n : Node} (h : Expression n)
    (hn : ∀ lhs rhs, n ≠ .notEqual lhs rhs) : Postfixed n := by
  cases h with
  | postfixed h => exact h
  | notEqual => exact absurd rfl (hn _ _)

theorem Statement.args {r : Option String} {f : String} {args : List Node}
    (h : Statement (.call r f args)) : ∀ n ∈ args, Expression n := by
  cases (h.toExpression rfl).toPostfixed (by simp) with
  | call _ _ h => exact h

theorem Statement.key {b : String} {key : Node} (h : Statement (.index b key)) :
    Expression key := by
  cases (h.toExpression rfl).toPostfixed (by simp) with
  | index _ h => exact h

theorem hereditary_statement : Hereditary Statement where
  notEqual h := by
    cases h.toExpression rfl with
    | postfixed h => cases h
    | notEqual hl hr => exact ⟨.expression (.postfixed hl), .expression (.postfixed hr)⟩
  call h n hn := .expression (h.args n hn)
  index h := .expression h.key
  assign h := by
    cases h with
    | expression h => cases h.isExpression
    | assign _ _ h => exact .expression h
  assignIndex h := by
    cases h with
    | expression h => cases h.isExpression
    | assignIndex _ hk hv => exact ⟨.expression hk, .expression hv⟩
  ifThen h := by
    cases h with
    | expression h => cases h.isExpression
    | ifThen hc hb => exact ⟨.expression hc, hb⟩
  forLoop h := by
    cases h with
    | expression h => cases h.isExpression
    | forLoop x hv he hb => exact ⟨.assign true x hv, .expression he, hb⟩
  function h := by
    cases h with
    | expression h => cases h.isExpression
    | function _ _ hb => exact hb
  ret h := by
    cases h with
    | expression h => cases h.isExpression
    | ret h => exact .expression h

end Node

namespace Parser

open Node

theorem exists_of_bind_ok {x : Except Failure α} {f : α → Except Failure β} {b : β}
    (h : (x >>= f) = .ok b) : ∃ a, x = .ok a ∧ f a = .ok b := by
  cases hx : x with
  | ok a =>
    rw [hx] at h
    exact ⟨a, rfl, h⟩
  | error e =>
    rw [hx] at h
    cases h

def BuildsExpressions (k : Nat) : Prop :=
  ∀ (ts : List Located) (n : Node) (r : Rest ts), ts.length < k → expression ts = .ok (n, r) →
    Expression n

theorem moreArguments_sound {k : Nat} (hk : BuildsExpressions k) (ts : List Located)
    (hts : ts.length < k) {ns : List Node} {r : Rest ts} (h : moreArguments ts = .ok (ns, r)) :
    ∀ n ∈ ns, Expression n := by
  rw [moreArguments] at h
  obtain ⟨⟨e, r₀⟩, he, h⟩ := exists_of_bind_ok h
  have hhead := hk ts e r₀ hts he
  simp only at h
  split at h
  · next r₁ _ =>
    have hlt : r₁.val.length < ts.length := Nat.lt_trans r₁.property r₀.property
    obtain ⟨⟨es, r₂⟩, hes, h⟩ := exists_of_bind_ok h
    cases h
    exact forall_mem_cons hhead (moreArguments_sound hk r₁.val (Nat.lt_trans hlt hts) hes)
  · obtain ⟨r₁, -, h⟩ := exists_of_bind_ok h
    cases h
    exact forall_mem_cons hhead (by simp)
termination_by ts.length

theorem arguments_sound {k : Nat} (hk : BuildsExpressions k) {ts : List Located}
    (hts : ts.length < k) {ns : List Node} {r : Rest ts} (h : arguments ts = .ok (ns, r)) :
    ∀ n ∈ ns, Expression n := by
  rw [arguments] at h
  split at h
  · cases h
    simp
  · exact moreArguments_sound hk ts hts h

theorem postfixed_sound {ts : List Located} (hk : BuildsExpressions ts.length) {n : Node}
    {r : Rest ts} (h : postfixed ts = .ok (n, r)) : Postfixed n := by
  rw [postfixed] at h
  obtain ⟨⟨l, r₀⟩, -, h⟩ := exists_of_bind_ok h
  cases l with
  | «variable» x =>
    simp only at h
    split at h
    · next r₁ _ =>
      obtain ⟨⟨args, r₂⟩, ha, h⟩ := exists_of_bind_ok h
      cases h
      exact .call _ _ (arguments_sound hk (Nat.lt_trans r₁.property r₀.property) ha)
    · split at h
      · next r₁ _ =>
        obtain ⟨⟨f, r₂⟩, -, h⟩ := exists_of_bind_ok h
        obtain ⟨r₃, -, h⟩ := exists_of_bind_ok h
        obtain ⟨⟨args, r₄⟩, ha, h⟩ := exists_of_bind_ok h
        cases h
        exact .call _ _ (arguments_sound hk (r₀.within (r₁.within (r₂.within r₃))).property ha)
      · split at h
        · next r₁ _ =>
          obtain ⟨⟨key, r₂⟩, he, h⟩ := exists_of_bind_ok h
          obtain ⟨r₃, -, h⟩ := exists_of_bind_ok h
          cases h
          exact .index _ (hk _ key r₂ (r₀.within r₁).property he)
        · cases h
          exact .value _
  | _ =>
    cases h
    exact .value _

theorem buildsExpressions (k : Nat) : BuildsExpressions k := by
  induction k with
  | zero => exact fun _ _ _ h => absurd h (Nat.not_lt_zero _)
  | succ k ih =>
    intro ts n r hts h
    have hlt {rs : List Located} (hrs : rs.length ≤ ts.length) : BuildsExpressions rs.length :=
      fun us n r hus => ih us n r (by omega)
    rw [expression] at h
    obtain ⟨⟨lhs, r₀⟩, hl, h⟩ := exists_of_bind_ok h
    have hlhs := postfixed_sound (hlt (Nat.le_refl _)) hl
    simp only at h
    split at h
    · cases h
      exact .postfixed hlhs
    · next r₁ _ =>
      obtain ⟨⟨rhs, r₂⟩, hr, h⟩ := exists_of_bind_ok h
      have hrhs := postfixed_sound (hlt (Nat.le_of_lt (r₀.within r₁).property)) hr
      split at h
      · cases h
      · cases h
        exact .notEqual hlhs hrhs

theorem expression_sound {ts : List Located} {n : Node} {r : Rest ts}
    (h : expression ts = .ok (n, r)) : Expression n :=
  buildsExpressions _ ts n r (Nat.lt_succ_self _) h

theorem initializer_sound {x : String} {what : Expectation} {ts : List Located} {n : Node}
    {r : Rest ts} (h : initializer x what ts = .ok (n, r)) :
    ∃ v, Expression v ∧ n = .assign true (.value (.variable x)) v := by
  obtain ⟨r₀, -, h⟩ := exists_of_bind_ok h
  obtain ⟨⟨v, r₁⟩, hv, h⟩ := exists_of_bind_ok h
  cases h
  exact ⟨v, expression_sound hv, rfl⟩

theorem assignment_sound {e v : Node} (ht : e.isTarget) (he : Expression e) (hv : Expression v) :
    Statement (.assign false e v) := by
  cases he with
  | notEqual => cases ht
  | postfixed h =>
    cases h with
    | value l =>
      cases l with
      | «variable» x => exact .assign false x hv
      | _ => cases ht
    | call => cases ht
    | index b hk => exact .assignIndex b hk hv

def BuildsBlocks (k : Nat) : Prop :=
  ∀ (c : Construct) (ts : List Located) (ns : List Node) (r : Rest ts), ts.length < k →
    block c ts = .ok (ns, r) → ∀ n ∈ ns, Statement n

theorem statement_sound {ts : List Located} (hk : BuildsBlocks ts.length) {n : Node} {r : Rest ts}
    (h : statement ts = .ok (n, r)) : Statement n := by
  rw [statement.eq_def] at h
  split at h
  · obtain ⟨⟨x, r₀⟩, -, h⟩ := exists_of_bind_ok h
    obtain ⟨⟨n₀, r₁⟩, hn, h⟩ := exists_of_bind_ok h
    obtain ⟨v, hv, rfl⟩ := initializer_sound hn
    cases h
    exact .assign true x hv
  · obtain ⟨⟨x, r₀⟩, -, h⟩ := exists_of_bind_ok h
    obtain ⟨⟨initial, r₁⟩, hi, h⟩ := exists_of_bind_ok h
    obtain ⟨r₂, -, h⟩ := exists_of_bind_ok h
    obtain ⟨⟨bound, r₃⟩, hb, h⟩ := exists_of_bind_ok h
    obtain ⟨r₄, -, h⟩ := exists_of_bind_ok h
    obtain ⟨⟨body, r₅⟩, hs, h⟩ := exists_of_bind_ok h
    obtain ⟨v, hv, rfl⟩ := initializer_sound hi
    have hlt := (r₀.within (r₁.within (r₂.within (r₃.within r₄)))).property
    cases h
    exact .forLoop x hv (expression_sound hb) (hk _ _ body r₅ (Nat.lt_succ_of_lt hlt) hs)
  · obtain ⟨⟨f, r₀⟩, -, h⟩ := exists_of_bind_ok h
    obtain ⟨r₁, -, h⟩ := exists_of_bind_ok h
    obtain ⟨⟨params, r₂⟩, -, h⟩ := exists_of_bind_ok h
    obtain ⟨⟨body, r₃⟩, hs, h⟩ := exists_of_bind_ok h
    have hlt := (r₀.within (r₁.within r₂)).property
    cases h
    exact .function f params (hk _ _ body r₃ (Nat.lt_succ_of_lt hlt) hs)
  · obtain ⟨⟨v, r₀⟩, hv, h⟩ := exists_of_bind_ok h
    cases h
    exact .ret (expression_sound hv)
  · obtain ⟨⟨c, r₀⟩, hc, h⟩ := exists_of_bind_ok h
    obtain ⟨r₁, -, h⟩ := exists_of_bind_ok h
    obtain ⟨⟨body, r₂⟩, hs, h⟩ := exists_of_bind_ok h
    have hlt := (r₀.within r₁).property
    cases h
    exact .ifThen (expression_sound hc) (hk _ _ body r₂ (Nat.lt_succ_of_lt hlt) hs)
  · obtain ⟨⟨e, r₀⟩, he, h⟩ := exists_of_bind_ok h
    have hexpression := expression_sound he
    simp only at h
    split at h
    · cases h
      exact .expression hexpression
    · split at h
      · next ht =>
        obtain ⟨⟨v, r₂⟩, hv, h⟩ := exists_of_bind_ok h
        cases h
        exact assignment_sound ht hexpression (expression_sound hv)
      · cases h

theorem buildsBlocks (k : Nat) : BuildsBlocks k := by
  induction k with
  | zero => exact fun _ _ _ _ h => absurd h (Nat.not_lt_zero _)
  | succ k ih =>
    intro c ts ns r hts h
    rw [block.eq_def] at h
    split at h
    · cases h
    · cases h
      simp
    · next t ts _ =>
      obtain ⟨⟨n, r₀⟩, hn, h⟩ := exists_of_bind_ok h
      obtain ⟨⟨ns, r₁⟩, hs, h⟩ := exists_of_bind_ok h
      have hlt := r₀.property
      cases h
      refine forall_mem_cons (statement_sound ?_ hn) (ih c r₀.val ns r₁ (by omega) hs)
      exact fun c us ns r hus => ih c us ns r (by omega)

theorem program_sound (ts : List Located) {ns : List Node} (h : program ts = .ok ns) :
    ∀ n ∈ ns, Statement n := by
  rw [program.eq_def] at h
  split at h
  · cases h
    simp
  · next t ts =>
    obtain ⟨⟨n, r₀⟩, hn, h⟩ := exists_of_bind_ok h
    obtain ⟨ns, hs, h⟩ := exists_of_bind_ok h
    have hlt := r₀.property
    cases h
    exact forall_mem_cons (statement_sound (buildsBlocks _) hn) (program_sound r₀.val hs)
termination_by ts.length

end Parser

theorem TokenStream.statement_of_parse {s s' : TokenStream} {ns : List Node}
    (h : s.parse = .ok ns s') : ∀ n ∈ ns, n.Statement := by
  rw [parse] at h
  split at h
  · next ns' hp =>
    cases h
    exact Parser.program_sound _ hp
  · cases h

theorem Program.ofNodes_of_statement {ns : List Node} (h : ∀ n ∈ ns, n.Statement) :
    ∃ c, ofNodes ns = .ok (Code.assemble (Script.streams ns)) c := by
  apply ofNodes_of_compilable
  rw [Node.compilableAll_iff]
  intro n hn
  exact (h n hn).compilable

end Scriptlet
