import ComplexSeries.Scalar.Double
import ComplexSeries.Proofs.Eval.Operand
import ComplexSeries.Proofs.Expr.Spelled
import ComplexSeries.Proofs.Expr.Value

/-! Renaming an index. Two trees differ in the names of indices only if each name in one is paired with
the name in the other that the same binder binds, the innermost binder counting. Values are looked up
innermost first as well, so the walks over two such trees find the same values, and they are the
same run. Renaming one index, and what it binds, to a name that occurs nowhere gives such a tree. What
is remembered of an integral names its index, so only trees without integrals are compared. -/
namespace ComplexSeries

/-! ### Names that correspond -/

/-- The indices of two trees that enclose two names, innermost first, bind both names alike. -/
inductive Paired : List (Char × Char) → Char → Char → Prop
  | free (c : Char) : Paired [] c c
  | bound {ps : List (Char × Char)} (i i' : Char) : Paired ((i, i') :: ps) i i'
  | outer {ps : List (Char × Char)} {i i' c c' : Char} :
      c ≠ i → c' ≠ i' → Paired ps c c' → Paired ((i, i') :: ps) c c'

/-- A binder that both trees name alike settles its own name. -/
theorem Paired.cons_self {ps : List (Char × Char)} {c : Char} (i : Char)
    (h : c ≠ i → Paired ps c c) : Paired ((i, i) :: ps) c c := by
  by_cases hci : c = i
  · exact hci ▸ .bound c c
  · exact .outer hci hci (h hci)

namespace Expr

variable {R : Type} {ps : List (Char × Char)} {k j : Char} {e e' : Expr R}

/-- Equal up to the names of indices. -/
inductive Alpha : List (Char × Char) → Expr R → Expr R → Prop
  | const {ps : List (Char × Char)} (z : Complex R) : Alpha ps (const z) (const z)
  | constant {ps : List (Char × Char)} (c : Constant) : Alpha ps (constant c) (constant c)
  | var {ps : List (Char × Char)} {c c' : Char} : Paired ps c c' → Alpha ps (var c) (var c')
  | binary {ps : List (Char × Char)} (o : Operator) {a a' b b' : Expr R} :
      Alpha ps a a' → Alpha ps b b' → Alpha ps (binary o a b) (binary o a' b')
  | call {ps : List (Char × Char)} (f : Function) {a a' : Expr R} :
      Alpha ps a a' → Alpha ps (call f a) (call f a')
  | log {ps : List (Char × Char)} {a a' b b' : Expr R} :
      Alpha ps a a' → Alpha ps b b' → Alpha ps (log a b) (log a' b')
  | aggregate {ps : List (Char × Char)} (g : Aggregate) {l l' u u' b b' : Expr R} {i i' : Char} :
      Alpha ps l l' → Alpha ps u u' → Alpha ((i, i') :: ps) b b' →
        Alpha ps (aggregate g l u b i) (aggregate g l' u' b' i')

theorem Alpha.refl (h : ∀ c ∈ e.names, Paired ps c c) : Alpha ps e e := by
  induction e generalizing ps with
  | const z => exact .const z
  | constant c => exact .constant c
  | var name => exact .var (h name List.mem_cons_self)
  | binary o a b iha ihb =>
    simp only [names, List.forall_mem_append] at h
    exact .binary o (iha h.1) (ihb h.2)
  | call f a ih => exact .call f (ih h)
  | log a b iha ihb =>
    simp only [names, List.forall_mem_append] at h
    exact .log (iha h.1) (ihb h.2)
  | aggregate g l u b i ihl ihu ihb =>
    simp only [names, List.forall_mem_append] at h
    have hbody : ∀ c ∈ b.names, Paired ((i, i) :: ps) c c := fun c hc =>
      .cons_self i fun _ => h.2.2.1 c hc
    exact .aggregate g (ihl h.1) (ihu h.2.1) (ihb hbody)

/-! ### Renaming one index -/

/-- The free occurrences of `k` become `j`. -/
def renameFree (k j : Char) : Expr R → Expr R
  | const z => const z
  | constant c => constant c
  | var name => var (if name = k then j else name)
  | binary o a b => binary o (a.renameFree k j) (b.renameFree k j)
  | call f a => call f (a.renameFree k j)
  | log a b => log (a.renameFree k j) (b.renameFree k j)
  | aggregate g lower upper body index =>
    aggregate g (lower.renameFree k j) (upper.renameFree k j)
      (if index = k then body else body.renameFree k j) index

/-- One aggregate, anywhere in the tree, has its index `k` renamed to `j`, together with the occurrences
that it binds. -/
inductive Reindexed (k j : Char) : Expr R → Expr R → Prop
  | here (g : Aggregate) (lower upper body : Expr R) :
      Reindexed k j (aggregate g lower upper body k)
        (aggregate g lower upper (body.renameFree k j) j)
  | lhs (o : Operator) {a a' : Expr R} (b : Expr R) :
      Reindexed k j a a' → Reindexed k j (binary o a b) (binary o a' b)
  | rhs (o : Operator) (a : Expr R) {b b' : Expr R} :
      Reindexed k j b b' → Reindexed k j (binary o a b) (binary o a b')
  | arg (f : Function) {a a' : Expr R} : Reindexed k j a a' → Reindexed k j (call f a) (call f a')
  | value {a a' : Expr R} (b : Expr R) :
      Reindexed k j a a' → Reindexed k j (log a b) (log a' b)
  | base (a : Expr R) {b b' : Expr R} :
      Reindexed k j b b' → Reindexed k j (log a b) (log a b')
  | lower (g : Aggregate) {l l' : Expr R} (u b : Expr R) (i : Char) :
      Reindexed k j l l' → Reindexed k j (aggregate g l u b i) (aggregate g l' u b i)
  | upper (g : Aggregate) (l : Expr R) {u u' : Expr R} (b : Expr R) (i : Char) :
      Reindexed k j u u' → Reindexed k j (aggregate g l u b i) (aggregate g l u' b i)
  | body (g : Aggregate) (l u : Expr R) {b b' : Expr R} (i : Char) :
      Reindexed k j b b' → Reindexed k j (aggregate g l u b i) (aggregate g l u b' i)

theorem alpha_renameFree (hk : Paired ps k j)
    (h : ∀ c ∈ e.names, c ≠ j ∧ (c ≠ k → Paired ps c c)) : Alpha ps e (e.renameFree k j) := by
  induction e generalizing ps with
  | const z => exact .const z
  | constant c => exact .constant c
  | var name =>
    refine .var ?_
    split
    · next hname => exact hname ▸ hk
    · next hname => exact (h name List.mem_cons_self).2 hname
  | binary o a b iha ihb =>
    simp only [names, List.forall_mem_append] at h
    exact .binary o (iha hk h.1) (ihb hk h.2)
  | call f a ih => exact .call f (ih hk h)
  | log a b iha ihb =>
    simp only [names, List.forall_mem_append] at h
    exact .log (iha hk h.1) (ihb hk h.2)
  | aggregate g l u b i ihl ihu ihb =>
    simp only [names, List.forall_mem_append, List.forall_mem_singleton] at h
    obtain ⟨hl, hu, hb, hij, -⟩ := h
    refine .aggregate g (ihl hk hl) (ihu hk hu) ?_
    split
    · next hik => -- the inner aggregate binds `k` anew, so its body stays
      subst hik
      exact .refl fun c hc => .cons_self i (hb c hc).2
    · next hik =>
      refine ihb (.outer (Ne.symm hik) (Ne.symm hij) hk) fun c hc => ⟨(hb c hc).1, fun hck => ?_⟩
      exact .cons_self i fun _ => (hb c hc).2 hck

theorem Reindexed.alpha (hr : Reindexed k j e e') (h : ∀ c ∈ e.names, c ≠ j ∧ Paired ps c c) :
    Alpha ps e e' := by
  have refl {a : Expr R} {ps} (ha : ∀ c ∈ a.names, c ≠ j ∧ Paired ps c c) : Alpha ps a a :=
    .refl fun c hc => (ha c hc).2
  have under {a : Expr R} {ps} (i : Char) (ha : ∀ c ∈ a.names, c ≠ j ∧ Paired ps c c) :
      ∀ c ∈ a.names, c ≠ j ∧ Paired ((i, i) :: ps) c c := fun c hc =>
    ⟨(ha c hc).1, .cons_self i fun _ => (ha c hc).2⟩
  induction hr generalizing ps with
  | here g lower upper body =>
    simp only [names, List.forall_mem_append] at h
    refine .aggregate g (refl h.1) (refl h.2.1) (alpha_renameFree (.bound k j) fun c hc => ?_)
    obtain ⟨hcj, hself⟩ := h.2.2.1 c hc
    exact ⟨hcj, fun hck => .outer hck hcj hself⟩
  | lhs o b _ ih =>
    simp only [names, List.forall_mem_append] at h
    exact .binary o (ih h.1) (refl h.2)
  | rhs o a _ ih =>
    simp only [names, List.forall_mem_append] at h
    exact .binary o (refl h.1) (ih h.2)
  | arg f _ ih => exact .call f (ih h)
  | value b _ ih =>
    simp only [names, List.forall_mem_append] at h
    exact .log (ih h.1) (refl h.2)
  | base a _ ih =>
    simp only [names, List.forall_mem_append] at h
    exact .log (refl h.1) (ih h.2)
  | lower g u b i _ ih =>
    simp only [names, List.forall_mem_append] at h
    exact .aggregate g (ih h.1) (refl h.2.1) (refl (under i h.2.2.1))
  | upper g l b i _ ih =>
    simp only [names, List.forall_mem_append] at h
    exact .aggregate g (refl h.1) (ih h.2.1) (refl (under i h.2.2.1))
  | body g l u i _ ih =>
    simp only [names, List.forall_mem_append] at h
    exact .aggregate g (refl h.1) (refl h.2.1) (ih (under i h.2.2.1))

end Expr

/-! ### The walk over two trees -/

namespace Eval

open ComplexSeries.Expr (Alpha)

variable {R : Type} [Scalar R] {meaning : Interpretation R} {settings : Settings R}
  {ps : List (Char × Char)} {env env' : Env R}

/-- Names that correspond have the same value, or are the same name without one. -/
def Corresponds (ps : List (Char × Char)) (env env' : Env R) : Prop :=
  ∀ c c', Paired ps c c' → lookup env c = lookup env' c'

omit [Scalar R] in
theorem corresponds_self (env : Env R) : Corresponds [] env env := by
  rintro c c' ⟨⟩
  rfl

omit [Scalar R] in
theorem Corresponds.cons (h : Corresponds ps env env') (i i' : Char) (z : Complex R) :
    Corresponds ((i, i') :: ps) ((i, z) :: env) ((i', z) :: env') := by
  intro c c' hpaired
  cases hpaired with
  | bound => simp [lookup, Env.find?_cons]
  | outer hc hc' hpaired =>
    rw [lookup, lookup, Env.find?_cons, if_neg hc.symm, Env.find?_cons, if_neg hc'.symm]
    exact h c c' hpaired

/-- By induction on the levels, since each operand has one level less than its node. -/
theorem mirrored_walk_of_alpha (levels : Nat) {e e' : Expr R} (h : Alpha ps e e')
    (hint : e.hasIntegral = false) (henv : Corresponds ps env env') :
    Mirrored (walk meaning settings levels) env e env' e' := by
  induction levels generalizing ps e e' env env' with
  | zero => exact ⟨throw (.depthExceeded settings.maxDepth), fun _ => rfl, fun _ => rfl⟩
  | succ levels ih =>
    cases h with
    | const z => exact ⟨pure z, fun _ => rfl, fun _ => rfl⟩
    | constant c => exact ⟨pure (Complex.ofConstant c), fun _ => rfl, fun _ => rfl⟩
    | var hpaired => exact mirrored_var (henv _ _ hpaired)
    | binary o ha hb =>
      simp only [Expr.hasIntegral, Bool.or_eq_false_iff] at hint
      exact mirrored_binary o (ih ha hint.1 henv) (ih hb hint.2 henv)
    | call f ha => exact mirrored_call f (ih ha hint henv)
    | log ha hb =>
      simp only [Expr.hasIntegral, Bool.or_eq_false_iff] at hint
      exact mirrored_log (ih ha hint.1 henv) (ih hb hint.2 henv)
    | @aggregate _ g l l' u u' b b' i i' hl hu hb =>
      simp only [Expr.hasIntegral, Bool.or_eq_false_iff, decide_eq_false_iff_not] at hint
      obtain ⟨⟨⟨hg, hil⟩, hiu⟩, hib⟩ := hint
      exact mirrored_aggregate g (ih hl hil henv) (ih hu hiu henv)
        (fun z => ih hb hib (henv.cons i i' z)) fun hintegral => absurd hintegral hg

end Eval

variable {R : Type} [Scalar R]

/-- Renaming the index of an aggregate, with what it binds, to a name that occurs nowhere changes no
evaluation, whether it ends with a value or not. -/
theorem evaluate_of_reindexed {k j : Char} {e e' : Expr R} (h : e.Reindexed k j e')
    (hint : e.hasIntegral = false) (hj : j ∉ e.names) (settings : Settings R) (x n : Complex R) :
    evaluate settings e'.tokens x n = evaluate settings e.tokens x n := by
  have halpha : Expr.Alpha [] e e' := h.alpha fun c hc => ⟨fun hcj => hj (hcj ▸ hc), .free c⟩
  obtain ⟨t, ht, ht'⟩ := Eval.mirrored_walk_of_alpha settings.maxDepth halpha hint
    (Eval.corresponds_self (Eval.startEnv x n))
  rw [evaluate, evaluate, Eval.evaluateWith_of_computes ht, Eval.evaluateWith_of_computes ht']

/-- Of three sums with the index `k` one is renamed. The sum in its bound and the sum beside it keep
their index, while the bound of the product in its body follows. -/
theorem evaluate_of_reindexed_sum :
    let triple (k : Char) : Expr Float := .aggregate .sum (.ofInt 1) (.ofInt 3) (.var k) k
    let body (k : Char) : Expr Float := .binary .mul (.var k)
      (.aggregate .product (.ofInt 1) (.var k) (.binary .add (.var 'm') (.var 'x')) 'm')
    let e : Expr Float :=
      .binary .add (.aggregate .sum (triple 'k') (.var 'n') (body 'k') 'k') (triple 'k')
    let e' : Expr Float :=
      .binary .add (.aggregate .sum (triple 'k') (.var 'n') (body 'j') 'j') (triple 'k')
    e.validate = .ok () ∧ e.Reindexed 'k' 'j' e' ∧ e.hasIntegral = false ∧ 'j' ∉ e.names ∧
      ∀ settings x n, evaluate settings e'.tokens x n = evaluate settings e.tokens x n := by
  intro triple body e e'
  have hvalid : e.validate = .ok () := rfl
  have hreindexed : e.Reindexed 'k' 'j' e' :=
    .lhs .add (triple 'k') (.here .sum (triple 'k') (.var 'n') (body 'k'))
  have hint : e.hasIntegral = false := rfl
  have hj : 'j' ∉ e.names := by decide
  exact ⟨hvalid, hreindexed, hint, hj, evaluate_of_reindexed hreindexed hint hj⟩

end ComplexSeries
