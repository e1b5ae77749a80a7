import ComplexSeries.Scalar.Double
import ComplexSeries.Proofs.Eval.Bindings
import ComplexSeries.Proofs.Eval.Operand

/-! Evaluating a tree at two points. The walk looks up nothing but names that occur freely, and an
integral is remembered by the values of such names alone. So where two points agree on the free
variables, both evaluations are the same run: the same value or the same failure, and the same memory.
Nothing is said about how many levels are left, so this also holds where they do not suffice. -/
namespace ComplexSeries

namespace Eval

variable {R : Type} [Scalar R] {meaning : Interpretation R} {settings : Settings R} {scope : List Char}
  {env env' : Env R}

/-- The tree makes no difference between the environments: one run computes it in both. -/
def Alike (walk : Walker R) (env env' : Env R) (e : Expr R) : Prop := Mirrored walk env e env' e

theorem bindings_congr (henv : env.Binds scope) (henv' : env'.Binds scope) {index : Char}
    {body : Expr R} (h : body.checkScope (index :: scope) = .ok ())
    (hagree : ∀ c ∈ body.occurrences, c ≠ index → env.find? c = env'.find? c) :
    bindings env index body.tokens = bindings env' index body.tokens := by
  rw [Expr.bindings_tokens henv h, Expr.bindings_tokens henv' h]
  exact Expr.outerBindings_congr hagree

/-- By induction on the levels, since each operand has one level less than its node. Both environments
bind the same names, so the bindings of an integral list the same names too. -/
theorem alike_walk (levels : Nat) {e : Expr R} (h : e.checkScope scope = .ok ())
    (henv : env.Binds scope) (henv' : env'.Binds scope)
    (hagree : ∀ c ∈ e.occurrences, env.find? c = env'.find? c) :
    Alike (walk meaning settings levels) env env' e := by
  induction levels generalizing e scope env env' with
  | zero => exact ⟨throw (.depthExceeded settings.maxDepth), fun _ => rfl, fun _ => rfl⟩
  | succ levels ih =>
    cases e with
    | const z => exact ⟨pure z, fun _ => rfl, fun _ => rfl⟩
    | constant c => exact ⟨pure (Complex.ofConstant c), fun _ => rfl, fun _ => rfl⟩
    | var name =>
      apply mirrored_var
      rw [lookup, lookup, hagree name List.mem_cons_self]
    | binary o a b =>
      rw [Expr.checkScope_binary_iff] at h
      simp only [Expr.occurrences, List.forall_mem_append] at hagree
      exact mirrored_binary o (ih h.1 henv henv' hagree.1) (ih h.2 henv henv' hagree.2)
    | call f a => exact mirrored_call f (ih (e := a) h henv henv' hagree)
    | log a b =>
      rw [Expr.checkScope_log_iff] at h
      simp only [Expr.occurrences, List.forall_mem_append] at hagree
      exact mirrored_log (ih h.1 henv henv' hagree.1) (ih h.2 henv henv' hagree.2)
    | aggregate k lower upper body index =>
      obtain ⟨hl, hu, -, hb⟩ := Expr.checkScope_aggregate_iff.1 h
      simp only [Expr.occurrences, List.forall_mem_append, List.mem_filter, bne_iff_ne,
        and_imp] at hagree
      have hbody : ∀ z, ∀ c ∈ body.occurrences,
          Env.find? ((index, z) :: env) c = Env.find? ((index, z) :: env') c := by
        intro z c hc
        rw [Env.find?_cons, Env.find?_cons]
        split
        · rfl
        · next hne => exact hagree.2 c hc (Ne.symm hne)
      exact mirrored_aggregate k (ih hl henv henv' hagree.1.1) (ih hu henv henv' hagree.1.2)
        (fun z => ih hb (henv.cons index z) (henv'.cons index z) (hbody z))
        fun _ => ⟨rfl, rfl, bindings_congr henv henv' hb hagree.2⟩

omit [Scalar R] in
theorem find?_startEnv_congr {x n x' n' : Complex R} {c : Char} (hx : c = 'x' → x = x')
    (hn : c = 'n' → n = n') : (startEnv x n).find? c = (startEnv x' n').find? c := by
  simp only [startEnv, Env.find?_cons]
  split
  · next h => rw [hn h.symm]
  · split
    · next h => rw [hx h.symm]
    · rfl

end Eval

variable {R : Type} [Scalar R]

open Eval (startEnv)

/-- Points that agree on the free variables of a tree give the same result, whether a value or a
failure, and leave the same memory. -/
theorem evaluate_congr_of_freeVariables (settings : Settings R) {e : Expr R}
    (hvalid : e.validate = .ok ()) {x n x' n' : Complex R}
    (hx : 'x' ∈ e.freeVariables → x = x') (hn : 'n' ∈ e.freeVariables → n = n')
    (memory : Integral.Memory R) :
    (evaluate settings e.tokens x n).run.run memory =
      (evaluate settings e.tokens x' n').run.run memory := by
  have hagree : ∀ c ∈ e.occurrences, (startEnv x n).find? c = (startEnv x' n').find? c := by
    intro c hc
    have hfree : c ∈ e.freeVariables := mem_sortNames.2 hc
    exact Eval.find?_startEnv_congr (fun h => hx (h ▸ hfree)) (fun h => hn (h ▸ hfree))
  obtain ⟨t, ht, ht'⟩ : Eval.Alike (Eval.walk .standard settings settings.maxDepth) (startEnv x n)
      (startEnv x' n') e :=
    Eval.alike_walk settings.maxDepth hvalid (Eval.binds_startEnv x n) (Eval.binds_startEnv x' n')
      hagree
  rw [evaluate, evaluate, Eval.evaluateWith_of_computes ht, Eval.evaluateWith_of_computes ht']

/-- The integral of `t` from 0 to `x` does not depend on `n`, with an empty memory or with one that
answers it. With two levels nothing is computed, so both evaluations fail where nothing is known. -/
theorem evaluate_congr_of_freeVariables_integral :
    let e : Expr Float :=
      .aggregate .integral (.const (.ofInt 0)) (.var 'x') (.binary .mul (.var 't') (.var 'x')) 't'
    e.validate = .ok () ∧ e.freeVariables = ['x'] ∧
      (∀ memory, (evaluate ⟨4, 4, 1, 5, true, none⟩ e.tokens (.ofInt 2) (.ofInt 0)).run.run memory =
        (evaluate ⟨4, 4, 1, 5, true, none⟩ e.tokens (.ofInt 2) (.ofInt 7)).run.run memory) ∧
      (∀ memory, (evaluate ⟨4, 4, 1, 2, true, none⟩ e.tokens (.ofInt 2) (.ofInt 0)).run.run memory =
        (evaluate ⟨4, 4, 1, 2, true, none⟩ e.tokens (.ofInt 2) (.ofInt 7)).run.run memory) ∧
      (evaluate ⟨4, 4, 1, 2, true, none⟩ e.tokens (.ofInt 2) (.ofInt 0)).run.run [] =
        (.error (.depthExceeded 2), []) := by
  intro e
  have hvalid : e.validate = .ok () := rfl
  have hfree : e.freeVariables = ['x'] := by decide
  have hn : 'n' ∈ e.freeVariables → (.ofInt 0 : Complex Float) = .ofInt 7 := by
    rw [hfree]
    intro h
    exact absurd h (by decide)
  exact ⟨hvalid, hfree, evaluate_congr_of_freeVariables _ hvalid (fun _ => rfl) hn,
    evaluate_congr_of_freeVariables _ hvalid (fun _ => rfl) hn, rfl⟩

end ComplexSeries
