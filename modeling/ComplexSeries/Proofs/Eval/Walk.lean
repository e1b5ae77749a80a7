import ComplexSeries.Scalar.Double
import ComplexSeries.Proofs.Expr.Height
import ComplexSeries.Proofs.Eval.Bindings
import ComplexSeries.Proofs.Eval.Operand

/-! The walk over the tokens of a tree computes the value of the tree. The walk is followed through
the tree with any tokens behind it, in any environment that binds the names in scope, and with any
number of levels that the height of the tree does not exceed. -/
namespace ComplexSeries

namespace Eval

open Integral (Memory)

variable {R : Type} [Scalar R] {meaning : Interpretation R} {settings : Settings R}

/-- A walk that takes the value of a tree and leaves the tokens behind it. -/
def Reads (walk : Walker R) (env : Env R) (e : Expr R) (value : StateM (Memory R) (Complex R)) : Prop :=
  ∀ rest, walk env (e.tokens ++ rest) = do
    let z ← (liftM value : Run R (Complex R))
    return (z, rest)

/-- An aggregate, if its bounds are read where it stands and its body for each value of the index. -/
theorem reads_aggregate {walk : Walker R} {env : Env R} {k : Aggregate}
    {lower upper body : Expr R} {index : Char}
    (hl : Reads walk env lower (lower.value meaning settings env))
    (hu : Reads walk env upper (upper.value meaning settings env))
    (hb : ∀ z, Reads walk ((index, z) :: env) body (body.value meaning settings ((index, z) :: env)))
    (hbindings : bindings env index body.tokens = Expr.outerBindings env index body) :
    Reads (step meaning settings walk) env (.aggregate k lower upper body index)
      ((Expr.aggregate k lower upper body index).value meaning settings env) := by
  intro rest
  rw [computes_aggregate k hl hu hb rest, Expr.value, liftM_bind, hbindings]
  simp only [liftM_bind]
  cases k with
  | sum => simp only [IndexRange.liftM_sum]
  | product => simp only [IndexRange.liftM_product]
  | integral => simp only [liftM_integral]

theorem reads_binary {walk : Walker R} {env : Env R} {o : Operator} {a b : Expr R}
    (ha : Reads walk env a (a.value meaning settings env))
    (hb : Reads walk env b (b.value meaning settings env)) :
    Reads (step meaning settings walk) env (.binary o a b)
      ((Expr.binary o a b).value meaning settings env) := by
  intro rest
  rw [computes_binary o ha hb rest]
  simp only [Expr.value, liftM_bind, liftM_pure]

theorem reads_log {walk : Walker R} {env : Env R} {a b : Expr R}
    (ha : Reads walk env a (a.value meaning settings env))
    (hb : Reads walk env b (b.value meaning settings env)) :
    Reads (step meaning settings walk) env (.log a b)
      ((Expr.log a b).value meaning settings env) := by
  intro rest
  rw [computes_log ha hb rest]
  simp only [Expr.value, liftM_bind, liftM_pure]

theorem reads_call {walk : Walker R} {env : Env R} {f : Function} {a : Expr R}
    (ha : Reads walk env a (a.value meaning settings env)) :
    Reads (step meaning settings walk) env (.call f a)
      ((Expr.call f a).value meaning settings env) := by
  intro rest
  rw [computes_call f ha rest]
  simp only [Expr.value, liftM_bind, liftM_pure]

theorem walk_tokens {e : Expr R} {scope : List Char} {env : Env R} {levels : Nat}
    (h : e.checkScope scope = .ok ()) (henv : env.Binds scope) (hlevels : e.height ≤ levels) :
    Reads (walk meaning settings levels) env e (e.value meaning settings env) := by
  induction e generalizing scope env levels with
  | const z | constant c =>
    obtain ⟨levels, rfl⟩ := Expr.exists_eq_succ_of_height_le hlevels
    intro rest
    rw [Expr.value, liftM_pure, pure_bind]
    rfl
  | var name =>
    obtain ⟨levels, rfl⟩ := Expr.exists_eq_succ_of_height_le hlevels
    intro rest
    rw [Expr.checkScope_var_iff, ← henv name, Option.isSome_iff_exists] at h
    obtain ⟨z, hz⟩ := h
    rw [walk, computes_var name rest, lookup, hz, Expr.value, hz]
    rfl
  | binary o a b iha ihb =>
    obtain ⟨levels, rfl⟩ := Expr.exists_eq_succ_of_height_le hlevels
    rw [Expr.checkScope_binary_iff] at h
    simp only [Expr.height] at hlevels
    exact reads_binary (iha h.1 henv (by omega)) (ihb h.2 henv (by omega))
  | call f a ih =>
    obtain ⟨levels, rfl⟩ := Expr.exists_eq_succ_of_height_le hlevels
    simp only [Expr.height] at hlevels
    exact reads_call (ih h henv (by omega))
  | log a b iha ihb =>
    obtain ⟨levels, rfl⟩ := Expr.exists_eq_succ_of_height_le hlevels
    rw [Expr.checkScope_log_iff] at h
    simp only [Expr.height] at hlevels
    exact reads_log (iha h.1 henv (by omega)) (ihb h.2 henv (by omega))
  | aggregate k lower upper body index ihl ihu ihb =>
    obtain ⟨levels, rfl⟩ := Expr.exists_eq_succ_of_height_le hlevels
    obtain ⟨hl, hu, -, hb⟩ := Expr.checkScope_aggregate_iff.1 h
    simp only [Expr.height] at hlevels
    exact reads_aggregate (ihl hl henv (by omega)) (ihu hu henv (by omega))
      (fun z => ihb hb (henv.cons index z) (by omega)) (Expr.bindings_tokens henv hb)

/-- A list of tokens that is the list of a tree has the value of the tree. -/
theorem evaluateWith_eq {e : Expr R} (h : e.validate = .ok ()) (hdepth : e.depth ≤ settings.maxDepth)
    (x n : Complex R) :
    evaluateWith meaning settings e.tokens x n =
      liftM (e.value meaning settings (startEnv x n)) := by
  have hwalk : Reads (walk meaning settings settings.maxDepth) (startEnv x n) e
      (e.value meaning settings (startEnv x n)) :=
    walk_tokens h (binds_startEnv x n) (e.depth_eq_height ▸ hdepth)
  exact evaluateWith_of_computes hwalk

end Eval

variable {R : Type} [Scalar R]

/-- Evaluating the tokens of a tree gives the value of the tree and leaves the memory that the tree
leaves, whatever the operations mean. -/
theorem evaluateWith_tokens (meaning : Eval.Interpretation R) (settings : Settings R) {e : Expr R}
    (hvalid : e.validate = .ok ()) (hdepth : e.depth ≤ settings.maxDepth)
    (memory : Integral.Memory R) (x n : Complex R) :
    (evaluateWith meaning settings e.tokens x n).run.run memory =
      let (z, after) := (e.value meaning settings (Eval.startEnv x n)).run memory
      (Except.ok z, after) := by
  rw [Eval.evaluateWith_eq hvalid hdepth]
  rfl

/-- The second integral goes on from the first one, which it extends by more than its width: two
samples are taken up to 6, and one beyond. -/
theorem evaluateWith_tokens_integral :
    let settings : Settings Float := { Settings.standard Float with integralSteps := 2 }
    let body : Expr Float := .binary .mul (.var 'x') (.var 't')
    let upTo (upper : Expr Float) : Expr Float := .aggregate .integral (.var 'n') upper body 't'
    let e : Expr Float := .binary .add (upTo (.var 'x')) (upTo (.binary .add (.var 'x') (.var 'x')))
    let stored (upper value : Float) : Integral.Entry Float :=
      ⟨⟨body.tokens, 't', [('x', .ofInt 6)], 2, upper⟩, .ofReal value⟩
    let value := e.value .standard settings (Eval.startEnv (.ofInt 6) (.ofInt 2))
    e.validate = .ok () ∧ e.depth ≤ settings.maxDepth ∧
      (evaluateWith .standard settings e.tokens (.ofInt 6) (.ofInt 2)).run.run [] =
        (let (z, after) := value.run []
        (Except.ok z, after)) ∧
      value.run [] = (.ofReal 360, [stored 6 72, stored 12 288]) := by
  intro settings body upTo e stored value
  have hvalid : e.validate = .ok () := rfl
  have hdepth : e.depth ≤ settings.maxDepth := by
    rw [Expr.depth_eq_height]
    decide
  have hresult : (value.run []).1 = .ofReal 360 := by decide +kernel
  have hafter : (value.run []).2 = [stored 6 72, stored 12 288] := by decide +kernel
  exact ⟨hvalid, hdepth, evaluateWith_tokens .standard settings hvalid hdepth [] _ _,
    Prod.ext hresult hafter⟩

end ComplexSeries
