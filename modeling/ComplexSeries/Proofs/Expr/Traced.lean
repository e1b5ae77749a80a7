import ComplexSeries.Proofs.Compile
import ComplexSeries.Proofs.Integral.Repeats

/-! The value of a tree together with what was answered from stored integrals on the way. Integrals
that are asked for inside the body of another have shorter bodies than that. -/
namespace ComplexSeries.Expr

open Eval (Env Interpretation startEnv)
open Integral (Memory)
open Traced (Repeats repeats_pure)

variable {R : Type} [Scalar R]

def traced (meaning : Interpretation R) (settings : Settings R) :
    Expr R → Env R → Traced R (Complex R)
  | const z, _ => pure z
  | constant c, _ => pure (Complex.ofConstant c)
  | var name, env => pure ((env.find? name).getD Complex.undefined)
  | binary o a b, env => do
    let lhs ← a.traced meaning settings env
    let rhs ← b.traced meaning settings env
    return meaning.operator o lhs rhs
  | call f a, env => do
    let arg ← a.traced meaning settings env
    return meaning.function f arg
  | log a b, env => do
    let value ← a.traced meaning settings env
    let base ← b.traced meaning settings env
    return meaning.log value base
  | aggregate k lower upper body index, env => do
    let first ← lower.traced meaning settings env
    let last ← upper.traced meaning settings env
    let sample (z : Complex R) := body.traced meaning settings ((index, z) :: env)
    match k with
    | .sum => IndexRange.sum first last fun k => sample (Complex.ofInt k)
    | .product => IndexRange.product first last fun k => sample (Complex.ofInt k)
    | .integral =>
      Traced.integral settings (fun t => sample (Complex.ofReal t)) first last
        (⟨body.tokens, index, outerBindings env index body, ·, ·⟩)

variable {meaning : Interpretation R} {settings : Settings R}

theorem forget_traced (e : Expr R) (env : Env R) :
    (e.traced meaning settings env).forget = e.value meaning settings env := by
  induction e generalizing env with
  | const z | constant c | var name => rfl
  | binary o a b iha ihb | log a b iha ihb =>
    rw [value, ← iha, ← ihb]
    rfl
  | call f a ih =>
    rw [value, ← ih]
    rfl
  | aggregate k lower upper body index ihl ihu ihb =>
    rw [value, ← ihl, ← ihu]
    simp only [← ihb]
    cases k with
    | sum =>
      simp only [← Traced.forget_sum]
      rfl
    | product =>
      simp only [← Traced.forget_product]
      rfl
    | integral =>
      simp only [← Traced.forget_integral]
      rfl

/-- Evaluation finds the value of the tree, and what it learns is what the tree learns. -/
theorem Compilable.run_evaluate {e : Expr R} (h : e.Compilable settings) (memory : Memory R)
    (x n : Complex R) :
    (evaluate settings e.tokens x n).run.run memory =
      let trace := e.traced .standard settings (startEnv x n) memory
      (.ok trace.value, trace.after) := by
  rw [evaluate, Eval.evaluateWith_eq h.validate h.depth_le, ← forget_traced]
  rfl

/-- The value of a tree repeats, and what it stores has bodies that are shorter than the tree. -/
theorem repeats_traced [Scalar.LawfulOrder R] (e : Expr R) (env : Env R) :
    Repeats e.tokens.length (e.traced meaning settings env) := by
  induction e generalizing env with
  | const z | constant c | var name => exact repeats_pure _ _
  | binary o a b iha ihb | log a b iha ihb =>
    simp only [tokens, List.length_cons, List.length_append]
    refine ((iha env).mono (by omega)).bind fun lhs => ?_
    exact ((ihb env).mono (by omega)).bind fun rhs => repeats_pure _ _
  | call f a ih => exact ((ih env).mono (Nat.le_succ _)).bind fun arg => repeats_pure _ _
  | aggregate k lower upper body index ihl ihu ihb =>
    simp only [tokens, List.length_cons, List.length_append]
    refine ((ihl env).mono (by omega)).bind fun first => ?_
    refine ((ihu env).mono (by omega)).bind fun last => ?_
    have hbody := fun z => ihb ((index, z) :: env)
    have hR := Traced.compositional_repeats (R := R)
    cases k with
    | sum => exact (hR _).fold _ _ (fun k => (hbody (Complex.ofInt k)).mono (by omega)) _
    | product => exact (hR _).fold _ _ (fun k => (hbody (Complex.ofInt k)).mono (by omega)) _
    | integral =>
      refine Traced.Repeats.mono ?_ (Nat.le_succ _)
      exact (Traced.repeats_integral (fun t => hbody (Complex.ofReal t)) _ _ _ _).mono (by omega)

end ComplexSeries.Expr
