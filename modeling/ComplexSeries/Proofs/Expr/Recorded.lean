import ComplexSeries.Proofs.Eval.Operand
import ComplexSeries.Proofs.Eval.Bindings
import ComplexSeries.Proofs.Integral.Recorded

/-! The walk over the tokens of a tree as a recorded run on the tree, for any tree and any number of
levels. In a tree that may be evaluated, an integral is only asked for where it stands, and it is
remembered by the values that the variables of its body have there. -/
namespace ComplexSeries.Expr

open Eval (Env Interpretation Run Computes startEnv)
open Integral (Memory Request)
open Recorded (Accountable)

variable {R : Type} [Scalar R]

def recorded (meaning : Interpretation R) (settings : Settings R) :
    (levels : Nat) → Expr R → Env R → Recorded R (Complex R)
  | 0, _, _ => .fail (.depthExceeded settings.maxDepth)
  | _ + 1, const z, _ => pure z
  | _ + 1, constant c, _ => pure (Complex.ofConstant c)
  | _ + 1, var name, env =>
    match env.find? name with
    | some z => pure z
    | none => .fail (.malformed (.unbound name))
  | levels + 1, binary o a b, env => do
    let lhs ← a.recorded meaning settings levels env
    let rhs ← b.recorded meaning settings levels env
    return meaning.operator o lhs rhs
  | levels + 1, call f a, env => do
    let arg ← a.recorded meaning settings levels env
    return meaning.function f arg
  | levels + 1, log a b, env => do
    let value ← a.recorded meaning settings levels env
    let base ← b.recorded meaning settings levels env
    return meaning.log value base
  | levels + 1, aggregate k lower upper body index, env => do
    let first ← lower.recorded meaning settings levels env
    let last ← upper.recorded meaning settings levels env
    let sample (z : Complex R) := body.recorded meaning settings levels ((index, z) :: env)
    match k with
    | .sum => IndexRange.sum first last fun k => sample (Complex.ofInt k)
    | .product => IndexRange.product first last fun k => sample (Complex.ofInt k)
    | .integral =>
      let bindings := Eval.bindings env index body.tokens
      Integral.directed (fun a b => Recorded.ask settings env (fun t => sample (Complex.ofReal t))
        ⟨body.tokens, index, bindings, a, b⟩) first last

variable {meaning : Interpretation R} {settings : Settings R}

theorem computes_recorded (levels : Nat) (e : Expr R) (env : Env R) :
    Computes (Eval.walk meaning settings levels) env e
      (liftM (e.recorded meaning settings levels env)) := by
  induction levels generalizing e env with
  | zero => exact fun _ => rfl
  | succ levels ih =>
    cases e with
    | const z | constant c => exact fun _ => rfl
    | var name =>
      intro rest
      rw [recorded, tokens, List.singleton_append, Eval.walk]
      unfold Eval.step
      dsimp only
      cases env.find? name <;> rfl
    | binary o a b =>
      simp only [recorded, liftM_bind, liftM_pure]
      exact Eval.computes_binary o (ih a env) (ih b env)
    | call f a =>
      simp only [recorded, liftM_bind, liftM_pure]
      exact Eval.computes_call f (ih a env)
    | log a b =>
      simp only [recorded, liftM_bind, liftM_pure]
      exact Eval.computes_log (ih a env) (ih b env)
    | aggregate k lower upper body index =>
      have h : Computes (Eval.walk meaning settings (levels + 1)) env
          (aggregate k lower upper body index) _ :=
        Eval.computes_aggregate k (ih lower env) (ih upper env) fun z => ih body ((index, z) :: env)
      cases k with
      | sum =>
        simp only [recorded, liftM_bind, IndexRange.liftM_sum]
        exact h
      | product =>
        simp only [recorded, liftM_bind, IndexRange.liftM_product]
        exact h
      | integral =>
        simp only [recorded, liftM_bind, Integral.liftM_directed, Recorded.liftM_ask]
        exact h

theorem evaluateWith_recorded (e : Expr R) (x n : Complex R) (memory : Memory R) :
    (evaluateWith meaning settings e.tokens x n).run.run memory =
      let record := e.recorded meaning settings settings.maxDepth (startEnv x n) memory
      (record.result, record.after) := by
  rw [Eval.evaluateWith_of_computes (computes_recorded settings.maxDepth e (startEnv x n))]
  rfl

/-! ### What is asked for -/

/-- The request is for an integral that stands in the tree, with the variables as they are there: the
indices around it, `x` and `n`. It names the free variables of the body but the index, each once and
in order, and tells their values. -/
structure Asks (root : Expr R) (x n : Complex R) (env : Env R) (request : Request R) : Prop where
  part : ∃ scope lower upper body,
    root.Part scope (.aggregate .integral lower upper body request.index) ∧
      env.Extends x n scope ∧ request.body = body.tokens ∧
      request.bindings.map (·.1) = body.freeVariables.filter (· != request.index)
  ascending : (request.bindings.map (·.1)).Pairwise (· < ·)
  current : ∀ c z, (c, z) ∈ request.bindings → env.find? c = some z

variable {root : Expr R} {x n : Complex R}

theorem Part.asks {scope : List Char} {lower upper body : Expr R} {index : Char} {env : Env R}
    (hvalid : root.validate = .ok ())
    (h : root.Part scope (.aggregate .integral lower upper body index))
    (henv : env.Extends x n scope) (a b : R) :
    root.Asks x n env ⟨body.tokens, index, Eval.bindings env index body.tokens, a, b⟩ := by
  have hbody : body.checkScope (index :: scope) = .ok () := h.body.checkScope hvalid
  have hnames := map_fst_outerBindings henv.binds hbody
  rw [bindings_tokens henv.binds hbody]
  refine ⟨⟨scope, lower, upper, body, h, henv, rfl, hnames⟩, ?_,
    fun c z => find?_of_mem_outerBindings⟩
  rw [hnames]
  exact (pairwise_sortNames body.occurrences).filter _

section

variable {Q : Env R → Request R → Prop} {P : List Char → Env R → Prop}

/-- What holds of each integral of a tree where it stands holds of all that is asked for. It may
depend on the variables by whatever their values keep to as indices are bound. -/
theorem accountable_recorded_of_part
    (hcons : ∀ {scope env} (index : Char) (z : Complex R), P scope env →
      P (index :: scope) ((index, z) :: env))
    (hask : ∀ {scope lower upper body index env},
      root.Part scope (.aggregate .integral lower upper body index) → P scope env → ∀ a b : R,
        Q env ⟨body.tokens, index, Eval.bindings env index body.tokens, a, b⟩)
    (levels : Nat) {scope : List Char} {e : Expr R} (h : root.Part scope e) {env : Env R}
    (henv : P scope env) : Accountable Q (e.recorded meaning settings levels env) := by
  have hQ := Recorded.compositional_accountable Q
  induction levels generalizing scope e env with
  | zero => exact Recorded.accountable_fail _
  | succ levels ih =>
    cases e with
    | const z | constant c => exact hQ.pure _
    | var name =>
      rw [recorded]
      split
      · exact hQ.pure _
      · exact Recorded.accountable_fail _
    | binary o a b => exact hQ.bind (ih h.lhs henv) fun _ => hQ.bind (ih h.rhs henv) fun _ => hQ.pure _
    | call f a => exact hQ.bind (ih h.arg henv) fun _ => hQ.pure _
    | log a b => exact hQ.bind (ih h.value henv) fun _ => hQ.bind (ih h.base henv) fun _ => hQ.pure _
    | aggregate k lower upper body index =>
      refine hQ.bind (ih h.lower henv) fun first => hQ.bind (ih h.upper henv) fun last => ?_
      have hsample := fun z => ih h.body (hcons index z henv)
      cases k with
      | sum => exact hQ.fold _ _ (fun k => hsample (Complex.ofInt k)) _
      | product => exact hQ.fold _ _ (fun k => hsample (Complex.ofInt k)) _
      | integral =>
        refine hQ.directed (fun a b _ => ?_) first last
        exact Recorded.accountable_ask (hask h henv a b) fun t => hsample (Complex.ofReal t)

end

theorem accountable_recorded (hvalid : root.validate = .ok ()) (levels : Nat) {scope : List Char}
    {e : Expr R} (h : root.Part scope e) {env : Env R} (henv : env.Extends x n scope) :
    Accountable (root.Asks x n) (e.recorded meaning settings levels env) :=
  accountable_recorded_of_part (fun index z hextends => hextends.cons index z)
    (fun hpart hextends => hpart.asks hvalid hextends) levels h henv

end ComplexSeries.Expr
