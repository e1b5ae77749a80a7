import Mathlib.Tactic.Choose
import ComplexSeries.Proofs.Token.Split
import ComplexSeries.Eval

/-! One step of the walk over the tokens of a tree. Whatever the walk computes for the operands of a
node, taken one by one, the step computes the node from it. So where one run computes the operands of
two nodes, one run computes both nodes. -/
namespace ComplexSeries.Eval

variable {R : Type} [Scalar R] {meaning : Interpretation R} {settings : Settings R}

/-- A walk that computes `t` for a tree and leaves the tokens behind it. -/
def Computes (walk : Walker R) (env : Env R) (e : Expr R) (t : Run R (Complex R)) : Prop :=
  ∀ rest, walk env (e.tokens ++ rest) = do
    let z ← t
    return (z, rest)

/-- The value of a name, or the fault that it has none. -/
def lookup (env : Env R) (name : Char) : Run R (Complex R) :=
  (env.find? name).elim (fault (.unbound name)) pure

section

variable {walk : Walker R} {env : Env R} {a b : Expr R} {ta tb : Run R (Complex R)}

theorem computes_var (name : Char) :
    Computes (step meaning settings walk) env (.var name) (lookup env name) := by
  intro rest
  rw [Expr.tokens, List.singleton_append]
  unfold step lookup
  dsimp only
  cases env.find? name <;> rfl

theorem computes_binary (o : Operator) (ha : Computes walk env a ta) (hb : Computes walk env b tb) :
    Computes (step meaning settings walk) env (.binary o a b) (do
      let lhs ← ta
      let rhs ← tb
      return meaning.operator o lhs rhs) := by
  intro rest
  simp only [Expr.tokens, List.cons_append, List.append_assoc, step]
  rw [ha]
  simp only [bind_assoc, pure_bind, hb rest]

theorem computes_log (ha : Computes walk env a ta) (hb : Computes walk env b tb) :
    Computes (step meaning settings walk) env (.log a b) (do
      let value ← ta
      let base ← tb
      return meaning.log value base) := by
  intro rest
  simp only [Expr.tokens, List.cons_append, List.append_assoc, step]
  rw [ha]
  simp only [bind_assoc, pure_bind, hb rest]

theorem computes_call (f : Function) (ha : Computes walk env a ta) :
    Computes (step meaning settings walk) env (.call f a) (do
      let arg ← ta
      return meaning.function f arg) := by
  intro rest
  simp only [Expr.tokens, List.cons_append, step]
  rw [ha]
  simp only [bind_assoc, pure_bind]

/-- The body is taken where it stands, once for each value of the index. -/
theorem computes_aggregate (k : Aggregate) {lower upper body : Expr R} {index : Char}
    {tl tu : Run R (Complex R)} {sample : Complex R → Run R (Complex R)}
    (hl : Computes walk env lower tl) (hu : Computes walk env upper tu)
    (hb : ∀ z, Computes walk ((index, z) :: env) body (sample z)) :
    Computes (step meaning settings walk) env (.aggregate k lower upper body index) (do
      let first ← tl
      let last ← tu
      match k with
      | .sum => IndexRange.sum first last fun k => sample (Complex.ofInt k)
      | .product => IndexRange.product first last fun k => sample (Complex.ofInt k)
      | .integral =>
        integral settings (fun t => sample (Complex.ofReal t)) first last
          (⟨body.tokens, index, bindings env index body.tokens, ·, ·⟩)) := by
  intro rest
  simp only [Expr.tokens, List.cons_append, List.append_assoc, List.nil_append, step, walkAggregate]
  rw [hl]
  simp only [bind_assoc, pure_bind]
  congr 1
  funext first
  rw [hu]
  simp only [bind_assoc, pure_bind]
  congr 1
  funext last
  rw [Token.split?_one_tokens]
  simp only [fun z => hb z (.binder index :: rest), bind_assoc, pure_bind, bind_pure]
  cases k <;> rfl

end

/-! ### Two trees -/

/-- One run computes both trees, each in its own environment. -/
def Mirrored (walk : Walker R) (env : Env R) (e : Expr R) (env' : Env R) (e' : Expr R) : Prop :=
  ∃ t : Run R (Complex R), Computes walk env e t ∧ Computes walk env' e' t

section

variable {walk : Walker R} {env env' : Env R} {a a' b b' : Expr R}

theorem mirrored_var {c c' : Char} (h : lookup env c = lookup env' c') :
    Mirrored (step meaning settings walk) env (.var c) env' (.var c') :=
  ⟨_, computes_var c, h ▸ computes_var c'⟩

theorem mirrored_call (f : Function) (ha : Mirrored walk env a env' a') :
    Mirrored (step meaning settings walk) env (.call f a) env' (.call f a') := by
  obtain ⟨ta, ha, ha'⟩ := ha
  exact ⟨_, computes_call f ha, computes_call f ha'⟩

theorem mirrored_binary (o : Operator) (ha : Mirrored walk env a env' a')
    (hb : Mirrored walk env b env' b') :
    Mirrored (step meaning settings walk) env (.binary o a b) env' (.binary o a' b') := by
  obtain ⟨ta, ha, ha'⟩ := ha
  obtain ⟨tb, hb, hb'⟩ := hb
  exact ⟨_, computes_binary o ha hb, computes_binary o ha' hb'⟩

theorem mirrored_log (ha : Mirrored walk env a env' a') (hb : Mirrored walk env b env' b') :
    Mirrored (step meaning settings walk) env (.log a b) env' (.log a' b') := by
  obtain ⟨ta, ha, ha'⟩ := ha
  obtain ⟨tb, hb, hb'⟩ := hb
  exact ⟨_, computes_log ha hb, computes_log ha' hb'⟩

/-- Integrals are remembered by their bodies, so those have to be the same. -/
theorem mirrored_aggregate (k : Aggregate) {l l' u u' : Expr R} {i i' : Char}
    (hl : Mirrored walk env l env' l') (hu : Mirrored walk env u env' u')
    (hb : ∀ z, Mirrored walk ((i, z) :: env) b ((i', z) :: env') b')
    (hrequest : k = .integral → b = b' ∧ i = i' ∧
      bindings env i b.tokens = bindings env' i b.tokens) :
    Mirrored (step meaning settings walk) env (.aggregate k l u b i) env'
      (.aggregate k l' u' b' i') := by
  obtain ⟨tl, hl, hl'⟩ := hl
  obtain ⟨tu, hu, hu'⟩ := hu
  choose sample hb hb' using hb
  refine ⟨_, computes_aggregate k hl hu hb, ?_⟩
  cases k with
  | sum => exact computes_aggregate .sum hl' hu' hb'
  | product => exact computes_aggregate .product hl' hu' hb'
  | integral =>
    obtain ⟨rfl, rfl, hbindings⟩ := hrequest rfl
    rw [hbindings]
    exact computes_aggregate .integral hl' hu' hb'

end

/-- The value of a list of tokens is what the walk computes for the tree that it is the list of. -/
theorem evaluateWith_of_computes {e : Expr R} {x n : Complex R} {t : Run R (Complex R)}
    (h : Computes (walk meaning settings settings.maxDepth) (startEnv x n) e t) :
    evaluateWith meaning settings e.tokens x n = t := by
  have hne : e.tokens.isEmpty = false := by cases e <;> rfl
  have hwalk := h []
  rw [List.append_nil] at hwalk
  unfold evaluateWith
  rw [hwalk, hne]
  simp

end ComplexSeries.Eval
