import ComplexSeries.Token.OfExpr
import ComplexSeries.Eval
import ComplexSeries.Proofs.Variable
import ComplexSeries.Proofs.Eval.Lift

/-! The value of a tree, by recursion on it: operands in order, and the body of an aggregate once for
each value of its index, which is bound there and nowhere else. There is no way to fail, since a
name without a value counts as undefined. Only the values of the names that occur freely matter, and
without integrals the memory does not matter either. -/
namespace ComplexSeries

open Eval (Env Interpretation)
open Integral (Memory)

variable {R : Type}

namespace Eval.Env

theorem find?_cons (name : Char) (z : Complex R) (env : Env R) (c : Char) :
    find? ((name, z) :: env) c = if name = c then some z else find? env c := by
  by_cases h : name = c <;> simp [find?, h]

end Eval.Env

namespace Expr

variable [Scalar R]

/-- The values of the variables that the body of an aggregate reads from outside. -/
def outerBindings (env : Env R) (index : Char) (body : Expr R) : List (Char × Complex R) :=
  (sortNames (body.occurrences.filter (· != index))).filterMap fun name =>
    (env.find? name).map (name, ·)

def value (meaning : Interpretation R) (settings : Settings R) :
    Expr R → Env R → StateM (Memory R) (Complex R)
  | const z, _ => pure z
  | constant c, _ => pure (Complex.ofConstant c)
  | var name, env => pure ((env.find? name).getD Complex.undefined)
  | binary o a b, env => do
    let lhs ← a.value meaning settings env
    let rhs ← b.value meaning settings env
    return meaning.operator o lhs rhs
  | call f a, env => do
    let arg ← a.value meaning settings env
    return meaning.function f arg
  | log a b, env => do
    let value ← a.value meaning settings env
    let base ← b.value meaning settings env
    return meaning.log value base
  | aggregate k lower upper body index, env => do
    let first ← lower.value meaning settings env
    let last ← upper.value meaning settings env
    let sample (z : Complex R) := body.value meaning settings ((index, z) :: env)
    match k with
    | .sum => IndexRange.sum first last fun k => sample (Complex.ofInt k)
    | .product => IndexRange.product first last fun k => sample (Complex.ofInt k)
    | .integral =>
      Eval.integral settings (fun t => sample (Complex.ofReal t)) first last
        (⟨body.tokens, index, outerBindings env index body, ·, ·⟩)

variable {meaning : Interpretation R} {settings : Settings R}

/-! ### Which values matter -/

omit [Scalar R] in
theorem outerBindings_congr {env env' : Env R} {index : Char} {body : Expr R}
    (h : ∀ c ∈ body.occurrences, c ≠ index → env.find? c = env'.find? c) :
    outerBindings env index body = outerBindings env' index body := by
  refine List.filterMap_congr fun c hc => ?_
  simp only [mem_sortNames, List.mem_filter, bne_iff_ne] at hc
  rw [h c hc.1 hc.2]

theorem value_congr (e : Expr R) {env env' : Env R}
    (h : ∀ c ∈ e.occurrences, env.find? c = env'.find? c) :
    e.value meaning settings env = e.value meaning settings env' := by
  induction e generalizing env env' with
  | const | constant => rfl
  | var name => rw [value, value, h name List.mem_cons_self]
  | binary o a b iha ihb | log a b iha ihb =>
    simp only [occurrences, List.forall_mem_append] at h
    rw [value, value, iha h.1, ihb h.2]
  | call f a ih => rw [value, value, ih h]
  | aggregate k lower upper body index ihl ihu ihb =>
    simp only [occurrences, List.forall_mem_append, List.mem_filter, bne_iff_ne, and_imp] at h
    have hbody : ∀ z, body.value meaning settings ((index, z) :: env) =
        body.value meaning settings ((index, z) :: env') := by
      refine fun z => ihb fun c hc => ?_
      rw [Eval.Env.find?_cons, Eval.Env.find?_cons]
      split
      · rfl
      · next hne => exact h.2 c hc (Ne.symm hne)
    rw [value, value, ihl h.1.1, ihu h.1.2, outerBindings_congr h.2]
    simp only [hbody]

omit [Scalar R] in
theorem occurrences_eq_nil {e : Expr R} (h : e.isClosed) : e.occurrences = [] := by
  refine List.eq_nil_iff_forall_not_mem.2 fun c hc => ?_
  have hmem : c ∈ e.freeVariables := mem_sortNames.2 hc
  rw [List.isEmpty_iff.1 h] at hmem
  cases hmem

/-- A closed tree has one value. -/
theorem value_of_isClosed {e : Expr R} (h : e.isClosed) (env env' : Env R) :
    e.value meaning settings env = e.value meaning settings env' :=
  e.value_congr (by simp [occurrences_eq_nil h])

/-! ### Trees without integrals -/

def hasIntegral : Expr R → Bool
  | const _ | constant _ | var _ => false
  | binary _ a b | log a b => a.hasIntegral || b.hasIntegral
  | call _ a => a.hasIntegral
  | aggregate k lower upper body _ =>
    k = .integral || lower.hasIntegral || upper.hasIntegral || body.hasIntegral

/-- Such a tree has a value that neither depends on the memory nor changes it. -/
theorem exists_value_eq_pure {e : Expr R} (h : e.hasIntegral = false) (env : Env R) :
    ∃ z, e.value meaning settings env = pure z := by
  induction e generalizing env with
  | const | constant | var => exact ⟨_, rfl⟩
  | binary o a b iha ihb | log a b iha ihb =>
    simp only [hasIntegral, Bool.or_eq_false_iff] at h
    obtain ⟨z, hz⟩ := iha h.1 env
    obtain ⟨w, hw⟩ := ihb h.2 env
    rw [value, hz, hw]
    exact ⟨_, rfl⟩
  | call f a ih =>
    obtain ⟨z, hz⟩ := ih h env
    rw [value, hz]
    exact ⟨_, rfl⟩
  | aggregate k lower upper body index ihl ihu ihb =>
    simp only [hasIntegral, Bool.or_eq_false_iff] at h
    obtain ⟨⟨⟨hk, hl⟩, hu⟩, hb⟩ := h
    obtain ⟨first, hfirst⟩ := ihl hl env
    obtain ⟨last, hlast⟩ := ihu hu env
    choose sample hsample using fun z => ihb hb ((index, z) :: env)
    rw [value, hfirst, hlast]
    simp only [hsample, pure_bind]
    cases k with
    | sum =>
      exact ⟨_, (IndexRange.liftM_sum (m := Id) first last fun k => sample (Complex.ofInt k)).symm⟩
    | product =>
      exact ⟨_, (IndexRange.liftM_product (m := Id) first last fun k => sample (Complex.ofInt k)).symm⟩
    | integral => simp at hk

end Expr

end ComplexSeries
