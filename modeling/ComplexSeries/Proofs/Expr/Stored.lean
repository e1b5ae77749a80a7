import ComplexSeries.Proofs.Integral.History
import ComplexSeries.Proofs.Integral.Stored
import ComplexSeries.Proofs.Expr.Recorded

/-! Integrals of a tree that are stored while it is evaluated. Those that stand in the body of another
have shorter bodies than that. The tokens of a tree that may be evaluated equal themselves, so an integral
is found again unless a variable of its body has a missing value. -/
namespace ComplexSeries

open Eval (Env Interpretation Run startEnv)
open Integral (Memory Request Entry Learns plan)
open Scalar (LawfulText)

/-! ### What equals itself -/

theorem beq_self_of_forall {α : Type} [BEq α] {as : List α} (h : ∀ a ∈ as, (a == a) = true) :
    (as == as) = true := by
  induction as with
  | nil => rfl
  | cons a as ih =>
    obtain ⟨ha, has⟩ := List.forall_mem_cons.1 h
    rw [List.cons_beq_cons, ha, ih has]
    decide +kernel

theorem Complex.beq_self_of_isMissing {z : Complex Float} (h : z.isMissing = false) :
    (z == z) = true := by
  obtain ⟨hre, him⟩ := Bool.or_eq_false_iff.1 h
  exact Bool.and_eq_true_iff.2 ⟨Double.beq_self_of_isNaN hre, Double.beq_self_of_isNaN him⟩

theorem Complex.isMissing_of_isFinite {R : Type} [Scalar R] [LawfulText R] {z : Complex R}
    (h : z.isFinite = true) : z.isMissing = false := by
  obtain ⟨hre, him⟩ := Bool.and_eq_true_iff.1 h
  exact Bool.or_eq_false_iff.2
    ⟨LawfulText.isMissing_of_isFinite hre, LawfulText.isMissing_of_isFinite him⟩

namespace Expr

theorem beq_self_of_mem_tokens {scope : List Char} {e : Expr Float} (h : e.checkScope scope = .ok ()) :
    ∀ t ∈ e.tokens, (t == t) = true := by
  have hoperation (op : Operation) : (Token.operation op == (.operation op : Token Float)) = true :=
    beq_self_eq_true op
  induction e generalizing scope with
  | const z =>
    have hz := Complex.isMissing_of_isFinite (checkScope_const_iff.1 h)
    exact List.forall_mem_singleton.2 (Complex.beq_self_of_isMissing hz)
  | constant c => exact List.forall_mem_singleton.2 (by cases c <;> decide +kernel)
  | var name => exact List.forall_mem_singleton.2 (beq_self_eq_true name)
  | binary o a b iha ihb =>
    obtain ⟨ha, hb⟩ := checkScope_binary_iff.1 h
    exact List.forall_mem_cons.2 ⟨hoperation _, List.forall_mem_append.2 ⟨iha ha, ihb hb⟩⟩
  | log a b iha ihb =>
    obtain ⟨ha, hb⟩ := checkScope_log_iff.1 h
    exact List.forall_mem_cons.2 ⟨hoperation _, List.forall_mem_append.2 ⟨iha ha, ihb hb⟩⟩
  | call f a ih => exact List.forall_mem_cons.2 ⟨hoperation _, ih h⟩
  | aggregate k lower upper body index ihl ihu ihb =>
    obtain ⟨hl, hu, -, hb⟩ := checkScope_aggregate_iff.1 h
    have hbinder : (Token.binder index == (.binder index : Token Float)) = true :=
      beq_self_eq_true index
    refine List.forall_mem_cons.2 ⟨hoperation _, ?_⟩
    simp only [List.forall_mem_append, List.forall_mem_singleton]
    exact ⟨⟨⟨ihl hl, ihu hu⟩, ihb hb⟩, hbinder⟩

/-! ### Integrals inside others -/

section

variable {R : Type} [Scalar R] {meaning : Interpretation R} {settings : Settings R}

theorem Part.length_tokens_le {root e : Expr R} {scope : List Char} (h : root.Part scope e) :
    e.tokens.length ≤ root.tokens.length := by
  induction h with
  | root => exact le_rfl
  | lhs _ ih | rhs _ ih | arg _ ih | value _ ih | base _ ih | lower _ ih | upper _ ih | body _ ih =>
    simp only [tokens, List.length_cons, List.length_append] at ih
    omega

theorem Part.length_body_lt {root lower upper body : Expr R} {scope : List Char} {k : Aggregate}
    {index : Char} (h : root.Part scope (.aggregate k lower upper body index)) :
    body.tokens.length < root.tokens.length := by
  have hle := h.length_tokens_le
  simp only [tokens, List.length_cons, List.length_append] at hle
  omega

/-- Whatever is stored while the value of a tree is found has a shorter body than the tree. -/
theorem learns_walk_tokens (levels : Nat) (e : Expr R) (env : Env R) (rest : List (Token R)) :
    Learns (fun entry => entry.body.length < e.tokens.length)
      (do
        let (value, _) ← Eval.walk meaning settings levels env (e.tokens ++ rest)
        return value : Run R (Complex R)).run := by
  have hrun : (do
      let (value, _) ← Eval.walk meaning settings levels env (e.tokens ++ rest)
      return value : Run R (Complex R)) = (e.recorded meaning settings levels env).forget := by
    rw [computes_recorded levels e env rest, bind_assoc]
    simp only [pure_bind, bind_pure]
    rfl
  have haccountable : Recorded.Accountable (fun _ request => request.body.length < e.tokens.length)
      (e.recorded meaning settings levels env) :=
    accountable_recorded_of_part (P := fun _ _ => True) (fun _ _ _ => trivial)
      (fun hpart _ _ _ => hpart.length_body_lt) levels .root trivial
  rw [hrun]
  exact Recorded.learns_of_accountable haccountable

end

/-! ### Found again -/

section

variable {e lower upper body : Expr Float} {scope : List Char} {index : Char}

theorem Part.fits_own (hvalid : e.validate = .ok ())
    (hpart : e.Part scope (.aggregate .integral lower upper body index)) {env : Env Float}
    (hbindings : ∀ p ∈ Eval.bindings env index body.tokens, p.2.isMissing = false) (a b : Float)
    (value : Complex Float) :
    let request : Request Float := ⟨body.tokens, index, Eval.bindings env index body.tokens, a, b⟩
    (⟨request, value⟩ : Entry Float).fits request = true := by
  have hbody := beq_self_of_forall (beq_self_of_mem_tokens (hpart.body.checkScope hvalid))
  refine Integral.Entry.fits_iff.2 ⟨beq_self_eq_true index, beq_self_of_forall fun p hp => ?_, hbody⟩
  exact Bool.and_eq_true_iff.2
    ⟨beq_self_eq_true p.1, Complex.beq_self_of_isMissing (hbindings p hp)⟩

/-- Once an integral of the tree has been answered by a walk and the answer stored, it is answered with
the same value from then on. Whatever has been compiled and evaluated before, and how far the last of it
went, makes no difference. -/
theorem plan_eq_known_of_remember (hvalid : e.validate = .ok ())
    (hpart : e.Part scope (.aggregate .integral lower upper body index))
    (actions : List (Action Float)) {left memory : Memory Float} (hleft : left ∈ Action.memories actions)
    (hmemory : memory <+: left) (settings : Settings Float) (levels : Nat) (env : Env Float)
    (rest : List (Token Float)) {a b : Float} (ha : a.isFinite = true) (hb : b.isFinite = true)
    (hab : a < b) (hbindings : ∀ p ∈ Eval.bindings env index body.tokens, p.2.isMissing = false) :
    let request : Request Float := ⟨body.tokens, index, Eval.bindings env index body.tokens, a, b⟩
    let sample (t : Float) : Run Float (Complex Float) := do
      let (value, _) ←
        Eval.walk .standard settings levels ((index, .ofReal t) :: env) (body.tokens ++ rest)
      return value
    ∀ value after, (plan settings memory request).stores = true →
      (Eval.remember settings sample request).run.run memory = (.ok value, after) →
        ∀ later, after <+: later → ∀ settings' : Settings Float,
          plan settings' later request = .known value := by
  intro request sample value after hstores hrun later hlater settings'
  have hordered : request.Ordered := ⟨ha, hb, hab⟩
  -- What has been learnt up to now is the beginning of what is left in the end.
  have hproper : Integral.Proper memory := fun entry hentry =>
    (Action.wellFormed_scanl actions (fun _ h => absurd h List.not_mem_nil) left hleft entry
      (hmemory.subset hentry)).toOrdered.zero_lt_width
  have hfits : (⟨request, value⟩ : Entry Float).fits request = true :=
    hpart.fits_own hvalid hbindings a b value
  have hshort (t : Float) : Learns (fun entry => entry.body.length < request.body.length)
      (sample t).run := learns_walk_tokens levels body _ rest
  exact Integral.plan_of_remember hordered hproper hfits hshort hstores hrun hlater settings'

/-- The integral up to 30 extends the one up to 10. While it is sampled at 10, the inner integral up to
there is stored before it. -/
theorem plan_eq_known_of_remember_inner :
    let inner : Expr Float := .aggregate .integral (.ofInt (-1)) (.var 't') (.var 'x') 's'
    let e : Expr Float := .aggregate .integral (.ofInt 0) (.var 'x') inner 't'
    let settings : Settings Float := ⟨1, 1, 1, 9, false, none⟩
    let actions : List (Action Float) := [.evaluate settings e.tokens (.ofInt 10) (.ofInt 0)]
    let env : Env Float := startEnv (.ofInt 10) (.ofInt 0)
    let whole (lower upper value : Float) : Entry Float :=
      ⟨⟨inner.tokens, 't', [('x', .ofInt 10)], lower, upper⟩, .ofReal value⟩
    let part (lower upper value : Float) : Entry Float :=
      ⟨⟨[.var 'x'], 's', [('x', .ofInt 10)], lower, upper⟩, .ofReal value⟩
    let memory : Memory Float := [part (-1) 0 10, whole 0 10 100]
    let after : Memory Float := memory ++ [part (-1) 10 110, whole 0 30 2300]
    let request : Request Float := (whole 0 30 2300).toRequest
    let sample (t : Float) : Run Float (Complex Float) := do
      let (value, _) ← Eval.walk .standard settings 8 (('t', .ofReal t) :: env) (inner.tokens ++ [])
      return value
    e.validate = .ok () ∧ memory ∈ Action.memories actions ∧
      Eval.bindings env 't' inner.tokens = request.bindings ∧
      (∀ p ∈ request.bindings, p.2.isMissing = false) ∧
      (plan settings memory request).stores = true ∧
      (Eval.remember settings sample request).run.run memory = (.ok (.ofReal 2300), after) ∧
      plan settings after request = .known (.ofReal 2300) := by
  intro inner e settings actions env whole part memory after request sample
  have hvalid : e.validate = .ok () := by decide +kernel
  have hmemory : memory ∈ Action.memories actions := by decide +kernel
  have hbindings : Eval.bindings env 't' inner.tokens = request.bindings := by decide +kernel
  have hpresent : ∀ p ∈ request.bindings, p.2.isMissing = false := by decide +kernel
  have hstores : (plan settings memory request).stores = true := by decide +kernel
  let run := (Eval.remember settings sample request).run.run memory
  have hresult : run.1.toOption = some (.ofReal 2300) := by decide +kernel
  have hafter : run.2 = after := by decide +kernel
  have hrun : run = (.ok (.ofReal 2300), after) :=
    Prod.ext (Result.eq_ok_of_toOption hresult) hafter
  refine ⟨hvalid, hmemory, hbindings, hpresent, hstores, hrun, ?_⟩
  exact plan_eq_known_of_remember hvalid .root actions hmemory List.prefix_rfl settings 8 env []
    (by decide +kernel) (by decide +kernel) (by decide +kernel) (hbindings ▸ hpresent) _ _ hstores hrun
    after List.prefix_rfl settings

end

end Expr

end ComplexSeries
