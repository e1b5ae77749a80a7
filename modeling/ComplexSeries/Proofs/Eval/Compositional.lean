import ComplexSeries.Proofs.Integral.Answer
import ComplexSeries.Proofs.Integral.Request

/-! Properties of computations that pass to chains of them. Sums, products, samples and whole walks
are chains, so they have such a property as soon as the parts they are chained from have it. -/
namespace ComplexSeries

open Eval (Env Interpretation Run Walker)
open Integral (Memory Request Plan)

variable {R : Type}

/-- A property that pure computations have, and chains whose parts have it. -/
structure Compositional {m : Type → Type} [Monad m] (P : (α : Type) → m α → Prop) : Prop where
  pure : ∀ {α : Type} (a : α), P α (pure a)
  bind : ∀ {α β : Type} {t : m α} {f : α → m β}, P α t → (∀ a, P β (f a)) → P β (t >>= f)

namespace Compositional

/-! ### Sums, products and samples -/

section

variable {m : Type → Type} [Monad m] {P : (α : Type) → m α → Prop}

theorem foldFrom (h : Compositional P) (combine : Complex R → Complex R → Complex R)
    {term : Int → m (Complex R)} (hterm : ∀ k, P _ (term k)) (count : Nat) (k : Int)
    (total : Complex R) : P _ (IndexRange.foldFrom combine term count k total) := by
  induction count generalizing k total with
  | zero => exact h.pure total
  | succ count ih => exact h.bind (hterm k) fun value => ih (k + 1) (combine total value)

variable [Scalar R]

theorem fold (h : Compositional P) (combine : Complex R → Complex R → Complex R) (unit : Complex R)
    {term : Int → m (Complex R)} (hterm : ∀ k, P _ (term k)) (range : IndexRange) :
    P _ (range.fold combine unit term) := by
  cases range with
  | invalid | empty => exact h.pure _
  | inclusive first last => exact h.foldFrom combine hterm _ first unit

theorem addSamples (h : Compositional P) {sample : R → m (Complex R)}
    (hsample : ∀ t, P _ (sample t)) (lower width : R) (count k : Nat) (total : Complex R) :
    P _ (Integral.addSamples lower width sample count k total) := by
  induction count generalizing k total with
  | zero => exact h.pure total
  | succ count ih => exact h.bind (hsample _) fun value => ih (k + 1) _

theorem riemann (h : Compositional P) {sample : R → m (Complex R)}
    (hsample : ∀ t, P _ (sample t)) (lower upper : R) (pieces : Nat) :
    P _ (Integral.riemann lower upper pieces sample) := by
  unfold Integral.riemann
  split
  · exact h.pure _
  · split
    · exact h.bind (h.addSamples hsample _ _ _ _ _) fun value => h.pure (-value)
    · exact h.addSamples hsample _ _ _ _ _

theorem planValue (h : Compositional P) {sample : R → m (Complex R)}
    (hsample : ∀ t, P _ (sample t)) (request : Request R) (p : Plan R) :
    P _ (p.value sample request) := by
  cases p with
  | known value => exact h.pure value
  | cold pieces => exact h.riemann hsample _ _ pieces
  | extend base lower upper store =>
    refine h.bind (h.riemann hsample lower.start lower.stop lower.pieces) fun head => ?_
    exact h.bind (h.riemann hsample upper.start upper.stop upper.pieces) fun tail => h.pure _

theorem directed (h : Compositional P) {value : R → R → m (Complex R)}
    (hvalue : ∀ a b, Integral.Forwards a b → P _ (value a b)) (lower upper : Complex R) :
    P _ (Integral.directed value lower upper) := by
  unfold Integral.directed
  split
  · next a b hlower hupper =>
    have ha := Complex.isFinite_of_real? hlower
    have hb := Complex.isFinite_of_real? hupper
    split
    · exact h.pure _
    · next hne =>
      split
      · next hlt => exact h.bind (hvalue b a ⟨hb, ha, .inl hlt⟩) fun value => h.pure (-value)
      · next hnlt => exact hvalue a b ⟨ha, hb, .inr ⟨Bool.eq_false_of_not_eq_true hne, hnlt⟩⟩
  · exact h.pure _

end

/-! ### Walks -/

section

variable [Scalar R] {P : (α : Type) → Run R α → Prop} {settings : Settings R}

/-- What walks are chained from, apart from pure computations: failures, and requests that are
answered from samples. The requests are for one operand, and between bounds in their order. -/
structure Walks (P : (α : Type) → Run R α → Prop) (settings : Settings R) : Prop
    extends Compositional P where
  fail : ∀ {α : Type} (cause : EvalError), P α (throw cause)
  remember : ∀ {sample : R → Run R (Complex R)} (request : Request R), request.Whole →
    Integral.Forwards request.lower request.upper → (∀ t, P _ (sample t)) →
      P _ (Eval.remember settings sample request)

theorem Walks.walkAggregate (h : Walks P settings) {walk : Walker R}
    (hwalk : ∀ env ts, P _ (walk env ts)) (a : Aggregate) (env : Env R) (ts : List (Token R)) :
    P _ (Eval.walkAggregate settings walk a env ts) := by
  unfold Eval.walkAggregate
  refine h.bind (hwalk env ts) fun first => h.bind (hwalk env first.2) fun last => ?_
  dsimp only
  split
  · exact h.fail _
  · exact h.fail _
  · next body index after hbody =>
    have hsample (z : Complex R) : P _ (do
        let taken ← walk ((index, z) :: env) last.2
        return taken.1) := h.bind (hwalk _ _) fun _ => h.pure _
    cases a with
    | sum => exact h.bind (h.fold _ _ (fun k => hsample (Complex.ofInt k)) _) fun _ => h.pure _
    | product => exact h.bind (h.fold _ _ (fun k => hsample (Complex.ofInt k)) _) fun _ => h.pure _
    | integral =>
      have hremember (a b : R) (hab : Integral.Forwards a b) :=
        h.remember ⟨body, index, Eval.bindings env index body, a, b⟩
          (Eval.whole_of_split? hbody env index a b) hab fun t => hsample (Complex.ofReal t)
      exact h.bind (h.directed hremember first.1 last.1) fun _ => h.pure _
  · exact h.fail _

theorem Walks.walk (h : Walks P settings) (meaning : Interpretation R) (levels : Nat) (env : Env R)
    (ts : List (Token R)) : P _ (Eval.walk meaning settings levels env ts) := by
  induction levels generalizing env ts with
  | zero => exact h.fail _
  | succ levels ih =>
    rw [Eval.walk]
    unfold Eval.step
    split
    · exact h.fail _
    · exact h.pure _
    · split
      · exact h.pure _
      · exact h.fail _
    · exact h.fail _
    · exact h.bind (ih _ _) fun _ => h.pure _
    · exact h.bind (ih _ _) fun _ => h.bind (ih _ _) fun _ => h.pure _
    · exact h.bind (ih _ _) fun _ => h.bind (ih _ _) fun _ => h.pure _
    · exact h.walkAggregate ih _ _ _

theorem Walks.evaluateWith (h : Walks P settings) (meaning : Interpretation R) (ts : List (Token R))
    (x n : Complex R) : P _ (ComplexSeries.evaluateWith meaning settings ts x n) := by
  have hwhole : ∀ p : Complex R × List (Token R), P _ (do
      if !p.2.isEmpty then Eval.fault (.trailing p.2.length)
      return p.1) := by
    intro p
    dsimp only
    split
    · exact h.bind (h.fail _) fun _ => h.pure _
    · exact h.pure _
  have hwalk := h.walk meaning settings.maxDepth (Eval.startEnv x n) ts
  unfold ComplexSeries.evaluateWith
  split
  · exact h.bind (h.fail _) fun _ => h.bind hwalk hwhole
  · exact h.bind hwalk hwhole

end

end Compositional

end ComplexSeries
