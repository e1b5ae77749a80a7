import ComplexSeries.Eval

/-! Sums, products and integrals do not depend on the monad that their terms are computed in: a
computation carried into a larger monad term by term is the whole computation carried there. The
memory of integrals is carried along. -/
namespace ComplexSeries

variable {R : Type} [Scalar R]

section Monads

variable {m n : Type → Type} [Monad m] [Monad n] [MonadLiftT m n] [LawfulMonadLiftT m n]

namespace IndexRange

omit [Scalar R] in
theorem liftM_foldFrom (combine : Complex R → Complex R → Complex R) (term : Int → m (Complex R))
    (count : Nat) (k : Int) (total : Complex R) :
    (liftM (foldFrom combine term count k total) : n (Complex R)) =
      foldFrom combine (fun k => liftM (term k)) count k total := by
  induction count generalizing k total with
  | zero => exact liftM_pure total
  | succ count ih =>
    simp only [foldFrom, liftM_bind, ih]

theorem liftM_fold (combine : Complex R → Complex R → Complex R) (unit : Complex R)
    (term : Int → m (Complex R)) (range : IndexRange) :
    (liftM (range.fold combine unit term) : n (Complex R)) =
      range.fold combine unit fun k => liftM (term k) := by
  cases range with
  | invalid | empty => exact liftM_pure _
  | inclusive first last => exact liftM_foldFrom combine term _ first unit

theorem liftM_sum (lower upper : Complex R) (term : Int → m (Complex R)) :
    (liftM (sum lower upper term) : n (Complex R)) = sum lower upper fun k => liftM (term k) :=
  liftM_fold _ _ term _

theorem liftM_product (lower upper : Complex R) (term : Int → m (Complex R)) :
    (liftM (product lower upper term) : n (Complex R)) =
      product lower upper fun k => liftM (term k) :=
  liftM_fold _ _ term _

end IndexRange

namespace Integral

theorem liftM_addSamples (lower width : R) (sample : R → m (Complex R)) (count k : Nat)
    (total : Complex R) :
    (liftM (addSamples lower width sample count k total) : n (Complex R)) =
      addSamples lower width (fun t => liftM (sample t)) count k total := by
  induction count generalizing k total with
  | zero => exact liftM_pure total
  | succ count ih =>
    simp only [addSamples, liftM_bind, ih]

theorem liftM_leftSum (lower upper : R) (pieces : Nat) (sample : R → m (Complex R)) :
    (liftM (leftSum lower upper pieces sample) : n (Complex R)) =
      leftSum lower upper pieces fun t => liftM (sample t) :=
  liftM_addSamples _ _ sample _ _ _

theorem liftM_riemann (lower upper : R) (pieces : Nat) (sample : R → m (Complex R)) :
    (liftM (riemann lower upper pieces sample) : n (Complex R)) =
      riemann lower upper pieces fun t => liftM (sample t) := by
  unfold riemann
  split
  · exact liftM_pure _
  · split
    · simp only [liftM_bind, liftM_leftSum, liftM_pure]
    · exact liftM_leftSum lower upper pieces sample

end Integral

end Monads

namespace Eval

open Integral (Memory Request)

omit [Scalar R] in
theorem liftM_get : (liftM (get : StateM (Memory R) (Memory R)) : Run R (Memory R)) = get := rfl

omit [Scalar R] in
theorem liftM_modify (f : Memory R → Memory R) :
    (liftM (modify f : StateM (Memory R) PUnit) : Run R PUnit) = modify f := rfl

theorem liftM_remember (settings : Settings R) (sample : R → StateM (Memory R) (Complex R))
    (request : Request R) :
    (liftM (remember settings sample request) : Run R (Complex R)) =
      remember settings (fun t => liftM (sample t)) request := by
  unfold remember
  rw [liftM_bind, liftM_get]
  congr 1
  funext memory
  cases Integral.plan settings memory request with
  | known value => exact liftM_pure value
  | cold pieces => simp only [liftM_bind, Integral.liftM_riemann, liftM_modify, liftM_pure]
  | extend base lower upper store =>
    cases store <;>
      simp only [liftM_bind, Integral.liftM_riemann, liftM_modify, liftM_pure, if_true,
        Bool.false_eq_true, if_false]

theorem liftM_integral (settings : Settings R) (sample : R → StateM (Memory R) (Complex R))
    (lower upper : Complex R) (request : R → R → Request R) :
    (liftM (integral settings sample lower upper request) : Run R (Complex R)) =
      integral settings (fun t => liftM (sample t)) lower upper request := by
  unfold integral
  split
  · split
    · exact liftM_pure _
    · split
      · simp only [liftM_bind, liftM_remember, liftM_pure]
      · exact liftM_remember _ _ _
  · exact liftM_pure _

end Eval

end ComplexSeries
