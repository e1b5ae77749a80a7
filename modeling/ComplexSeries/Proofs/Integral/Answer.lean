import ComplexSeries.Proofs.Eval.Lift
import ComplexSeries.Proofs.Integral.Nearest

/-! How one integral is answered: a request is planned, its value is found as the plan says, and the
value is stored if the plan says so. -/
namespace ComplexSeries

open Integral (Memory Request Entry Plan plan riemann)

variable {R : Type} [Scalar R] {settings : Settings R}

namespace Integral

section

variable {m : Type → Type} [Monad m]

/-- The value that a plan leads to, before it is stored. -/
def Plan.value (sample : R → m (Complex R)) (request : Request R) : Plan R → m (Complex R)
  | .known value => pure value
  | .cold pieces => riemann request.lower request.upper pieces sample
  | .extend base lower upper _ => do
    let head ← riemann lower.start lower.stop lower.pieces sample
    let tail ← riemann upper.start upper.stop upper.pieces sample
    return base + head + tail

/-- An integral whose value is known once its lower bound comes first. Undefined unless both bounds
are real. -/
def directed (value : R → R → m (Complex R)) (lower upper : Complex R) : m (Complex R) :=
  match lower.real?, upper.real? with
  | some a, some b =>
    if a == b then pure (Complex.ofInt 0)
    else if b < a then do
      let value ← value b a
      return -value
    else value a b
  | _, _ => pure Complex.undefined

end

section

variable {m n : Type → Type} [Monad m] [Monad n] [MonadLiftT m n] [LawfulMonadLiftT m n]

theorem Plan.liftM_value (sample : R → m (Complex R)) (request : Request R) (p : Plan R) :
    (liftM (p.value sample request) : n (Complex R)) =
      p.value (fun t => liftM (sample t)) request := by
  cases p with
  | known value => exact liftM_pure value
  | cold pieces => exact liftM_riemann _ _ _ _
  | extend base lower upper store =>
    simp only [value, liftM_bind, liftM_riemann, liftM_pure]

theorem liftM_directed (value : R → R → m (Complex R)) (lower upper : Complex R) :
    (liftM (directed value lower upper) : n (Complex R)) =
      directed (fun a b => liftM (value a b)) lower upper := by
  unfold directed
  split
  · split
    · exact liftM_pure _
    · split
      · simp only [liftM_bind, liftM_pure]
      · rfl
  · exact liftM_pure _

end

end Integral

namespace Eval

section

variable {m : Type → Type} [Monad m] [MonadStateOf (Memory R) m]

theorem remember_eq [LawfulMonad m] (sample : R → m (Complex R)) (request : Request R) :
    remember settings sample request = do
      let memory ← get
      let p := plan settings memory request
      let value ← p.value sample request
      if p.stores then modify (· ++ [⟨request, value⟩])
      return value := by
  refine bind_congr fun memory => ?_
  cases plan settings memory request with
  | known value | cold pieces => simp [Plan.value, Plan.stores]
  | extend base lower upper store => cases store <;> simp [Plan.value, Plan.stores]

theorem integral_eq (sample : R → m (Complex R)) (lower upper : Complex R)
    (request : R → R → Request R) :
    integral settings sample lower upper request =
      Integral.directed (fun a b => remember settings sample (request a b)) lower upper := rfl

end

theorem run_remember (sample : R → StateM (Memory R) (Complex R)) (request : Request R)
    (memory : Memory R) :
    (remember settings sample request).run memory =
      let p := plan settings memory request
      let (value, after) := (p.value sample request).run memory
      (value, if p.stores then after ++ [⟨request, value⟩] else after) := by
  rw [remember_eq]
  simp only [StateT.run_bind]
  cases hstores : (plan settings memory request).stores <;>
    · simp [hstores]
      rfl

end Eval

end ComplexSeries
