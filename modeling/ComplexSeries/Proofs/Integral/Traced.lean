import ComplexSeries.Proofs.Integral.Answer

/-! Computations that tell which requests they answered from a stored integral, and from which. When an
answer is stored for later, what was asked while it was sampled is not told: it will not be asked again,
unless the answer cannot be found again. The computation itself is the one that tells nothing. -/
namespace ComplexSeries

open Integral (Memory Request Entry Plan closest? plan)

variable {R : Type}

/-- A request, and the stored integral that it was answered from. -/
structure Asked (R : Type) where
  request : Request R
  entry : Entry R
deriving DecidableEq

/-- The request would be answered from that integral again. -/
def Asked.Holds [Scalar R] (memory : Memory R) (a : Asked R) : Prop :=
  closest? memory a.request = some a.entry

instance [Scalar R] [DecidableEq R] (memory : Memory R) (a : Asked R) : Decidable (a.Holds memory) :=
  inferInstanceAs (Decidable (closest? memory a.request = some a.entry))

structure Trace (R α : Type) where
  value : α
  asked : List (Asked R)
  after : Memory R
deriving DecidableEq

def Traced (R α : Type) : Type := Memory R → Trace R α

namespace Traced

instance : Monad (Traced R) where
  pure a := fun memory => ⟨a, [], memory⟩
  bind t f := fun memory =>
    let first := t memory
    let second := f first.value first.after
    ⟨second.value, first.asked ++ second.asked, second.after⟩

def forget {α : Type} (t : Traced R α) : StateM (Memory R) α := fun memory =>
  ((t memory).value, (t memory).after)

instance : MonadLift (Traced R) (StateM (Memory R)) := ⟨forget⟩

instance : LawfulMonadLift (Traced R) (StateM (Memory R)) where
  monadLift_pure _ := rfl
  monadLift_bind _ _ := rfl

end Traced

variable [Scalar R] {settings : Settings R}

theorem Traced.forget_sum (lower upper : Complex R) (term : Int → Traced R (Complex R)) :
    (IndexRange.sum lower upper term).forget = IndexRange.sum lower upper fun k => (term k).forget :=
  have hlift : (liftM (IndexRange.sum lower upper term) : StateM (Memory R) (Complex R)) = _ :=
    IndexRange.liftM_sum lower upper term
  hlift

theorem Traced.forget_product (lower upper : Complex R) (term : Int → Traced R (Complex R)) :
    (IndexRange.product lower upper term).forget =
      IndexRange.product lower upper fun k => (term k).forget :=
  have hlift : (liftM (IndexRange.product lower upper term) : StateM (Memory R) (Complex R)) = _ :=
    IndexRange.liftM_product lower upper term
  hlift

/-! ### Answering one request -/

namespace Traced

def ask (settings : Settings R) (sample : R → Traced R (Complex R)) (request : Request R) :
    Traced R (Complex R) := fun memory =>
  let p := plan settings memory request
  let found := p.value sample request memory
  let entry : Entry R := ⟨request, found.value⟩
  if p.stores then
    ⟨found.value, if entry.fits request then [] else found.asked, found.after ++ [entry]⟩
  else
    ⟨found.value, found.asked ++ (closest? memory request).toList.map (⟨request, ·⟩), found.after⟩

theorem forget_ask (sample : R → Traced R (Complex R)) (request : Request R) :
    (ask settings sample request).forget =
      Eval.remember settings (fun t => (sample t).forget) request := by
  funext memory
  have hvalue : (plan settings memory request).value (fun t => (sample t).forget) request =
      ((plan settings memory request).value sample request).forget :=
    (Plan.liftM_value sample request _).symm
  refine Eq.trans ?_ (Eval.run_remember (fun t => (sample t).forget) request memory).symm
  simp only [hvalue]
  rw [forget, ask]
  cases (plan settings memory request).stores <;> rfl

/-- Undefined unless both bounds are real. -/
def integral (settings : Settings R) (sample : R → Traced R (Complex R)) (lower upper : Complex R)
    (request : R → R → Request R) : Traced R (Complex R) :=
  match lower.real?, upper.real? with
  | some a, some b =>
    if a == b then pure (Complex.ofInt 0)
    else if b < a then do
      let value ← ask settings sample (request b a)
      return -value
    else ask settings sample (request a b)
  | _, _ => pure Complex.undefined

theorem forget_integral (sample : R → Traced R (Complex R)) (lower upper : Complex R)
    (request : R → R → Request R) :
    (integral settings sample lower upper request).forget =
      Eval.integral settings (fun t => (sample t).forget) lower upper request := by
  have hlift : (liftM (integral settings sample lower upper request) :
      StateM (Memory R) (Complex R)) = _ :=
    Integral.liftM_directed (fun a b => ask settings sample (request a b)) lower upper
  rw [Eval.integral_eq]
  simp only [← forget_ask]
  exact hlift

end Traced

end ComplexSeries
