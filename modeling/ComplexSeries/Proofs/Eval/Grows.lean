import ComplexSeries.Proofs.Eval.Compositional

/-! Evaluation only adds to the memory of integrals, also when it fails. What it adds are the requests
that it meets, so whatever holds of all of those holds of the new entries. -/
namespace ComplexSeries

open Integral (Memory Request Entry)

variable {R : Type}

/-- A run has a property as soon as it has it as a computation that returns its failures. -/
theorem Compositional.run {P : (α : Type) → StateM (Memory R) α → Prop} (h : Compositional P) :
    Compositional fun α (t : Eval.Run R α) => P (Except EvalError α) t.run where
  pure a := h.pure (Except.ok a)
  bind {_ _ t f} ht hf := by
    rw [ExceptT.run_bind]
    refine h.bind ht fun result => ?_
    cases result with
    | ok a => exact hf a
    | error cause => exact h.pure (Except.error cause)

namespace Integral

/-- What is in the memory stays there, in its place, and what is added is good. -/
def Learns (good : Entry R → Prop) {α : Type} (t : StateM (Memory R) α) : Prop :=
  ∀ memory, ∃ learnt, (t.run memory).2 = memory ++ learnt ∧ ∀ entry ∈ learnt, good entry

theorem compositional_learns (good : Entry R → Prop) :
    Compositional fun α (t : StateM (Memory R) α) => Learns good t where
  pure _ memory := ⟨[], (List.append_nil memory).symm, fun _ h => absurd h List.not_mem_nil⟩
  bind {_ _ t f} ht hf memory := by
    obtain ⟨first, hfirst, hgood⟩ := ht memory
    obtain ⟨second, hsecond, hgood'⟩ := hf (t.run memory).1 (t.run memory).2
    refine ⟨first ++ second, ?_, List.forall_mem_append.2 ⟨hgood, hgood'⟩⟩
    rw [← List.append_assoc, ← hfirst, ← hsecond]
    rfl

end Integral

namespace Eval

open Integral (Learns compositional_learns)

variable [Scalar R] {settings : Settings R} {good : Entry R → Prop}

theorem learns_remember {sample : R → Run R (Complex R)} {request : Request R}
    (hgood : ∀ value, good ⟨request, value⟩) (h : ∀ t, Learns good (sample t).run) :
    Learns good (remember settings sample request).run := by
  have hL := (compositional_learns good).run
  have hget : Learns good (get : Run R (Memory R)).run := fun memory =>
    ⟨[], (List.append_nil memory).symm, fun _ h => absurd h List.not_mem_nil⟩
  have hkeep (value : Complex R) :
      Learns good (modify (· ++ [⟨request, value⟩]) : Run R PUnit).run := fun memory =>
    ⟨[⟨request, value⟩], rfl, List.forall_mem_singleton.2 (hgood value)⟩
  rw [remember_eq]
  refine hL.bind hget fun memory => hL.bind (hL.planValue h _ _) fun value => ?_
  dsimp only
  split
  · exact hL.bind (hkeep value) fun _ => hL.pure value
  · exact hL.pure value

theorem walks_learn (settings : Settings R)
    (hgood : ∀ request : Request R, request.Whole →
      Integral.Forwards request.lower request.upper → ∀ value, good ⟨request, value⟩) :
    Compositional.Walks (fun α (t : Run R α) => Learns good t.run) settings where
  toCompositional := (compositional_learns good).run
  fail cause := (compositional_learns good).pure (Except.error cause)
  remember request hwhole hforwards h := learns_remember (hgood request hwhole hforwards) h

/-- What is in the memory stays there, in its place. -/
def Run.Grows {α : Type} (t : Run R α) : Prop := ∀ memory : Memory R, memory <+: (t.run.run memory).2

theorem grows_evaluate (settings : Settings R) (ts : List (Token R)) (x n : Complex R) :
    (evaluate settings ts x n).Grows := by
  intro memory
  have hwalks : Compositional.Walks (fun α (t : Run R α) => Learns (fun _ => True) t.run) settings :=
    walks_learn settings fun _ _ _ _ => trivial
  obtain ⟨learnt, hlearnt, -⟩ := hwalks.evaluateWith .standard ts x n memory
  exact ⟨learnt, hlearnt.symm⟩

end Eval

end ComplexSeries
