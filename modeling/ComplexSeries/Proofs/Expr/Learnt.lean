import ComplexSeries.Compile
import ComplexSeries.Proofs.Eval.Grows
import ComplexSeries.Proofs.Expr.Fold

/-! What compiling learns. Folding is a chain of evaluations, so it has the properties that they have
and that pass to chains. A formula that does not compile is refused before anything is folded. -/
namespace ComplexSeries

open Integral (Memory Entry Learns compositional_learns)

variable {R : Type} [Scalar R] {settings : Settings R}

namespace Compositional

variable {P : (α : Type) → StateM (Memory R) α → Prop}

theorem ownValue? (h : Compositional P) (hevaluate : ∀ ts x n, P _ (evaluate settings ts x n).run)
    (e : Expr R) : P _ (e.ownValue? settings) := by
  unfold Expr.ownValue?
  split
  · exact h.pure none
  · refine h.bind (hevaluate _ _ _) fun result => ?_
    cases result with
    | ok z => exact h.pure _
    | error cause => exact h.pure none

theorem foldTree_of_children (h : Compositional P)
    (hevaluate : ∀ ts x n, P _ (evaluate settings ts x n).run) {e : Expr R}
    (hchildren : P _ (e.foldChildren settings)) : P _ (e.fold settings) := by
  rw [Expr.fold_eq]
  refine h.bind (h.ownValue? hevaluate e) fun found => ?_
  cases found with
  | none => exact hchildren
  | some z => exact h.pure _

theorem foldTree (h : Compositional P) (hevaluate : ∀ ts x n, P _ (evaluate settings ts x n).run)
    (e : Expr R) : P _ (e.fold settings) := by
  induction e with
  | const | constant | var => exact h.foldTree_of_children hevaluate (h.pure _)
  | binary o a b iha ihb | log a b iha ihb =>
    exact h.foldTree_of_children hevaluate (h.bind iha fun _ => h.bind ihb fun _ => h.pure _)
  | call f a ih => exact h.foldTree_of_children hevaluate (h.bind ih fun _ => h.pure _)
  | aggregate k lower upper body index ihl ihu ihb =>
    refine h.foldTree_of_children hevaluate ?_
    exact h.bind ihl fun _ => h.bind ihu fun _ => h.bind ihb fun _ => h.pure _

theorem compile (h : Compositional P) (hevaluate : ∀ ts x n, P _ (evaluate settings ts x n).run)
    (typed : String) : P _ (ComplexSeries.compile settings typed) := by
  unfold ComplexSeries.compile
  split
  · exact h.pure _
  · next e _ =>
    split
    · exact h.bind (h.foldTree hevaluate e) fun _ => h.pure _
    · exact h.bind (h.pure e) fun _ => h.pure _

end Compositional

theorem after_eq_of_compile_error {typed : String} {memory after : Memory R} {cause : ParseError}
    (h : (compile settings typed).run memory = (.error cause, after)) : after = memory := by
  unfold compile at h
  split at h
  · cases h
    rfl
  · split at h <;> cases h

section

variable [Scalar.LawfulOrder R]

theorem learns_evaluate (settings : Settings R) (ts : List (Token R)) (x n : Complex R) :
    Learns Entry.WellFormed (evaluate settings ts x n).run :=
  (Eval.walks_learn settings fun _ hwhole hforwards _ => ⟨hforwards.ordered, hwhole⟩).evaluateWith
    .standard ts x n

theorem learns_compile (settings : Settings R) (typed : String) :
    Learns Entry.WellFormed (compile settings typed) :=
  (compositional_learns _).compile (learns_evaluate settings) typed

end

end ComplexSeries
