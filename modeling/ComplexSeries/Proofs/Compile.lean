import ComplexSeries.Compile
import ComplexSeries.Proofs.Expr.Fold
import ComplexSeries.Proofs.Expr.Levels

/-! What a formula is compiled to: the tokens of a tree that is in scope and within the limit, folded
or not. Such tokens can be evaluated at every point and with every memory. -/
namespace ComplexSeries

open Integral (Memory)

variable {R : Type} [Scalar R] {settings : Settings R}

/-- A tree that the checks before folding let pass. -/
structure Expr.Compilable (settings : Settings R) (e : Expr R) : Prop where
  validate : e.validate = .ok ()
  depth_le : e.depth ≤ settings.maxDepth

theorem treeOf_of_read {limit : Nat} {typed spelled : String} {e : Expr R}
    (hspelled : canonical typed = .ok spelled) (hread : Expr.read limit spelled = .ok e)
    (hvalid : e.validate = .ok ()) : treeOf limit typed = .ok e := by
  simp only [treeOf, hspelled, hread, hvalid, pure, Except.pure, bind, Except.bind]

theorem compilable_of_treeOf {typed : String} {e : Expr R}
    (h : treeOf settings.maxDepth typed = .ok e) : e.Compilable settings := by
  obtain ⟨spelled, -, h⟩ := Result.bind_eq_ok_iff.1 h
  obtain ⟨e', hread, h⟩ := Result.bind_eq_ok_iff.1 h
  obtain ⟨hvalid, h⟩ := Result.bind_unit_eq_ok_iff.1 h
  cases h
  exact ⟨hvalid, Expr.depth_le_of_read hread⟩

theorem Expr.Folded.compilable {e e' : Expr R} (h : Folded settings e e')
    (he : e.Compilable settings) : e'.Compilable settings where
  validate := h.checkScope he.validate
  depth_le := by
    rw [depth_eq_height]
    exact h.height_le.trans (e.depth_eq_height ▸ he.depth_le)

/-- What compiles is the tokens of a tree that was folded if the settings ask for it. -/
theorem exists_tree_of_compile {typed : String} {memory after : Memory R} {ts : List (Token R)}
    (h : (compile settings typed).run memory = (.ok ts, after)) :
    ∃ e, treeOf settings.maxDepth typed = .ok e ∧
      ∃ e', Expr.Folded settings e e' ∧ e'.tokens = ts := by
  unfold compile at h
  split at h
  · cases h
  · next e he =>
    refine ⟨e, he, ?_⟩
    split at h
    · have hfolded : Expr.Folded settings e ((e.fold settings).run memory).1 :=
        Expr.folded_fold e memory
      cases h
      exact ⟨_, hfolded, rfl⟩
    · cases h
      exact ⟨e, .leaf e, rfl⟩

/-- Tokens that have a value at every point and with every memory. -/
def Evaluable (settings : Settings R) (ts : List (Token R)) : Prop :=
  ∀ (memory : Memory R) (x n : Complex R),
    ∃ z after, (evaluate settings ts x n).run.run memory = (.ok z, after)

theorem Expr.Compilable.evaluable {e : Expr R} (h : e.Compilable settings) :
    Evaluable settings e.tokens := by
  intro memory x n
  rw [evaluate, Eval.evaluateWith_eq h.validate h.depth_le]
  exact ⟨_, _, rfl⟩

theorem evaluable_of_compile {typed : String} {memory after : Memory R} {ts : List (Token R)}
    (h : (compile settings typed).run memory = (.ok ts, after)) : Evaluable settings ts := by
  obtain ⟨e, he, e', hfolded, rfl⟩ := exists_tree_of_compile h
  exact (hfolded.compilable (compilable_of_treeOf he)).evaluable

end ComplexSeries
