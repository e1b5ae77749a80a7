import ComplexSeries.Proofs.Double.Laws
import ComplexSeries.Proofs.Compile
import ComplexSeries.Proofs.Expr.Learnt
import ComplexSeries.Proofs.Expr.Reader

/-! The memory of integrals over time. Whatever is compiled or evaluated with it, successfully or not,
entries are only appended to it, and each of them is well formed. -/
namespace ComplexSeries

open Integral (Memory Entry)
open Lexeme
open Scalar (LawfulOrder)

/-- What may be done with a memory: to compile a formula, or to evaluate tokens at a point. -/
inductive Action (R : Type) where
  | compile (settings : Settings R) (typed : String)
  | evaluate (settings : Settings R) (ts : List (Token R)) (x n : Complex R)

namespace Action

variable {R : Type} [Scalar R]

/-- The memory that an action leaves, also if it fails. -/
def after (memory : Memory R) : Action R → Memory R
  | compile settings typed => ((ComplexSeries.compile settings typed).run memory).2
  | evaluate settings ts x n => ((ComplexSeries.evaluate settings ts x n).run.run memory).2

/-- The empty memory, and the memories that the actions leave, one after the other. -/
def memories (actions : List (Action R)) : List (Memory R) := actions.scanl after []

variable [LawfulOrder R]

theorem exists_after_eq (action : Action R) (memory : Memory R) :
    ∃ learnt, action.after memory = memory ++ learnt ∧ ∀ entry ∈ learnt, entry.WellFormed := by
  cases action with
  | compile settings typed => exact learns_compile settings typed memory
  | evaluate settings ts x n => exact learns_evaluate settings ts x n memory

theorem isChain_scanl (actions : List (Action R)) (memory : Memory R) :
    (actions.scanl after memory).IsChain (· <+: ·) := by
  induction actions generalizing memory with
  | nil => exact .singleton memory
  | cons action actions ih =>
    obtain ⟨learnt, hlearnt, -⟩ := action.exists_after_eq memory
    rw [List.scanl_cons, List.isChain_cons]
    refine ⟨fun next hnext => ?_, ih _⟩
    obtain rfl : action.after memory = next := by simpa using hnext
    exact ⟨learnt, hlearnt.symm⟩

theorem wellFormed_scanl (actions : List (Action R)) {memory : Memory R}
    (h : ∀ entry ∈ memory, entry.WellFormed) :
    ∀ later ∈ actions.scanl after memory, ∀ entry ∈ later, entry.WellFormed := by
  induction actions generalizing memory with
  | nil => exact List.forall_mem_singleton.2 h
  | cons action actions ih =>
    obtain ⟨learnt, hlearnt, hgood⟩ := action.exists_after_eq memory
    rw [List.scanl_cons]
    refine List.forall_mem_cons.2 ⟨h, ih ?_⟩
    rw [hlearnt]
    exact List.forall_mem_append.2 ⟨h, hgood⟩

/-- From the empty memory on, each memory is the beginning of the next, all entries are well formed,
and a formula that does not compile leaves the memory as it was. -/
theorem memories_grow (actions : List (Action R)) :
    (memories actions).IsChain (· <+: ·) ∧
      (∀ memory ∈ memories actions, ∀ entry ∈ memory, entry.WellFormed) ∧
      ∀ (settings : Settings R) (typed : String) (memory after : Memory R) (cause : ParseError),
        (ComplexSeries.compile settings typed).run memory = (.error cause, after) →
          after = memory :=
  ⟨isChain_scanl actions [], wellFormed_scanl actions fun _ h => absurd h List.not_mem_nil,
    fun _ _ _ _ _ => after_eq_of_compile_error⟩

/-- Folding learns the integral with its bounds in order. The evaluation fails at `y`, after it has
learnt the integral before it. -/
theorem memories_grow_failing :
    let settings : Settings Float := ⟨1, 1, 1, 6, true, none⟩
    let ts : List (Token Float) := [.operation (.binary .add), .operation (.aggregate .integral),
      .literal (.ofInt 0), .literal (.ofInt 9), .var 'x', .binder 't', .var 'y']
    let actions : List (Action Float) := [.compile settings "int(1;0;1;t)*x", .compile settings "(",
      .evaluate settings ts (.ofInt 2) (.ofInt 0)]
    let folded : Entry Float := ⟨⟨[.literal (.ofReal 1)], 't', [], 0, 1⟩, .ofReal 1⟩
    let evaluated : Entry Float := ⟨⟨[.var 'x'], 't', [('x', .ofInt 2)], 0, 9⟩, .ofReal 18⟩
    memories actions = [[], [folded], [folded], [folded, evaluated]] ∧
      (memories actions).IsChain (· <+: ·) ∧ folded.WellFormed ∧ evaluated.WellFormed ∧
      ((ComplexSeries.evaluate settings ts (.ofInt 2) (.ofInt 0)).run.run [folded]).1.toOption =
        none ∧
      ∃ cause, (ComplexSeries.compile settings "(").run [folded] = (.error cause, [folded]) := by
  intro settings ts actions folded evaluated
  have hscan : scan "int(1;0;1;t)*x".toList = .ok [keyword (.aggregate .integral), lparen,
      number ['1'], separator, number ['0'], separator, number ['1'], separator, letter 't', rparen,
      operator .mul, letter 'x'] := by rfl
  let integral : Expr Float :=
    .aggregate .integral (.const (.ofReal 1)) (.const (.ofReal 0)) (.const (.ofReal 1)) 't'
  let e : Expr Float := .binary .mul integral (.var 'x')
  have hread : Expr.read settings.maxDepth "int(1;0;1;t)*x" = .ok e :=
    Expr.read_of_scan hscan (Expr.ofLexemes_of_sum (List.cons_ne_nil _ _) rfl (by decide))
  have htree : treeOf settings.maxDepth "int(1;0;1;t)*x" = .ok e :=
    treeOf_of_read (by decide +kernel) hread rfl
  have hfold : ((e.fold settings).run []).2 = [folded] := by decide +kernel
  have hfirst : after [] (.compile settings "int(1;0;1;t)*x") = [folded] := by
    rw [after, ComplexSeries.compile, htree]
    exact hfold
  have herror : ((ComplexSeries.compile settings "(").run [folded]).1 =
      .error .unbalancedBrackets := by rfl
  have hafter : after [folded] (.compile settings "(") = [folded] :=
    (memories_grow actions).2.2 _ _ _ _ _ (Prod.ext herror rfl)
  have hlast : after [folded] (.evaluate settings ts (.ofInt 2) (.ofInt 0)) = [folded, evaluated] := by
    decide +kernel
  have hmemories : memories actions = [[], [folded], [folded], [folded, evaluated]] := by
    simp only [memories, actions, List.scanl_cons, List.scanl_nil, hfirst, hafter, hlast]
  have hgrow := memories_grow actions
  rw [hmemories] at hgrow ⊢
  obtain ⟨hchain, hgood, -⟩ := hgrow
  have hlearnt := hgood [folded, evaluated] (by simp)
  refine ⟨rfl, hchain, hlearnt folded (by simp), hlearnt evaluated (by simp),
    by decide +kernel, .unbalancedBrackets, Prod.ext herror hafter⟩

end Action

end ComplexSeries
