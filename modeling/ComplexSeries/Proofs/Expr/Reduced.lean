import ComplexSeries.Proofs.Expr.Fold

/-! What folding leaves. Where there are no integrals, a closed part of a folded tree is a literal or
has no finite value; so nothing is left to fold, and folding again finds the same tree. -/
namespace ComplexSeries.Expr

open Eval (Env startEnv)
open Integral (Memory)

variable {R : Type} [Scalar R] {settings : Settings R} {e e' : Expr R} {scope : List Char}

namespace Folded

/-- A closed tree has no names and neither has its value. -/
theorem occurrences_eq (h : Folded settings e e') : e'.occurrences = e.occurrences := by
  induction h with
  | own hclosed => exact (occurrences_eq_nil hclosed).symm
  | leaf => rfl
  | binary _ _ _ iha ihb | log _ _ iha ihb => rw [occurrences, occurrences, iha, ihb]
  | call _ _ ih => exact ih
  | aggregate _ _ _ _ _ ihl ihu ihb => rw [occurrences, occurrences, ihl, ihu, ihb]

theorem freeVariables_eq (h : Folded settings e e') : e'.freeVariables = e.freeVariables :=
  congrArg sortNames h.occurrences_eq

theorem length_tokens_le (h : Folded settings e e') : e'.tokens.length ≤ e.tokens.length := by
  induction h with
  | @own e => cases e <;> simp [tokens]
  | leaf => exact le_rfl
  | binary | log | call | aggregate =>
    simp only [tokens, List.length_cons, List.length_append]
    omega

end Folded

/-! ### Parts -/

/-- Every part has the property. -/
def Everywhere (p : Expr R → Prop) : Expr R → Prop
  | const z => p (const z)
  | constant c => p (constant c)
  | var name => p (var name)
  | binary o a b => p (binary o a b) ∧ a.Everywhere p ∧ b.Everywhere p
  | call f a => p (call f a) ∧ a.Everywhere p
  | log a b => p (log a b) ∧ a.Everywhere p ∧ b.Everywhere p
  | aggregate k lower upper body index =>
    p (aggregate k lower upper body index) ∧
      lower.Everywhere p ∧ upper.Everywhere p ∧ body.Everywhere p

omit [Scalar R] in
theorem Everywhere.self {p : Expr R → Prop} (h : e.Everywhere p) : p e := by
  cases e with
  | const | constant | var => exact h
  | binary | call | log | aggregate => exact h.1

omit [Scalar R] in
theorem Part.everywhere {root : Expr R} {p : Expr R → Prop} (h : root.Part scope e)
    (hroot : root.Everywhere p) : e.Everywhere p := by
  induction h with
  | root => exact hroot
  | lhs _ ih | value _ ih => exact ih.2.1
  | rhs _ ih | base _ ih => exact ih.2.2
  | arg _ ih => exact ih.2
  | lower _ ih => exact ih.2.1
  | upper _ ih => exact ih.2.2.1
  | body _ ih => exact ih.2.2.2

omit [Scalar R] in
theorem Part.height_le {root : Expr R} (h : root.Part scope e) : e.height ≤ root.height := by
  induction h with
  | root => exact le_rfl
  | lhs _ ih | rhs _ ih | arg _ ih | value _ ih | base _ ih | lower _ ih | upper _ ih | body _ ih =>
    simp only [height] at ih
    omega

/-! ### Nothing left to fold -/

/-- Closed only if it is a literal or has no finite value. -/
def Settled (settings : Settings R) (e : Expr R) : Prop :=
  e.isClosed → e.isConst ∨
    ∀ env, ∃ z, e.value .standard settings env = pure z ∧ z.isFinite = false

theorem evaluate_tokens_of_pure {z : Complex R} {x n : Complex R} (hvalid : e.validate = .ok ())
    (hheight : e.height ≤ settings.maxDepth)
    (hz : e.value .standard settings (startEnv x n) = pure z) (memory : Memory R) :
    (evaluate settings e.tokens x n).run.run memory = (.ok z, memory) := by
  rw [evaluate, Eval.evaluateWith_eq hvalid (e.depth_eq_height ▸ hheight), hz]
  rfl

theorem run_ownValue? {z : Complex R} {memory after : Memory R} (hconst : e.isConst = false)
    (hclosed : e.isClosed)
    (hz : (evaluate settings e.tokens (Complex.ofInt 1) (Complex.ofInt 1)).run.run memory =
      (.ok z, after)) :
    (ownValue? settings e).run memory = (if z.isFinite then some z else none, after) := by
  rw [ownValue?, if_neg (by simp [hconst, hclosed]), StateT.run_bind, hz]
  rfl

theorem folded_foldChildren (e : Expr R) (memory : Memory R) :
    Folded settings e ((foldChildren settings e).run memory).1 := by
  cases e with
  | const | constant | var => exact .leaf _
  | binary o a b => exact .binary o (folded_fold a _) (folded_fold b _)
  | log a b => exact .log (folded_fold a _) (folded_fold b _)
  | call f a => exact .call f (folded_fold a _)
  | aggregate k lower upper body index =>
    exact .aggregate k index (folded_fold lower _) (folded_fold upper _) (folded_fold body _)

/-- What the search passes by is settled, once its operands are folded. -/
theorem settled_foldChildren {memory after : Memory R} (hscope : e.checkScope scope = .ok ())
    (hheight : e.height ≤ settings.maxDepth) (hint : e.hasIntegral = false)
    (hown : (ownValue? settings e).run memory = (none, after)) :
    Settled settings ((foldChildren settings e).run after).1 := by
  have hfolded : Folded settings e ((foldChildren settings e).run after).1 := folded_foldChildren e after
  by_cases hconst : e.isConst = true
  · cases e with
    | const => exact fun _ => .inl rfl
    | _ => cases hconst
  rw [Bool.not_eq_true] at hconst
  intro hclosed'
  have hclosed : e.isClosed := by rwa [isClosed, ← hfolded.freeVariables_eq]
  obtain ⟨z, hz⟩ : ∃ z, e.value .standard settings (startEnv (Complex.ofInt 1) (Complex.ofInt 1)) =
      pure z := exists_value_eq_pure hint _
  have hvalue := evaluate_tokens_of_pure (validate_of_isClosed hclosed hscope) hheight hz memory
  -- A finite value would have been found, and the tree would be a literal now.
  have hinfinite : z.isFinite = false := by
    rw [run_ownValue? hconst hclosed hvalue] at hown
    by_contra hfinite
    rw [Bool.not_eq_false] at hfinite
    rw [if_pos hfinite] at hown
    cases hown
  refine .inr fun env => ⟨z, ?_, hinfinite⟩
  rw [hfolded.value_eq hscope hheight hint env, value_of_isClosed hclosed env _, hz]

theorem everywhere_fold_of_children (hscope : e.checkScope scope = .ok ())
    (hheight : e.height ≤ settings.maxDepth) (hint : e.hasIntegral = false)
    (h : ∀ memory, Settled settings ((foldChildren settings e).run memory).1 →
      ((foldChildren settings e).run memory).1.Everywhere (Settled settings)) (memory : Memory R) :
    ((e.fold settings).run memory).1.Everywhere (Settled settings) := by
  rcases hown : (ownValue? settings e).run memory with ⟨found, after⟩
  cases found with
  | none =>
    rw [run_fold_of_none hown]
    exact h after (settled_foldChildren hscope hheight hint hown)
  | some z =>
    rw [run_fold_of_some hown]
    exact fun _ => .inl rfl

theorem everywhere_fold (hscope : e.checkScope scope = .ok ()) (hheight : e.height ≤ settings.maxDepth)
    (hint : e.hasIntegral = false) (memory : Memory R) :
    ((e.fold settings).run memory).1.Everywhere (Settled settings) := by
  induction e generalizing scope memory with
  | const | constant | var =>
    exact everywhere_fold_of_children hscope hheight hint (fun _ hself => hself) memory
  | binary o a b iha ihb | log a b iha ihb =>
    refine everywhere_fold_of_children hscope hheight hint (fun _ hself => ?_) memory
    obtain ⟨ha, hb⟩ := Result.bind_unit_eq_ok_iff.1 hscope
    simp only [height] at hheight
    simp only [hasIntegral, Bool.or_eq_false_iff] at hint
    exact ⟨hself, iha ha (by omega) hint.1 _, ihb hb (by omega) hint.2 _⟩
  | call f a ih =>
    refine everywhere_fold_of_children hscope hheight hint (fun _ hself => ?_) memory
    simp only [height] at hheight
    exact ⟨hself, ih hscope (by omega) hint _⟩
  | aggregate k lower upper body index ihl ihu ihb =>
    refine everywhere_fold_of_children hscope hheight hint (fun _ hself => ?_) memory
    obtain ⟨hl, hu, -, hb⟩ := checkScope_aggregate_iff.1 hscope
    simp only [height] at hheight
    simp only [hasIntegral, Bool.or_eq_false_iff] at hint
    obtain ⟨⟨⟨-, hil⟩, hiu⟩, hib⟩ := hint
    exact ⟨hself, ihl hl (by omega) hil _, ihu hu (by omega) hiu _, ihb hb (by omega) hib _⟩

theorem run_ownValue?_of_settled (h : Settled settings e) (hscope : e.checkScope scope = .ok ())
    (hheight : e.height ≤ settings.maxDepth) (memory : Memory R) :
    (ownValue? settings e).run memory = (none, memory) := by
  by_cases hskip : (e.isConst || !e.isClosed) = true
  · rw [ownValue?, if_pos hskip]
    rfl
  · obtain ⟨hconst, hclosed⟩ : e.isConst = false ∧ e.isClosed := by simpa using hskip
    obtain ⟨z, hz, hinfinite⟩ := ((h hclosed).resolve_left (by simp [hconst])) _
    rw [run_ownValue? hconst hclosed
      (evaluate_tokens_of_pure (validate_of_isClosed hclosed hscope) hheight hz memory), hinfinite]
    rfl

/-- Folding a tree whose parts are settled finds the tree itself and learns nothing. -/
theorem run_fold_of_everywhere (h : e.Everywhere (Settled settings))
    (hscope : e.checkScope scope = .ok ()) (hheight : e.height ≤ settings.maxDepth)
    (memory : Memory R) : (e.fold settings).run memory = (e, memory) := by
  induction e generalizing scope memory with
  | const | constant | var =>
    exact run_fold_of_none (run_ownValue?_of_settled h hscope hheight memory)
  | binary o a b iha ihb | log a b iha ihb =>
    rw [run_fold_of_none (run_ownValue?_of_settled h.self hscope hheight memory)]
    obtain ⟨-, ha, hb⟩ := h
    obtain ⟨hsa, hsb⟩ := Result.bind_unit_eq_ok_iff.1 hscope
    simp only [height] at hheight
    simp only [foldChildren, StateT.run_bind, iha ha hsa (by omega), ihb hb hsb (by omega)]
    rfl
  | call f a ih =>
    rw [run_fold_of_none (run_ownValue?_of_settled h.self hscope hheight memory)]
    simp only [height] at hheight
    simp only [foldChildren, StateT.run_bind, ih h.2 hscope (by omega)]
    rfl
  | aggregate k lower upper body index ihl ihu ihb =>
    rw [run_fold_of_none (run_ownValue?_of_settled h.self hscope hheight memory)]
    obtain ⟨-, hl, hu, hb⟩ := h
    obtain ⟨hsl, hsu, -, hsb⟩ := checkScope_aggregate_iff.1 hscope
    simp only [height] at hheight
    simp only [foldChildren, StateT.run_bind, ihl hl hsl (by omega), ihu hu hsu (by omega),
      ihb hb hsb (by omega)]
    rfl

/-! ### The folded tree -/

/-- Folding keeps the free variables and the scope, and neither the depth nor the list of tokens grows.
Where there are no integrals, a closed part of the folded tree is a literal or has no finite value, and
folding again, with whatever memory, changes nothing. -/
theorem fold_normal (settings : Settings R) (hvalid : e.validate = .ok ()) (memory : Memory R) :
    let folded := ((e.fold settings).run memory).1
    (folded.freeVariables = e.freeVariables ∧ folded.validate = .ok () ∧ folded.depth ≤ e.depth ∧
      folded.tokens.length ≤ e.tokens.length) ∧
    (e.hasIntegral = false → e.depth ≤ settings.maxDepth →
      (∀ memory', (folded.fold settings).run memory' = (folded, memory')) ∧
      ∀ scope part, folded.Part scope part → part.isClosed → part.isConst ∨
        ∀ memory' x n, ∃ z, (evaluate settings part.tokens x n).run.run memory' = (.ok z, memory') ∧
          z.isFinite = false) := by
  intro folded
  have hfolded : Folded settings e folded := folded_fold e memory
  have hscope : folded.validate = .ok () := hfolded.checkScope hvalid
  refine ⟨⟨hfolded.freeVariables_eq, hscope, ?_, hfolded.length_tokens_le⟩, fun hint hdepth => ?_⟩
  · rw [depth_eq_height, depth_eq_height]
    exact hfolded.height_le
  rw [depth_eq_height] at hdepth
  have hsettled : folded.Everywhere (Settled settings) := everywhere_fold hvalid hdepth hint memory
  have hheight : folded.height ≤ settings.maxDepth := hfolded.height_le.trans hdepth
  refine ⟨run_fold_of_everywhere hsettled hscope hheight, fun scope part hpart hclosed => ?_⟩
  refine ((hpart.everywhere hsettled).self hclosed).imp_right fun hvalue memory' x n => ?_
  obtain ⟨z, hz, hinfinite⟩ := hvalue (startEnv x n)
  exact ⟨z, evaluate_tokens_of_pure (validate_of_isClosed hclosed (hpart.checkScope hscope))
    (hpart.height_le.trans hheight) hz memory', hinfinite⟩

/-- The quotient has no finite value, so it stays in the body; its divisor is folded. -/
theorem fold_normal_quotient :
    let quotient : Expr Float :=
      .binary .div (.const (.ofReal 1)) (.binary .sub (.const (.ofReal 2)) (.const (.ofReal 2)))
    let e : Expr Float := .aggregate .sum (.var 'n') (.var 'x') (.binary .mul (.var 'k') quotient) 'k'
    let settings := Settings.standard Float
    let folded := ((e.fold settings).run []).1
    e.validate = .ok () ∧ e.hasIntegral = false ∧ e.depth ≤ settings.maxDepth ∧
      folded.freeVariables = ['n', 'x'] ∧ (folded.fold settings).run [] = (folded, []) := by
  intro quotient e settings folded
  have hvalid : e.validate = .ok () := rfl
  have hint : e.hasIntegral = false := rfl
  have hdepth : e.depth ≤ settings.maxDepth := by
    rw [depth_eq_height]
    decide
  obtain ⟨⟨hfree, -⟩, hnormal⟩ := fold_normal settings hvalid []
  exact ⟨hvalid, hint, hdepth, hfree, (hnormal hint hdepth).1 []⟩

end ComplexSeries.Expr
