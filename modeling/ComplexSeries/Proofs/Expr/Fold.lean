import ComplexSeries.Expr.Fold
import ComplexSeries.Proofs.Eval.Walk

/-! Folding, said as a relation between a tree and what may become of it. A folded tree is in scope
where the tree was and no higher, and without integrals it has the same value everywhere. -/
namespace ComplexSeries.Expr

open Eval (Env startEnv)
open Integral (Memory)

variable {R : Type} [Scalar R] {settings : Settings R}

/-- Some closed subtrees have become their values, each found with some memory. -/
inductive Folded (settings : Settings R) : Expr R → Expr R → Prop
  | own {e : Expr R} {z : Complex R} {before after : Memory R} : e.isClosed →
      (evaluate settings e.tokens (Complex.ofInt 1) (Complex.ofInt 1)).run.run before =
        (.ok z, after) →
      z.isFinite → Folded settings e (.const z)
  | leaf (e : Expr R) : Folded settings e e
  | binary (o : Operator) {a a' b b' : Expr R} : Folded settings a a' → Folded settings b b' →
      Folded settings (.binary o a b) (.binary o a' b')
  | call (f : Function) {a a' : Expr R} : Folded settings a a' →
      Folded settings (.call f a) (.call f a')
  | log {a a' b b' : Expr R} : Folded settings a a' → Folded settings b b' →
      Folded settings (.log a b) (.log a' b')
  | aggregate (k : Aggregate) {lower lower' upper upper' body body' : Expr R} (index : Char) :
      Folded settings lower lower' → Folded settings upper upper' → Folded settings body body' →
      Folded settings (.aggregate k lower upper body index) (.aggregate k lower' upper' body' index)

theorem ownValue?_eq_some {e : Expr R} {memory after : Memory R} {z : Complex R}
    (h : (ownValue? settings e).run memory = (some z, after)) :
    e.isClosed ∧ z.isFinite ∧
      (evaluate settings e.tokens (Complex.ofInt 1) (Complex.ofInt 1)).run.run memory =
        (.ok z, after) := by
  unfold ownValue? at h
  split at h
  · cases h
  · next hc =>
    rcases hv : (evaluate settings e.tokens (Complex.ofInt 1) (Complex.ofInt 1)).run.run memory with
      ⟨result, memory'⟩
    rw [StateT.run_bind, hv] at h
    cases result with
    | error cause => cases h
    | ok w =>
      have h : (if w.isFinite = true then some w else none, memory') = (some z, after) := h
      by_cases hw : w.isFinite
      · rw [if_pos hw] at h
        cases h
        rw [Bool.or_eq_true, not_or, Bool.not_eq_true', Bool.not_eq_false] at hc
        exact ⟨hc.2, hw, rfl⟩
      · rw [if_neg hw] at h
        cases h

/-- The search below a tree that has no value of its own. -/
def foldChildren (settings : Settings R) : Expr R → StateM (Memory R) (Expr R)
  | binary o a b => return binary o (← a.fold settings) (← b.fold settings)
  | log a b => return log (← a.fold settings) (← b.fold settings)
  | call f a => return call f (← a.fold settings)
  | aggregate k lower upper body index =>
    return aggregate k (← lower.fold settings) (← upper.fold settings) (← body.fold settings) index
  | leaf => return leaf

theorem fold_eq (e : Expr R) :
    e.fold settings = (do
      match ← ownValue? settings e with
      | some z => return .const z
      | none => foldChildren settings e) := by
  rw [fold.eq_def]
  cases e <;> rfl

theorem run_fold_of_some {e : Expr R} {z : Complex R} {memory after : Memory R}
    (h : (ownValue? settings e).run memory = (some z, after)) :
    (e.fold settings).run memory = pure (.const z, after) := by
  rw [fold_eq, StateT.run_bind, h]
  rfl

theorem run_fold_of_none {e : Expr R} {memory after : Memory R}
    (h : (ownValue? settings e).run memory = (none, after)) :
    (e.fold settings).run memory = (foldChildren settings e).run after := by
  rw [fold_eq, StateT.run_bind, h]
  rfl

theorem folded_fold_of_children {e : Expr R}
    (h : ∀ memory, Folded settings e ((foldChildren settings e).run memory).1)
    (memory : Memory R) : Folded settings e ((e.fold settings).run memory).1 := by
  rcases hown : (ownValue? settings e).run memory with ⟨found, after⟩
  cases found with
  | none =>
    rw [run_fold_of_none hown]
    exact h after
  | some z =>
    obtain ⟨hclosed, hfinite, hvalue⟩ := ownValue?_eq_some hown
    rw [run_fold_of_some hown]
    exact .own hclosed hvalue hfinite

theorem folded_fold (e : Expr R) (memory : Memory R) :
    Folded settings e ((e.fold settings).run memory).1 := by
  induction e generalizing memory with
  | const | constant | var => exact folded_fold_of_children (fun _ => .leaf _) memory
  | binary o a b iha ihb => exact folded_fold_of_children (fun _ => .binary o (iha _) (ihb _)) memory
  | log a b iha ihb => exact folded_fold_of_children (fun _ => .log (iha _) (ihb _)) memory
  | call f a ih => exact folded_fold_of_children (fun _ => .call f (ih _)) memory
  | aggregate k lower upper body index ihl ihu ihb =>
    exact folded_fold_of_children (fun _ => .aggregate k index (ihl _) (ihu _) (ihb _)) memory

theorem validate_of_isClosed {e : Expr R} {scope : List Char} (hclosed : e.isClosed)
    (h : e.checkScope scope = .ok ()) : e.validate = .ok () :=
  checkScope_of_subset h (fun c hc => by simp_all [isBound]) (by simp [occurrences_eq_nil hclosed])

namespace Folded

variable {e e' : Expr R}

theorem checkScope {scope : List Char} (h : Folded settings e e')
    (he : e.checkScope scope = .ok ()) : e'.checkScope scope = .ok () := by
  induction h generalizing scope with
  | own _ _ hz => exact checkScope_const_iff.2 hz
  | leaf => exact he
  | binary o _ _ iha ihb =>
    rw [checkScope_binary_iff] at he ⊢
    exact ⟨iha he.1, ihb he.2⟩
  | log _ _ iha ihb =>
    rw [checkScope_log_iff] at he ⊢
    exact ⟨iha he.1, ihb he.2⟩
  | call f _ ih => exact ih he
  | aggregate k index _ _ _ ihl ihu ihb =>
    rw [checkScope_aggregate_iff] at he ⊢
    exact ⟨ihl he.1, ihu he.2.1, he.2.2.1, ihb he.2.2.2⟩

theorem height_le (h : Folded settings e e') : e'.height ≤ e.height := by
  induction h with
  | @own e => exact e.height_pos
  | leaf => exact le_rfl
  | binary | log | call | aggregate =>
    simp only [height]
    omega

/-- A value found with one memory is the value with any other, if there are no integrals. -/
theorem value_of_evaluate {scope : List Char} {z : Complex R} {before after : Memory R}
    (hclosed : e.isClosed) (he : e.checkScope scope = .ok ()) (hheight : e.height ≤ settings.maxDepth)
    (hint : e.hasIntegral = false)
    (hz : (evaluate settings e.tokens (Complex.ofInt 1) (Complex.ofInt 1)).run.run before =
      (.ok z, after)) (env : Env R) : e.value .standard settings env = pure z := by
  have hvalid : e.validate = .ok () := validate_of_isClosed hclosed he
  obtain ⟨w, hw⟩ : ∃ w, e.value .standard settings
      (startEnv (Complex.ofInt 1) (Complex.ofInt 1)) = pure w := exists_value_eq_pure hint _
  rw [evaluate, Eval.evaluateWith_eq hvalid (e.depth_eq_height ▸ hheight), hw] at hz
  cases hz
  rw [← hw]
  exact value_of_isClosed hclosed env _

theorem value_eq (h : Folded settings e e') {scope : List Char} (he : e.checkScope scope = .ok ())
    (hheight : e.height ≤ settings.maxDepth) (hint : e.hasIntegral = false) (env : Env R) :
    e'.value .standard settings env = e.value .standard settings env := by
  induction h generalizing scope env with
  | own hclosed hz _ => exact (value_of_evaluate hclosed he hheight hint hz env).symm
  | leaf => rfl
  | binary o _ _ iha ihb =>
    rw [checkScope_binary_iff] at he
    simp only [height] at hheight
    simp only [hasIntegral, Bool.or_eq_false_iff] at hint
    rw [value, value, iha he.1 (by omega) hint.1, ihb he.2 (by omega) hint.2]
  | log _ _ iha ihb =>
    rw [checkScope_log_iff] at he
    simp only [height] at hheight
    simp only [hasIntegral, Bool.or_eq_false_iff] at hint
    rw [value, value, iha he.1 (by omega) hint.1, ihb he.2 (by omega) hint.2]
  | call f _ ih =>
    simp only [height] at hheight
    rw [value, value, ih he (by omega) hint]
  | aggregate k index _ _ _ ihl ihu ihb =>
    obtain ⟨hl, hu, -, hb⟩ := checkScope_aggregate_iff.1 he
    simp only [height] at hheight
    simp only [hasIntegral, Bool.or_eq_false_iff] at hint
    obtain ⟨⟨⟨hk, hil⟩, hiu⟩, hib⟩ := hint
    have hbody := fun z => ihb hb (by omega) hib ((index, z) :: env)
    rw [value, value, ihl hl (by omega) hil, ihu hu (by omega) hiu]
    cases k with
    | sum | product => simp only [hbody]
    | integral => simp at hk

end Folded

/-- A tree without integrals has the same value folded and unfolded, with any memories. -/
theorem evaluate_tokens_fold (settings : Settings R) {e : Expr R} (hvalid : e.validate = .ok ())
    (hdepth : e.depth ≤ settings.maxDepth) (hint : e.hasIntegral = false)
    (learning memory memory' : Memory R) (x n : Complex R) :
    ∃ z, (evaluate settings ((e.fold settings).run learning).1.tokens x n).run.run memory =
        (.ok z, memory) ∧
      (evaluate settings e.tokens x n).run.run memory' = (.ok z, memory') := by
  have hfolded : Folded settings e ((e.fold settings).run learning).1 := folded_fold e learning
  have hheight : e.height ≤ settings.maxDepth := e.depth_eq_height ▸ hdepth
  obtain ⟨z, hz⟩ : ∃ z, e.value .standard settings (startEnv x n) = pure z :=
    exists_value_eq_pure hint _
  have hz' := (hfolded.value_eq hvalid hheight hint (startEnv x n)).trans hz
  have hdepth' : ((e.fold settings).run learning).1.depth ≤ settings.maxDepth := by
    rw [depth_eq_height]
    exact hfolded.height_le.trans hheight
  refine ⟨z, ?_, ?_⟩
  · rw [evaluate, Eval.evaluateWith_eq (hfolded.checkScope hvalid) hdepth', hz']
    rfl
  · rw [evaluate, Eval.evaluateWith_eq hvalid hdepth, hz]
    rfl

theorem evaluate_tokens_fold_sum :
    let e : Expr Float :=
      .aggregate .sum (.var 'n') (.var 'x') (.binary .mul (.var 'k') (.call .sin (.constant .pi))) 'k'
    e.validate = .ok () ∧ e.depth ≤ (Settings.standard Float).maxDepth ∧ e.hasIntegral = false ∧
      ∃ z, (evaluate (Settings.standard Float)
          ((e.fold (Settings.standard Float)).run []).1.tokens (Complex.ofInt 3)
            (Complex.ofInt 1)).run.run [] = (.ok z, []) ∧
        (evaluate (Settings.standard Float) e.tokens (Complex.ofInt 3)
          (Complex.ofInt 1)).run.run [] = (.ok z, []) := by
  intro e
  have hvalid : e.validate = .ok () := rfl
  have hdepth : e.depth ≤ (Settings.standard Float).maxDepth := by
    rw [depth_eq_height]
    decide
  have hint : e.hasIntegral = false := rfl
  exact ⟨hvalid, hdepth, hint, evaluate_tokens_fold _ hvalid hdepth hint [] [] [] _ _⟩

end ComplexSeries.Expr
