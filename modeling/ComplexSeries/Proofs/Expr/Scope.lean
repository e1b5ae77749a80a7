import Mathlib.Data.Bool.Basic
import ComplexSeries.Expr.Scope
import ComplexSeries.Proofs.Result

/-! When a tree is in scope, said constructor by constructor. The names that occur freely are bound
then, and a tree stays in scope where fewer names are bound, as long as those still are. The parts of
a tree are in scope where they stand. -/
namespace ComplexSeries.Expr

variable {R : Type} [Scalar R] {scope : List Char} {a b e : Expr R}

theorem isBound_cons (index c : Char) (scope : List Char) :
    isBound (index :: scope) c = true ↔ c = index ∨ isBound scope c = true := by
  simp only [isBound, List.contains_cons, Bool.or_eq_true, beq_iff_eq]
  exact or_left_comm

theorem checkScope_const_iff {z : Complex R} :
    (const z).checkScope scope = .ok () ↔ z.isFinite = true := by
  rw [checkScope]
  split <;> simp_all

theorem checkScope_var_iff {c : Char} :
    (var c : Expr R).checkScope scope = .ok () ↔ isBound scope c = true := by
  rw [checkScope]
  split <;> simp_all

theorem checkScope_binary_iff {o : Operator} :
    (binary o a b).checkScope scope = .ok () ↔
      a.checkScope scope = .ok () ∧ b.checkScope scope = .ok () :=
  Result.bind_unit_eq_ok_iff

theorem checkScope_log_iff :
    (log a b).checkScope scope = .ok () ↔
      a.checkScope scope = .ok () ∧ b.checkScope scope = .ok () :=
  Result.bind_unit_eq_ok_iff

theorem checkScope_aggregate_iff {k : Aggregate} {lower upper body : Expr R} {index : Char} :
    (aggregate k lower upper body index).checkScope scope = .ok () ↔
      lower.checkScope scope = .ok () ∧ upper.checkScope scope = .ok () ∧
        isBound scope index = false ∧ body.checkScope (index :: scope) = .ok () := by
  simp only [checkScope, Result.bind_unit_eq_ok_iff]
  cases isBound scope index <;> simp

theorem checkScope_of_subset {scope' : List Char} (h : e.checkScope scope = .ok ())
    (hsub : ∀ c, isBound scope' c = true → isBound scope c = true)
    (hocc : ∀ c ∈ e.occurrences, isBound scope' c = true) : e.checkScope scope' = .ok () := by
  induction e generalizing scope scope' with
  | const | constant => exact h
  | var name => exact checkScope_var_iff.2 (hocc name List.mem_cons_self)
  | binary o a b iha ihb =>
    rw [checkScope_binary_iff] at h ⊢
    simp only [occurrences, List.forall_mem_append] at hocc
    exact ⟨iha h.1 hsub hocc.1, ihb h.2 hsub hocc.2⟩
  | log a b iha ihb =>
    rw [checkScope_log_iff] at h ⊢
    simp only [occurrences, List.forall_mem_append] at hocc
    exact ⟨iha h.1 hsub hocc.1, ihb h.2 hsub hocc.2⟩
  | call f a ih => exact ih h hsub hocc
  | aggregate k lower upper body index ihl ihu ihb =>
    rw [checkScope_aggregate_iff] at h ⊢
    obtain ⟨hl, hu, hi, hb⟩ := h
    simp only [occurrences, List.forall_mem_append, List.mem_filter, bne_iff_ne, and_imp] at hocc
    refine ⟨ihl hl hsub hocc.1.1, ihu hu hsub hocc.1.2, ?_, ihb hb (fun c hc => ?_) fun c hc => ?_⟩
    · rw [Bool.eq_false_iff] at hi ⊢
      exact fun h => hi (hsub index h)
    · rw [isBound_cons] at hc ⊢
      exact hc.imp_right (hsub c)
    · rw [isBound_cons]
      exact or_iff_not_imp_left.2 fun hne => hocc.2 c hc hne

theorem isBound_of_mem_occurrences (h : e.checkScope scope = .ok ()) {c : Char}
    (hc : c ∈ e.occurrences) : isBound scope c = true := by
  induction e generalizing scope with
  | const | constant => cases hc
  | var name =>
    obtain rfl := List.mem_singleton.1 hc
    exact checkScope_var_iff.1 h
  | binary o a b iha ihb =>
    rw [checkScope_binary_iff] at h
    exact (List.mem_append.1 hc).elim (iha h.1) (ihb h.2)
  | log a b iha ihb =>
    rw [checkScope_log_iff] at h
    exact (List.mem_append.1 hc).elim (iha h.1) (ihb h.2)
  | call f a ih => exact ih h hc
  | aggregate k lower upper body index ihl ihu ihb =>
    obtain ⟨hl, hu, -, hb⟩ := checkScope_aggregate_iff.1 h
    rcases List.mem_append.1 hc with hc | hc
    · exact (List.mem_append.1 hc).elim (ihl hl) (ihu hu)
    · obtain ⟨hc, hne⟩ := List.mem_filter.1 hc
      exact ((isBound_cons index c scope).1 (ihb hb hc)).resolve_left (bne_iff_ne.1 hne)

/-! ### Parts -/

/-- A part of a tree, and the indices that are bound where it stands, innermost first. -/
inductive Part (root : Expr R) : List Char → Expr R → Prop where
  | root : Part root [] root
  | lhs {scope : List Char} {o : Operator} {a b : Expr R} :
      Part root scope (.binary o a b) → Part root scope a
  | rhs {scope : List Char} {o : Operator} {a b : Expr R} :
      Part root scope (.binary o a b) → Part root scope b
  | arg {scope : List Char} {f : Function} {a : Expr R} :
      Part root scope (.call f a) → Part root scope a
  | value {scope : List Char} {a b : Expr R} : Part root scope (.log a b) → Part root scope a
  | base {scope : List Char} {a b : Expr R} : Part root scope (.log a b) → Part root scope b
  | lower {scope : List Char} {k : Aggregate} {lower upper body : Expr R} {index : Char} :
      Part root scope (.aggregate k lower upper body index) → Part root scope lower
  | upper {scope : List Char} {k : Aggregate} {lower upper body : Expr R} {index : Char} :
      Part root scope (.aggregate k lower upper body index) → Part root scope upper
  | body {scope : List Char} {k : Aggregate} {lower upper body : Expr R} {index : Char} :
      Part root scope (.aggregate k lower upper body index) → Part root (index :: scope) body

theorem Part.checkScope {root : Expr R} (h : root.Part scope e)
    (hvalid : root.validate = .ok ()) : e.checkScope scope = .ok () := by
  induction h with
  | root => exact hvalid
  | lhs _ ih => exact (checkScope_binary_iff.1 ih).1
  | rhs _ ih => exact (checkScope_binary_iff.1 ih).2
  | arg _ ih => exact ih
  | value _ ih => exact (checkScope_log_iff.1 ih).1
  | base _ ih => exact (checkScope_log_iff.1 ih).2
  | lower _ ih => exact (checkScope_aggregate_iff.1 ih).1
  | upper _ ih => exact (checkScope_aggregate_iff.1 ih).2.1
  | body _ ih => exact (checkScope_aggregate_iff.1 ih).2.2.2

end ComplexSeries.Expr
