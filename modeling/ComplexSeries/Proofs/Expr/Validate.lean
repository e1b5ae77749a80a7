import ComplexSeries.Proofs.Expr.FoldText

/-! Three accounts of scope agree: that of the reader, which carries the indices with it, that of the
check, which walks the finished tree, and that of the free variables, which are computed from below. -/
namespace ComplexSeries.Expr

open Scalar (LawfulText)

variable {R : Type} [Scalar R] {e root : Expr R} {scope : List Char}

/-- The free variables are those of every formula, no index hides a name that is bound where it
stands, and the literals are finite. -/
structure Scoped (e : Expr R) : Prop where
  free : ∀ c ∈ e.freeVariables, c = 'x' ∨ c = 'n'
  fresh : ∀ {scope k lower upper body index}, e.Part scope (.aggregate k lower upper body index) →
    index ≠ 'x' ∧ index ≠ 'n' ∧ index ∉ scope
  finite : ∀ {scope z}, e.Part scope (.const z) → z.isFinite = true

omit [Scalar R] in
theorem isBound_nil_iff {c : Char} : isBound [] c = true ↔ c = 'x' ∨ c = 'n' := by
  simp [isBound, isVariable]

omit [Scalar R] in
theorem isBound_eq_false_iff {c : Char} :
    isBound scope c = false ↔ c ≠ 'x' ∧ c ≠ 'n' ∧ c ∉ scope := by
  simp [isBound, isVariable, and_assoc]

theorem scoped_of_validate (h : e.validate = .ok ()) : e.Scoped where
  free _ hc := isBound_nil_iff.1 (isBound_of_mem_occurrences h (mem_sortNames.1 hc))
  fresh hpart := isBound_eq_false_iff.1 (checkScope_aggregate_iff.1 (hpart.checkScope h)).2.2.1
  finite hpart := checkScope_const_iff.1 (hpart.checkScope h)

/-- A part of a tree in scope passes the check where it stands, if the names in it are bound there. -/
theorem Scoped.checkScope (h : root.Scoped) (hpart : root.Part scope e)
    (hbound : ∀ c ∈ e.occurrences, isBound scope c = true) : e.checkScope scope = .ok () := by
  induction e generalizing scope with
  | const => exact checkScope_const_iff.2 (h.finite hpart)
  | constant => rfl
  | var name => exact checkScope_var_iff.2 (hbound name List.mem_cons_self)
  | binary o a b iha ihb =>
    simp only [occurrences, List.forall_mem_append] at hbound
    exact checkScope_binary_iff.2 ⟨iha hpart.lhs hbound.1, ihb hpart.rhs hbound.2⟩
  | log a b iha ihb =>
    simp only [occurrences, List.forall_mem_append] at hbound
    exact checkScope_log_iff.2 ⟨iha hpart.value hbound.1, ihb hpart.base hbound.2⟩
  | call f a ih => exact ih hpart.arg hbound
  | aggregate k lower upper body index ihl ihu ihb =>
    simp only [occurrences, List.forall_mem_append, List.mem_filter, bne_iff_ne, and_imp] at hbound
    have hindex : isBound scope index = false := isBound_eq_false_iff.2 (h.fresh hpart)
    refine checkScope_aggregate_iff.2 ⟨ihl hpart.lower hbound.1.1, ihu hpart.upper hbound.1.2, hindex,
      ihb hpart.body fun c hc => ?_⟩
    rw [isBound_cons]
    exact or_iff_not_imp_left.2 (hbound.2 c hc)

theorem validate_of_scoped (h : e.Scoped) : e.validate = .ok () :=
  h.checkScope .root fun c hc => isBound_nil_iff.2 (h.free c (mem_sortNames.2 hc))

/-- What is read passes the check, and the check passes exactly the trees in scope. -/
theorem validate_of_read_and_iff_scoped [LawfulText R] :
    (∀ limit s (e : Expr R), read limit s = .ok e → e.validate = .ok ()) ∧
      ∀ e : Expr R, e.validate = .ok () ↔ e.Scoped :=
  ⟨fun _ _ _ h => (readable_of_read h).1, fun _ => ⟨scoped_of_validate, validate_of_scoped⟩⟩

/-- An index may be used again in a bound, but not in the body. -/
theorem validate_of_read_and_iff_scoped_nested :
    let inner : Expr Float := .aggregate .sum (.const (.ofReal 1)) (.var 'n') (.var 'i') 'i'
    read 8 "sum(1;n;i;i)" = .ok inner ∧ inner.validate = .ok () ∧
      (Expr.aggregate .sum inner (.var 'n') (.var 'i') 'i').Scoped ∧
      ¬(Expr.aggregate .sum (.var 'x') (.var 'n') inner 'i').Scoped := by
  intro inner
  have hscan : Lexeme.scan "sum(1;n;i;i)".toList = .ok [.keyword (.aggregate .sum), .lparen,
      .number ['1'], .separator, .letter 'n', .separator, .letter 'i', .separator, .letter 'i',
      .rparen] := by rfl
  have hread : read 8 "sum(1;n;i;i)" = .ok inner :=
    read_of_scan hscan (ofLexemes_of_sum (List.cons_ne_nil _ _) rfl (by decide))
  have hbound : (Expr.aggregate .sum inner (.var 'n') (.var 'i') 'i').validate = .ok () := rfl
  have hbody : (Expr.aggregate .sum (.var 'x') (.var 'n') inner 'i').validate =
      .error (.captureConflict 'i') := rfl
  obtain ⟨hvalid, hiff⟩ := validate_of_read_and_iff_scoped (R := Float)
  refine ⟨hread, hvalid _ _ _ hread, (hiff _).1 hbound, fun h => ?_⟩
  rw [(hiff _).2 h] at hbody
  cases hbody

end ComplexSeries.Expr
