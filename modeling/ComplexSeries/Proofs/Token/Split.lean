import ComplexSeries.Token.OfExpr

/-! Counting operands. What has been counted off counts as much by itself, and operands that follow each
other count as many as they are. The tokens of a tree are one operand: counting stops exactly behind
them. -/
namespace ComplexSeries.Token

variable {R : Type}

theorem split?_succ_cons (count : Nat) (t : Token R) (ts : List (Token R)) :
    split? (count + 1) (t :: ts) =
      (split? (count + t.arity) ts).map fun (span, rest) => (t :: span, rest) := rfl

section

variable {count more : Nat} {ts span rest next after : List (Token R)}

/-- What is split off is as many operands when it stands alone. -/
theorem split?_span (h : split? count ts = some (span, rest)) :
    split? count span = some (span, []) := by
  fun_induction split? count ts generalizing span with
  | case1 ts =>
    cases h
    rfl
  | case2 count => cases h
  | case3 count t ts ih =>
    obtain ⟨⟨inner, behind⟩, hinner, h⟩ := Option.map_eq_some_iff.1 h
    cases h
    rw [split?_succ_cons, ih hinner]
    rfl

theorem append_of_split? (h : split? count ts = some (span, rest)) : span ++ rest = ts := by
  fun_induction split? count ts generalizing span with
  | case1 ts =>
    cases h
    rfl
  | case2 count => cases h
  | case3 count t ts ih =>
    obtain ⟨⟨inner, behind⟩, hinner, h⟩ := Option.map_eq_some_iff.1 h
    cases h
    exact congrArg (t :: ·) (ih hinner)

/-- Operands that follow each other are counted off together. -/
theorem split?_add (h : split? count ts = some (span, rest))
    (hmore : split? more rest = some (next, after)) :
    split? (count + more) ts = some (span ++ next, after) := by
  fun_induction split? count ts generalizing span with
  | case1 ts =>
    cases h
    rwa [Nat.zero_add]
  | case2 count => cases h
  | case3 count t ts ih =>
    obtain ⟨⟨inner, behind⟩, hinner, h⟩ := Option.map_eq_some_iff.1 h
    cases h
    rw [Nat.succ_add, split?_succ_cons, Nat.add_right_comm, ih hinner]
    rfl

theorem length_pos_of_split? (h : split? (count + 1) ts = some (span, rest)) : 0 < span.length := by
  cases ts with
  | nil => cases h
  | cons t ts =>
    obtain ⟨⟨inner, behind⟩, -, h⟩ := Option.map_eq_some_iff.1 h
    cases h
    exact Nat.succ_pos _

end

theorem spanEnd?_span {ts span rest : List (Token R)} (h : split? 1 ts = some (span, rest)) :
    spanEnd? span 0 = some span.length := by
  rw [spanEnd?, List.drop_zero, split?_span h]
  exact congrArg some (Nat.zero_add _)

variable [Scalar R]

/-- The tokens of a tree use up one of the operands that are awaited. -/
theorem split?_tokens_append (e : Expr R) (count : Nat) (ts : List (Token R)) :
    split? (count + 1) (e.tokens ++ ts) =
      (split? count ts).map fun (span, rest) => (e.tokens ++ span, rest) := by
  induction e generalizing count ts with
  | const z | constant c | var name => rfl
  | binary o a b iha ihb | log a b iha ihb =>
    simp only [Expr.tokens, List.cons_append, List.append_assoc, split?_succ_cons, arity,
      Operation.arity, iha, ihb, Option.map_map, Function.comp_def]
  | call f a ih =>
    simp only [Expr.tokens, List.cons_append, split?_succ_cons, arity, Operation.arity, ih,
      Option.map_map, Function.comp_def]
  | aggregate k lower upper body index ihl ihu ihb =>
    have hbinder : split? (count + 1) (.binder index :: ts) =
        (split? count ts).map fun (span, rest) => (.binder index :: span, rest) := rfl
    simp only [Expr.tokens, List.cons_append, List.append_assoc, List.nil_append, split?_succ_cons,
      arity, Operation.arity, ihl, ihu, ihb, hbinder, Option.map_map, Function.comp_def]

theorem split?_one_tokens (e : Expr R) (ts : List (Token R)) :
    split? 1 (e.tokens ++ ts) = some (e.tokens, ts) := by
  have h := split?_tokens_append e 0 ts
  rw [h]
  simp [split?]

theorem spanEnd?_append_tokens (e : Expr R) (before after : List (Token R)) :
    spanEnd? (before ++ e.tokens ++ after) before.length =
      some (before.length + e.tokens.length) := by
  rw [spanEnd?, List.append_assoc, List.drop_left, split?_one_tokens]
  rfl

end ComplexSeries.Token
