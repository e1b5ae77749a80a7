import ComplexSeries.Lexeme.Arguments
import ComplexSeries.Proofs.Lexeme.Nesting

/-! Cutting an argument list, lexeme by lexeme: a separator outside of inner brackets begins a new
argument, the bracket that closes the list ends it, and everything else joins the argument that it
stands in. There is always an argument, if only an empty one. A stretch that joins one argument as a
whole is what an operand, or a bracketed list of operands, is to the arguments around it. -/
namespace ComplexSeries.Lexeme

/-- Brackets and separators are what an argument list is cut at. -/
def isPlain (l : Lexeme) : Bool := !l.isBracket && l != separator

theorem plain_cases (l : Lexeme) :
    l = lparen ∨ l = rparen ∨ l = separator ∨ l.isPlain := by
  cases l <;> simp [isPlain, isBracket, isOpen, isClose]

theorem isPlain_of_ne {l : Lexeme} (ho : l = lparen → False) (hc : l = rparen → False)
    (hs : l = separator → False) : l.isPlain := by
  rcases plain_cases l with rfl | rfl | rfl | hl
  · exact (ho rfl).elim
  · exact (hc rfl).elim
  · exact (hs rfl).elim
  · exact hl

theorem isBracket_of_isPlain {l : Lexeme} (h : l.isPlain) : l.isBracket = false := by
  simp only [isPlain, Bool.and_eq_true, Bool.not_eq_true'] at h
  exact h.1

variable {depth : Nat} {ls : List Lexeme}

@[simp] theorem argumentsFrom?_nil : argumentsFrom? depth [] = none := by
  cases depth <;> rfl

@[simp] theorem argumentsFrom?_lparen :
    argumentsFrom? depth (lparen :: ls) = (argumentsFrom? (depth + 1) ls).map (joinFirst lparen) := by
  cases depth <;> rfl

@[simp] theorem argumentsFrom?_close : argumentsFrom? 0 (rparen :: ls) = some [[]] := rfl

@[simp] theorem argumentsFrom?_succ_rparen :
    argumentsFrom? (depth + 1) (rparen :: ls) = (argumentsFrom? depth ls).map (joinFirst rparen) :=
  rfl

@[simp] theorem argumentsFrom?_separator :
    argumentsFrom? 0 (separator :: ls) = (argumentsFrom? 0 ls).map ([] :: ·) := rfl

@[simp] theorem argumentsFrom?_succ_separator :
    argumentsFrom? (depth + 1) (separator :: ls) =
      (argumentsFrom? (depth + 1) ls).map (joinFirst separator) := rfl

theorem argumentsFrom?_cons {l : Lexeme} (h : l.isPlain) :
    argumentsFrom? depth (l :: ls) = (argumentsFrom? depth ls).map (joinFirst l) := by
  cases l <;> first | (cases depth <;> rfl) | cases h

theorem joinFirst_ne_nil (l : Lexeme) (as : List (List Lexeme)) : joinFirst l as ≠ [] := by
  cases as <;> simp [joinFirst]

theorem argumentsFrom?_ne_nil {as : List (List Lexeme)} (h : argumentsFrom? depth ls = some as) :
    as ≠ [] := by
  cases ls with
  | nil => simp at h
  | cons l ls =>
    rcases plain_cases l with rfl | rfl | rfl | hl
    · rw [argumentsFrom?_lparen] at h
      obtain ⟨bs, -, rfl⟩ := Option.map_eq_some_iff.1 h
      exact joinFirst_ne_nil _ bs
    · cases depth with
      | zero => cases h; simp
      | succ depth =>
        obtain ⟨bs, -, rfl⟩ := Option.map_eq_some_iff.1 h
        exact joinFirst_ne_nil _ bs
    · cases depth with
      | zero =>
        obtain ⟨bs, -, rfl⟩ := Option.map_eq_some_iff.1 h
        simp
      | succ depth =>
        obtain ⟨bs, -, rfl⟩ := Option.map_eq_some_iff.1 h
        exact joinFirst_ne_nil _ bs
    · rw [argumentsFrom?_cons hl] at h
      obtain ⟨bs, -, rfl⟩ := Option.map_eq_some_iff.1 h
      exact joinFirst_ne_nil _ bs

/-! ### Balanced lists -/

/-- Brackets are cut at the one that closes the list, if all that is opened from it on is closed. -/
theorem argumentsFrom?_ne_none {outer after : Nat} (h : nesting (depth + 1 + outer) ls = some after)
    (hafter : after ≤ outer) : argumentsFrom? depth ls ≠ none := by
  induction ls generalizing depth with
  | nil =>
    rw [nesting_nil, Option.some.injEq] at h
    omega
  | cons l ls ih =>
    rcases plain_cases l with rfl | rfl | rfl | hl
    · rw [nesting_lparen, Nat.add_right_comm] at h
      rw [argumentsFrom?_lparen, Ne, Option.map_eq_none_iff]
      exact ih h
    · cases depth with
      | zero => simp
      | succ depth =>
        rw [Nat.add_right_comm, nesting_succ_rparen] at h
        rw [argumentsFrom?_succ_rparen, Ne, Option.map_eq_none_iff]
        exact ih h
    · rw [nesting_cons rfl] at h
      cases depth with
      | zero =>
        rw [argumentsFrom?_separator, Ne, Option.map_eq_none_iff]
        exact ih h
      | succ depth =>
        rw [argumentsFrom?_succ_separator, Ne, Option.map_eq_none_iff]
        exact ih h
    · rw [nesting_cons (isBracket_of_isPlain hl)] at h
      rw [argumentsFrom?_cons hl, Ne, Option.map_eq_none_iff]
      exact ih h

theorem IsBalanced.arguments?_ne_none {ks : List Lexeme} (h : IsBalanced ls)
    (hsuffix : lparen :: ks <:+ ls) : arguments? ks ≠ none := by
  obtain ⟨js, rfl⟩ := hsuffix
  rw [IsBalanced, Lexeme.nesting_append] at h
  obtain ⟨outer, -, h⟩ := Option.bind_eq_some_iff.1 h
  rw [nesting_lparen, Nat.add_comm, ← Nat.zero_add 1] at h
  exact argumentsFrom?_ne_none h (Nat.zero_le outer)

/-! ### Stretches within one argument -/

/-- With `depth` inner brackets open, all of the list joins the argument it begins in. -/
def Joins (depth : Nat) (ks : List Lexeme) : Prop :=
  ∀ ls, argumentsFrom? depth (ks ++ ls) = (argumentsFrom? depth ls).map (ks.foldr joinFirst)

theorem foldr_joinFirst (ks a : List Lexeme) (as : List (List Lexeme)) :
    ks.foldr joinFirst (a :: as) = (ks ++ a) :: as := by
  induction ks with
  | nil => rfl
  | cons k ks ih => rw [List.foldr_cons, ih]; rfl

theorem joins_nil : Joins depth [] := fun _ => Option.map_id_apply.symm

theorem Joins.cons {l : Lexeme} (h : Joins depth ls) (hl : l.isPlain) : Joins depth (l :: ls) := by
  intro rest
  rw [List.cons_append, argumentsFrom?_cons hl, h, Option.map_map]
  rfl

theorem Joins.append {ks : List Lexeme} (hks : Joins depth ks) (hls : Joins depth ls) :
    Joins depth (ks ++ ls) := by
  intro rest
  rw [List.append_assoc, hks, hls, Option.map_map]
  simp only [List.foldr_append, Function.comp_def]

/-- Inside of brackets a separator joins as well. -/
theorem Joins.separator (h : Joins (depth + 1) ls) : Joins (depth + 1) (separator :: ls) := by
  intro rest
  rw [List.cons_append, argumentsFrom?_succ_separator, h, Option.map_map]
  rfl

theorem Joins.parens (h : Joins (depth + 1) ls) : Joins depth (lparen :: ls ++ [rparen]) := by
  intro rest
  rw [List.append_assoc, List.cons_append, argumentsFrom?_lparen, h, List.singleton_append,
    argumentsFrom?_succ_rparen, Option.map_map, Option.map_map]
  simp only [List.cons_append, List.foldr_cons, List.foldr_append, List.foldr_nil, Function.comp_def]

/-- The last argument is what stands before the bracket that closes the list. -/
theorem Joins.arguments?_close {ks : List Lexeme} (h : Joins 0 ks) (ls : List Lexeme) :
    arguments? (ks ++ rparen :: ls) = some [ks] := by
  rw [arguments?, h, argumentsFrom?_close, Option.map_some, foldr_joinFirst, List.append_nil]

theorem Joins.arguments?_separator {ks : List Lexeme} (h : Joins 0 ks) (ls : List Lexeme) :
    arguments? (ks ++ .separator :: ls) = (arguments? ls).map (ks :: ·) := by
  rw [arguments?, h, argumentsFrom?_separator, Option.map_map, arguments?]
  congr 1
  funext as
  rw [Function.comp_apply, foldr_joinFirst, List.append_nil]

end ComplexSeries.Lexeme
