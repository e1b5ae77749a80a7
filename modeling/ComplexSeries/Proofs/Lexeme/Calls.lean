import ComplexSeries.Proofs.Lexeme.Arguments

/-! The calls of a list and how many separators each has. Which places a list is cut at does not
depend on the stretch that stands in one of its arguments, so the calls around a stretch remain what
they are when it is replaced by another that joins one argument as well. What lies behind the
bracket that closes a call is not read. -/
namespace ComplexSeries.Lexeme

/-- The number of separators outside of inner brackets, where the list is cut into its arguments. -/
def separators? (afterOpen : List Lexeme) : Option ℕ :=
  (arguments? afterOpen).map (·.length - 1)

/-- A name before a bracket, and the number of separators of its argument list. -/
def call? : Lexeme → List Lexeme → Option (Keyword × Option ℕ)
  | keyword k, lparen :: ls => some (k, separators? ls)
  | _, _ => none

/-- The calls from left to right, inner ones included. -/
def calls : List Lexeme → List (Keyword × Option ℕ)
  | [] => []
  | l :: ls => (call? l ls).toList ++ calls ls

variable {depth : ℕ} {ks ls : List Lexeme}

theorem call?_of_not_keyword {l : Lexeme} (h : ∀ k, l ≠ keyword k) (ls : List Lexeme) :
    call? l ls = none := by
  unfold call?
  split
  · exact absurd rfl (h _)
  · rfl

theorem call?_of_head?_ne (l : Lexeme) (h : ls.head? ≠ some lparen) : call? l ls = none := by
  unfold call?
  split
  · exact absurd rfl h
  · rfl

theorem calls_cons_of_not_keyword {l : Lexeme} (h : ∀ k, l ≠ keyword k) (ls : List Lexeme) :
    calls (l :: ls) = calls ls := by
  rw [calls, call?_of_not_keyword h]
  rfl

/-! ### Lists that are cut alike -/

/-- At every depth, the two are cut into as many arguments. -/
def CutAlike (ks ls : List Lexeme) : Prop :=
  ∀ depth, (argumentsFrom? depth ks).map List.length = (argumentsFrom? depth ls).map List.length

theorem length_joinFirst {l : Lexeme} {as : List (List Lexeme)} (h : as ≠ []) :
    (joinFirst l as).length = as.length := by
  cases as with
  | nil => exact absurd rfl h
  | cons a as => rfl

theorem length_foldr_joinFirst (ks : List Lexeme) {as : List (List Lexeme)} (h : as ≠ []) :
    (ks.foldr joinFirst as).length = as.length := by
  obtain ⟨a, as, rfl⟩ := List.exists_cons_of_ne_nil h
  rw [foldr_joinFirst]
  rfl

theorem map_length_joinFirst (depth : ℕ) (l : Lexeme) (ls : List Lexeme) :
    ((argumentsFrom? depth ls).map (joinFirst l)).map List.length =
      (argumentsFrom? depth ls).map List.length := by
  cases h : argumentsFrom? depth ls with
  | none => rfl
  | some as => exact congrArg some (length_joinFirst (argumentsFrom?_ne_nil h))

/-- A stretch that joins one argument makes no cut. -/
theorem Joins.map_length (h : Joins depth ks) (ls : List Lexeme) :
    (argumentsFrom? depth (ks ++ ls)).map List.length =
      (argumentsFrom? depth ls).map List.length := by
  rw [h]
  cases hls : argumentsFrom? depth ls with
  | none => rfl
  | some as => exact congrArg some (length_foldr_joinFirst ks (argumentsFrom?_ne_nil hls))

namespace CutAlike

theorem of_joins {js : List Lexeme} (hj : ∀ depth, Joins depth js) (hk : ∀ depth, Joins depth ks)
    (ls : List Lexeme) : CutAlike (js ++ ls) (ks ++ ls) := fun depth => by
  rw [(hj depth).map_length, (hk depth).map_length]

theorem cons (h : CutAlike ks ls) (l : Lexeme) : CutAlike (l :: ks) (l :: ls) := fun depth => by
  rcases plain_cases l with rfl | rfl | rfl | hl
  · rw [argumentsFrom?_lparen, argumentsFrom?_lparen, map_length_joinFirst, map_length_joinFirst, h]
  · cases depth with
    | zero => rfl
    | succ depth =>
      rw [argumentsFrom?_succ_rparen, argumentsFrom?_succ_rparen, map_length_joinFirst,
        map_length_joinFirst, h]
  · cases depth with
    | zero =>
      have hcut (ls : List Lexeme) : (argumentsFrom? 0 (separator :: ls)).map List.length =
          ((argumentsFrom? 0 ls).map List.length).map (· + 1) := by
        rw [argumentsFrom?_separator, Option.map_map, Option.map_map]
        rfl
      rw [hcut, hcut, h]
    | succ depth =>
      rw [argumentsFrom?_succ_separator, argumentsFrom?_succ_separator, map_length_joinFirst,
        map_length_joinFirst, h]
  · rw [argumentsFrom?_cons hl, argumentsFrom?_cons hl, map_length_joinFirst,
      map_length_joinFirst, h]

theorem append_left (h : CutAlike ks ls) (before : List Lexeme) :
    CutAlike (before ++ ks) (before ++ ls) := by
  induction before with
  | nil => exact h
  | cons b before ih => exact ih.cons b

theorem call?_cons (h : CutAlike ks ls) (k l : Lexeme) : call? k (l :: ks) = call? k (l :: ls) := by
  by_cases hl : l = lparen
  · subst hl
    have hcount (ls : List Lexeme) :
        separators? ls = ((argumentsFrom? 0 ls).map List.length).map (· - 1) := by
      rw [separators?, arguments?, Option.map_map]
      rfl
    cases k with
    | keyword k =>
      change some (k, separators? ks) = some (k, separators? ls)
      rw [hcount, hcount, h]
    | _ => rfl
  · rw [call?_of_head?_ne k (by simpa using hl), call?_of_head?_ne k (by simpa using hl)]

/-- Behind a list that ends in no name, the calls before and around a stretch remain. -/
theorem calls_append (h : CutAlike ks ls) (hcalls : calls ks = calls ls) {before : List Lexeme}
    (hbefore : ∀ k, before.getLast? ≠ some (keyword k)) :
    calls (before ++ ks) = calls (before ++ ls) := by
  induction before with
  | nil => exact hcalls
  | cons b before ih =>
    cases before with
    | nil =>
      have hb : ∀ k, b ≠ keyword k := by simpa using hbefore
      rw [List.singleton_append, List.singleton_append, calls_cons_of_not_keyword hb,
        calls_cons_of_not_keyword hb, hcalls]
    | cons c before =>
      rw [List.getLast?_cons_cons] at hbefore
      have hcall := (h.append_left before).call?_cons b c
      simp only [List.cons_append] at hcall ih ⊢
      rw [calls, calls.eq_2 b, hcall, ih hbefore]

end CutAlike

/-! ### Closed calls -/

/-- Once the bracket that closes a list is found, nothing more is read. -/
theorem argumentsFrom?_append (h : argumentsFrom? depth ks ≠ none) (ls : List Lexeme) :
    argumentsFrom? depth (ks ++ ls) = argumentsFrom? depth ks := by
  induction ks generalizing depth with
  | nil => exact absurd argumentsFrom?_nil h
  | cons k ks ih =>
    rw [List.cons_append]
    rcases plain_cases k with rfl | rfl | rfl | hk
    · rw [argumentsFrom?_lparen, Ne, Option.map_eq_none_iff] at h
      rw [argumentsFrom?_lparen, argumentsFrom?_lparen, ih h]
    · cases depth with
      | zero => rfl
      | succ depth =>
        rw [argumentsFrom?_succ_rparen, Ne, Option.map_eq_none_iff] at h
        rw [argumentsFrom?_succ_rparen, argumentsFrom?_succ_rparen, ih h]
    · cases depth with
      | zero =>
        rw [argumentsFrom?_separator, Ne, Option.map_eq_none_iff] at h
        rw [argumentsFrom?_separator, argumentsFrom?_separator, ih h]
      | succ depth =>
        rw [argumentsFrom?_succ_separator, Ne, Option.map_eq_none_iff] at h
        rw [argumentsFrom?_succ_separator, argumentsFrom?_succ_separator, ih h]
    · rw [argumentsFrom?_cons hk, Ne, Option.map_eq_none_iff] at h
      rw [argumentsFrom?_cons hk, argumentsFrom?_cons hk, ih h]

/-- A list that closes its calls has them, whatever follows that is not the bracket of one more. -/
theorem calls_append_of_closed (h : ∀ js, lparen :: js <:+ ks → arguments? js ≠ none)
    (hls : ls.head? ≠ some lparen) : calls (ks ++ ls) = calls ks ++ calls ls := by
  induction ks with
  | nil => rfl
  | cons k ks ih =>
    have hcall : call? k (ks ++ ls) = call? k ks := by
      cases ks with
      | nil => rw [call?_of_head?_ne k (by simpa using hls), call?_of_head?_ne k (by simp)]
      | cons l ks =>
        by_cases hl : l = lparen
        · subst hl
          have hclosed := argumentsFrom?_append (h ks (List.suffix_cons k _)) ls
          cases k with
          | keyword k => exact congrArg (fun as => some (k, as.map (·.length - 1))) hclosed
          | _ => rfl
        · rw [call?_of_head?_ne k (by simpa using hl), call?_of_head?_ne k (by simpa using hl)]
    rw [List.cons_append, calls, calls, hcall, List.append_assoc,
      ih fun js hjs => h js (hjs.trans (List.suffix_cons k ks))]

theorem IsBalanced.calls_append (h : IsBalanced ks) (hls : ls.head? ≠ some lparen) :
    calls (ks ++ ls) = calls ks ++ calls ls :=
  calls_append_of_closed (fun _ hjs => h.arguments?_ne_none hjs) hls

end ComplexSeries.Lexeme
