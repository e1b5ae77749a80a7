import ComplexSeries.Input.Sign
import ComplexSeries.Proofs.Input.Neighbours

/-! Rewriting leading signs. The state of the rewriting is what stands before, and for each bracket
level whether a closing bracket is owed; one is owed only behind an operand. The result has no
leading sign, its brackets balance, and a list of that kind is left as it is. -/
namespace ComplexSeries.Input

open Lexeme

/-- The closing brackets owed at all levels. -/
def debt (signed : Bool) (outer : List Bool) : Nat := (signed :: outer).count true

theorem Before.of_eq_opening {l : Lexeme} (h : Before.of l = .opening) : l = lparen := by
  cases l <;> first | rfl | cases h

theorem Before.of_eq_separator {l : Lexeme} (h : Before.of l = .separator) : l = Lexeme.separator := by
  cases l <;> first | rfl | cases h

theorem Before.of_of_ne {l : Lexeme} (ho : l ≠ lparen) (hs : l ≠ Lexeme.separator) :
    Before.of l = .operand := by
  cases l <;> first | rfl | contradiction

theorem nesting_owed (signed : Bool) (outer : List Bool) (depth : Nat) (ls : List Lexeme) :
    nesting (depth + debt signed outer) (owed signed ++ ls) =
      nesting (depth + debt false outer) ls := by
  cases signed with
  | false => rfl
  | true =>
    have hdebt : debt true outer = debt false outer + 1 := by simp [debt]
    rw [hdebt, ← Nat.add_assoc]
    rfl

theorem isBracket_eq_false {l : Lexeme} (ho : l = lparen → False) (hc : l = rparen → False) :
    l.isBracket = false := by
  cases l <;> first | rfl | contradiction

theorem nesting_rewriteSignsFrom {before : Before} {signed : Bool} {outer : List Bool}
    {ls : List Lexeme} (hs : signed = true → before = .operand)
    (h : nesting outer.length ls = some 0) :
    nesting (outer.length + debt signed outer) (rewriteSignsFrom before signed outer ls) =
      some 0 := by
  fun_induction rewriteSignsFrom before signed outer ls with
  | case1 before signed outer =>
    rw [nesting_nil, Option.some.injEq, List.length_eq_zero_iff] at h
    subst h
    rw [nesting_owed]
    rfl
  | case2 before signed outer ls ih =>
    rw [nesting_lparen] at h ⊢
    rw [← ih (by simp) h]
    have hdebt : debt false (signed :: outer) = debt signed outer := by simp [debt]
    rw [hdebt, List.length_cons, Nat.add_right_comm]
  | case3 before signed ls ih => cases h
  | case4 before signed ls level outer ih =>
    rw [List.length_cons, nesting_succ_rparen] at h
    rw [nesting_owed, ← ih (fun _ => rfl) h]
    have hdebt : debt false (level :: outer) = debt level outer := by simp [debt]
    rw [hdebt, List.length_cons, Nat.add_right_comm, nesting_succ_rparen]
  | case5 before signed outer ls ih =>
    rw [nesting_cons rfl] at h
    rw [nesting_owed, nesting_cons rfl, ih (by simp) h]
  | case6 signed outer l ls ho hc _ _ ih =>
    have hl := isBracket_eq_false ho hc
    rw [nesting_cons hl] at h
    rw [nesting_cons rfl, nesting_cons hl, ih (fun _ => rfl) h]
  | case7 signed outer l ls ho hc _ _ ih =>
    have hl := isBracket_eq_false ho hc
    obtain rfl : signed = false := by
      cases signed with
      | false => rfl
      | true => cases hs rfl
    rw [nesting_cons hl] at h
    rw [nesting_lparen, nesting_cons rfl, nesting_cons hl, ← ih (fun _ => rfl) h]
    congr 1
    simp [debt]; omega
  | case8 signed outer l ls ho hc _ _ ih =>
    have hl := isBracket_eq_false ho hc
    rw [nesting_cons hl] at h ⊢
    exact ih (fun _ => rfl) h
  | case9 before signed outer l ls ho hc _ _ ih =>
    have hl := isBracket_eq_false ho hc
    rw [nesting_cons hl] at h ⊢
    exact ih (fun _ => rfl) h

theorem balanced_rewriteSigns {ls : List Lexeme} (h : IsBalanced ls) :
    IsBalanced (rewriteSigns ls) := by
  have hs : false = true → Before.opening = .operand := by simp
  have hbal : nesting ([] : List Bool).length ls = some 0 := h
  exact nesting_rewriteSignsFrom hs hbal

/-- Only zeros and brackets are written. -/
theorem forall_mem_rewriteSignsFrom {P : Lexeme → Prop} (hzero : P zero) (hopen : P lparen)
    (hclose : P rparen) (before : Before) (signed : Bool) (outer : List Bool) {ls : List Lexeme}
    (h : ∀ l ∈ ls, P l) : ∀ l ∈ rewriteSignsFrom before signed outer ls, P l := by
  have howed : ∀ b, ∀ l ∈ owed b, P l := by
    intro b
    cases b <;> simp [owed, hclose]
  fun_induction rewriteSignsFrom before signed outer ls <;>
    simp_all only [List.forall_mem_append, List.forall_mem_cons, List.mem_flatMap,
      forall_exists_index, and_imp, forall_const, and_self, implies_true, true_and, and_true]
  case case1 => exact ⟨howed _, fun l b _ hl => howed b l hl⟩
  all_goals exact howed _

/-! ### Neighbours -/

theorem Settled.of_spaced {a b : Lexeme} (h : Spaced a b)
    (hsign : Before.of a = .operand ∨ b.isSign = false) : Settled a b where
  toSpaced := h
  unsigned := by
    rcases hsign with ha | hb
    · rintro (rfl | rfl) <;> cases ha
    · exact fun _ => hb

/-- Brackets that are owed may be written before anything but an operand. -/
theorem isChain_owed {p l : Lexeme} {signed : Bool} {ls : List Lexeme}
    (hs : signed = true → Before.of p = .operand) (hpl : Settled p l)
    (hl : l.startsOperand = false) (h : (l :: ls).IsChain Settled) :
    (p :: (owed signed ++ l :: ls)).IsChain Settled := by
  cases signed with
  | false => exact .cons_cons hpl h
  | true =>
    have hp : p ≠ lparen := by rintro rfl; cases hs rfl
    exact .cons_cons (.rparen hp) (.cons_cons (.of_closes rfl hl) h)

theorem rewriteSignsFrom_isChain {before : Before} {signed : Bool} {outer : List Bool}
    {ls : List Lexeme} {p : Lexeme} (hp : Before.of p = before)
    (hs : signed = true → before = .operand) (hbal : nesting outer.length ls = some 0)
    (h : (p :: ls).IsChain Spaced) :
    (p :: rewriteSignsFrom before signed outer ls).IsChain Settled := by
  fun_induction rewriteSignsFrom before signed outer ls generalizing p with
  | case1 before signed outer =>
    rw [nesting_nil, Option.some.injEq, List.length_eq_zero_iff] at hbal
    subst hbal
    cases signed with
    | false => exact .singleton p
    | true =>
      have hp' : p ≠ lparen := by rintro rfl; rw [hs rfl] at hp; cases hp
      exact .cons_cons (.rparen hp') (.singleton _)
  | case2 before signed outer ls ih =>
    rw [nesting_lparen] at hbal
    exact .cons_cons (.of_spaced h.rel (.inr rfl)) (ih rfl (by simp) hbal h.of_cons)
  | case3 before signed ls ih => cases hbal
  | case4 before signed ls level outer ih =>
    rw [List.length_cons, nesting_succ_rparen] at hbal
    exact isChain_owed (fun h => hp.trans (hs h)) (.of_spaced h.rel (.inr rfl)) rfl
      (ih rfl (fun _ => rfl) hbal h.of_cons)
  | case5 before signed outer ls ih =>
    rw [nesting_cons rfl] at hbal
    exact isChain_owed (fun h => hp.trans (hs h)) (.separator p) rfl
      (ih rfl (by simp) hbal h.of_cons)
  | case6 signed outer l ls ho hc hsep hsign ih =>
    rw [nesting_cons (isBracket_eq_false ho hc)] at hbal
    obtain rfl := Before.of_eq_opening hp
    have hl : l.startsOperand = false := by cases l <;> first | rfl | cases hsign
    exact .cons_cons (.of_opens rfl (by simp) rfl) (.cons_cons (.of_closes rfl hl)
      (ih (Before.of_of_ne ho hsep) (fun _ => rfl) hbal h.of_cons))
  | case7 signed outer l ls ho hc hsep hsign ih =>
    rw [nesting_cons (isBracket_eq_false ho hc)] at hbal
    obtain rfl := Before.of_eq_separator hp
    have hl : l.startsOperand = false := by cases l <;> first | rfl | cases hsign
    exact .cons_cons (.of_opens rfl (by simp) rfl) (.cons_cons (.of_opens rfl (by simp) rfl)
      (.cons_cons (.of_closes rfl hl)
        (ih (Before.of_of_ne ho hsep) (fun _ => rfl) hbal h.of_cons)))
  | case8 signed outer l ls ho hc hsep _ ih =>
    rw [nesting_cons (isBracket_eq_false ho hc)] at hbal
    exact .cons_cons (.of_spaced h.rel (.inl hp))
      (ih (Before.of_of_ne ho hsep) (fun _ => rfl) hbal h.of_cons)
  | case9 before signed outer l ls ho hc hsep hsign ih =>
    rw [nesting_cons (isBracket_eq_false ho hc)] at hbal
    exact .cons_cons (.of_spaced h.rel (.inr (by simpa using hsign)))
      (ih (Before.of_of_ne ho hsep) (fun _ => rfl) hbal h.of_cons)

/-- Without leading signs there is nothing to rewrite and nothing is owed. -/
theorem rewriteSignsFrom_eq_self {before : Before} {signed : Bool} {outer : List Bool}
    {ls : List Lexeme} {p : Lexeme} (hp : Before.of p = before) (hs : signed = false)
    (hout : ∀ b ∈ outer, b = false) (hbal : nesting outer.length ls = some 0)
    (h : (p :: ls).IsChain Settled) : rewriteSignsFrom before signed outer ls = ls := by
  fun_induction rewriteSignsFrom before signed outer ls generalizing p with
  | case1 before signed outer =>
    rw [nesting_nil, Option.some.injEq, List.length_eq_zero_iff] at hbal
    subst hs hbal
    rfl
  | case2 before signed outer ls ih =>
    rw [nesting_lparen] at hbal
    rw [ih rfl rfl (by simpa [hs] using hout) hbal h.of_cons]
  | case3 before signed ls ih => cases hbal
  | case4 before signed ls level outer ih =>
    rw [List.length_cons, nesting_succ_rparen] at hbal
    rw [List.forall_mem_cons] at hout
    subst hs
    rw [ih rfl hout.1 hout.2 hbal h.of_cons]
    rfl
  | case5 before signed outer ls ih =>
    rw [nesting_cons rfl] at hbal
    subst hs
    rw [ih rfl rfl hout hbal h.of_cons]
    rfl
  | case6 signed outer l ls _ _ _ hsign ih =>
    rw [h.rel.unsigned (.inl (Before.of_eq_opening hp))] at hsign
    cases hsign
  | case7 signed outer l ls _ _ _ hsign ih =>
    rw [h.rel.unsigned (.inr (Before.of_eq_separator hp))] at hsign
    cases hsign
  | case8 signed outer l ls ho hc hsep _ ih | case9 before signed outer l ls ho hc hsep _ ih =>
    rw [nesting_cons (isBracket_eq_false ho hc)] at hbal
    rw [ih (Before.of_of_ne ho hsep) hs hout hbal h.of_cons]

end ComplexSeries.Input
