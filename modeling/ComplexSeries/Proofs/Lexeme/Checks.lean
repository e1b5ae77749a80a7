import ComplexSeries.Bracket.Balance
import ComplexSeries.Proofs.Lexeme.Nesting
import ComplexSeries.Proofs.Lexeme.Scanned

/-! The checks made on the characters of a text are checks on its lexemes. Brackets balance in the
text as they do in its lexemes, and where no two operators are neighbours in the text, no two are
among its lexemes. -/
namespace ComplexSeries

namespace Bracket

theorem checkFrom_open (depth : Nat) (justOpened : Bool) (cs : List Char) :
    checkFrom depth justOpened ('(' :: cs) = checkFrom (depth + 1) true cs := by
  rw [checkFrom.eq_def]
  rfl

theorem checkFrom_zero_close (justOpened : Bool) (cs : List Char) :
    checkFrom 0 justOpened (')' :: cs) = .error .unbalancedBrackets := by
  rw [checkFrom.eq_def]
  rfl

theorem checkFrom_succ_close (depth : Nat) (justOpened : Bool) (cs : List Char) :
    checkFrom (depth + 1) justOpened (')' :: cs) =
      if justOpened then .error .emptyBrackets else checkFrom depth false cs := by
  rw [checkFrom.eq_def]
  rfl

theorem checkFrom_cons {c : Char} (hopen : c ≠ '(') (hclose : c ≠ ')') (depth : Nat)
    (justOpened : Bool) (cs : List Char) :
    checkFrom depth justOpened (c :: cs) = checkFrom depth false cs := by
  rw [checkFrom.eq_def]
  simp only [hopen, hclose, if_false]

/-- Not both are operators. -/
def Unlike (a b : Char) : Prop := ¬(isOperator a ∧ isOperator b)

theorem doubledOperator?_eq_none_iff {cs : List Char} :
    doubledOperator? cs = none ↔ cs.IsChain Unlike := by
  induction cs with
  | nil => simp [doubledOperator?]
  | cons a cs ih =>
    cases cs with
    | nil => simp [doubledOperator?]
    | cons b cs =>
      rw [doubledOperator?, List.isChain_cons_cons, ← ih]
      split
      · next h => simp_all [Unlike]
      · next h => simp_all [Unlike]

theorem checkOperators_eq_ok_iff {cs : List Char} :
    checkOperators cs = .ok () ↔ cs.IsChain Unlike := by
  rw [← doubledOperator?_eq_none_iff, checkOperators]
  cases doubledOperator? cs <;> simp

end Bracket

namespace Lexeme

/-- Brackets with nothing between them. -/
def Filled (a b : Lexeme) : Prop := ¬(a = lparen ∧ b = rparen)

theorem checkFrom_word {w : List Char} (hw : w ≠ []) (h : ∀ c ∈ w, isWordChar c) (depth : Nat)
    (justOpened : Bool) (cs : List Char) :
    Bracket.checkFrom depth justOpened (w ++ cs) = Bracket.checkFrom depth false cs := by
  induction w generalizing justOpened with
  | nil => exact absurd rfl hw
  | cons c w ih =>
    have hc := h c List.mem_cons_self
    have hopen : c ≠ '(' := by rintro rfl; exact absurd hc (by decide)
    have hclose : c ≠ ')' := by rintro rfl; exact absurd hc (by decide)
    rw [List.cons_append, Bracket.checkFrom_cons hopen hclose]
    cases w with
    | nil => rfl
    | cons d w => exact ih (by simp) (fun c hc => h c (List.mem_cons_of_mem _ hc)) false

/-- Only brackets are looked at. -/
theorem checkFrom_skip {c : Char} {cs : List Char} {l : Lexeme} {taken : Nat}
    (h : first c cs = .ok (l, taken)) (hl : l.isBracket = false) (depth : Nat)
    (justOpened : Bool) :
    Bracket.checkFrom depth justOpened (c :: cs) =
      Bracket.checkFrom depth false (cs.drop taken) := by
  rcases first_isWord h with ⟨-, hw⟩ | ⟨hw, rfl, -, hc⟩
  · have := checkFrom_word (by simp) hw depth justOpened (cs.drop taken)
    rwa [List.cons_append, List.take_append_drop] at this
  · have hsymbol := ofSymbol_eq_ok_iff.2 ⟨hw, hc⟩
    have hopen : c ≠ '(' := by rintro rfl; cases hsymbol; cases hl
    have hclose : c ≠ ')' := by rintro rfl; cases hsymbol; cases hl
    exact Bracket.checkFrom_cons hopen hclose depth justOpened cs

theorem Scanned.checkFrom_iff {cs : List Char} {ls : List Lexeme} (h : Scanned cs ls) (depth : Nat)
    (justOpened : Bool) :
    Bracket.checkFrom depth justOpened cs = .ok () ↔
      nesting depth ls = some 0 ∧ ls.IsChain Filled ∧
        (justOpened = true → ls.head? ≠ some rparen) := by
  induction h generalizing depth justOpened with
  | nil => simp [Bracket.checkFrom]
  | @cons c cs l taken ls hf hs ih =>
    by_cases hb : l.isBracket
    · obtain ⟨rfl, hl⟩ : taken = 0 ∧ l.letters = [c] := by
        rcases first_isWord hf with ⟨hw, -⟩ | ⟨-, ht, -, hl⟩
        · cases l <;> simp [isBracket, isOpen, isClose, isWord] at hb hw
        · exact ⟨ht, hl⟩
      rw [List.drop_zero] at ih
      cases l <;> simp only [isBracket, isOpen, isClose, Bool.or_self, Bool.false_eq_true] at hb
      · simp only [letters, List.cons.injEq, and_true] at hl
        subst hl
        have hhead : (∀ b ∈ ls.head?, Filled lparen b) ↔ ls.head? ≠ some rparen := by
          cases ls <;> simp [Filled]
        rw [Bracket.checkFrom_open, ih, nesting_lparen, List.isChain_cons, hhead]
        simp [and_comm]
      · simp only [letters, List.cons.injEq, and_true] at hl
        subst hl
        cases depth with
        | zero => simp [Bracket.checkFrom_zero_close]
        | succ depth =>
          rw [Bracket.checkFrom_succ_close, nesting_succ_rparen, List.isChain_cons]
          cases justOpened with
          | true => simp
          | false => simp [ih, Filled]
    · rw [Bool.not_eq_true] at hb
      rw [checkFrom_skip hf hb, ih, nesting_cons hb, List.isChain_cons]
      have hl : ∀ b, Filled l b := by
        rintro b ⟨rfl, -⟩
        cases hb
      have hr : l ≠ rparen := by rintro rfl; cases hb
      simp [hl, hr]

/-- Operators among the lexemes are operators in the text. -/
theorem Scanned.isChain_operator {cs : List Char} {ls : List Lexeme} (h : Scanned cs ls)
    (hcs : cs.IsChain Bracket.Unlike) :
    ls.IsChain fun a b => ∀ o p, a = operator o → b ≠ operator p := by
  induction h with
  | nil => exact .nil
  | @cons c cs l taken ls hf hs ih =>
    refine (ih (hcs.tail.drop taken)).cons fun b hb o p hl hp => ?_
    subst hl hp
    obtain ⟨bs, rfl⟩ : ∃ bs, ls = operator p :: bs := ⟨ls.tail, List.eq_cons_of_mem_head? hb⟩
    obtain ⟨rfl, hc⟩ : taken = 0 ∧ [o.symbol] = [c] := by
      rcases first_isWord hf with ⟨hw, -⟩ | ⟨-, ht, -, hl⟩
      · cases hw
      · exact ⟨ht, hl⟩
    have hnext : cs.head? = some p.symbol := hs.head?_eq (by simp)
    rw [List.eq_cons_of_mem_head? hnext, List.isChain_cons_cons] at hcs
    simp only [List.cons.injEq, and_true] at hc
    subst hc
    exact hcs.1 ⟨by cases o <;> rfl, by cases p <;> rfl⟩

end Lexeme

end ComplexSeries
