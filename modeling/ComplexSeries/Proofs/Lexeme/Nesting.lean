import Mathlib.Data.List.Basic
import ComplexSeries.Lexeme.Basic
import ComplexSeries.Proofs.Bracket.Height

/-! How deep the brackets of a list of lexemes nest. The depth after a list is known from the depth
before it, and there is none if a bracket closes that was not opened. A list is balanced if it leads
from no depth back to none; it then leads from every depth back to the same. -/
namespace ComplexSeries.Lexeme

/-- The depth after a list that begins at `depth`. -/
def nesting : (depth : Nat) → List Lexeme → Option Nat
  | depth, [] => some depth
  | depth, lparen :: ls => nesting (depth + 1) ls
  | 0, rparen :: _ => none
  | depth + 1, rparen :: ls => nesting depth ls
  | depth, _ :: ls => nesting depth ls

def IsBalanced (ls : List Lexeme) : Prop := nesting 0 ls = some 0

def isBracket (l : Lexeme) : Bool := l.isOpen || l.isClose

@[simp] theorem nesting_nil (depth : Nat) : nesting depth [] = some depth := by
  cases depth <;> rfl

@[simp] theorem nesting_lparen (depth : Nat) (ls : List Lexeme) :
    nesting depth (lparen :: ls) = nesting (depth + 1) ls := by
  cases depth <;> rfl

@[simp] theorem nesting_zero_rparen (ls : List Lexeme) : nesting 0 (rparen :: ls) = none := rfl

@[simp] theorem nesting_succ_rparen (depth : Nat) (ls : List Lexeme) :
    nesting (depth + 1) (rparen :: ls) = nesting depth ls := rfl

theorem nesting_cons {l : Lexeme} (h : l.isBracket = false) (depth : Nat) (ls : List Lexeme) :
    nesting depth (l :: ls) = nesting depth ls := by
  cases l <;> first | (simp [isBracket, isOpen, isClose] at h; done) | (cases depth <;> rfl)

theorem nesting_append (depth : Nat) (ks ls : List Lexeme) :
    nesting depth (ks ++ ls) = (nesting depth ks).bind (nesting · ls) := by
  induction ks generalizing depth with
  | nil => simp
  | cons k ks ih =>
    by_cases hk : k.isBracket
    · cases k <;> simp only [isBracket, isOpen, isClose, Bool.or_self, Bool.false_eq_true] at hk
      · simp [ih]
      · cases depth with
        | zero => simp
        | succ depth => simp [ih]
    · rw [Bool.not_eq_true] at hk
      rw [List.cons_append, nesting_cons hk, nesting_cons hk, ih]

/-- A list begun deeper ends as much deeper. -/
theorem nesting_add {depth after : Nat} {ls : List Lexeme} (h : nesting depth ls = some after)
    (more : Nat) : nesting (depth + more) ls = some (after + more) := by
  induction ls generalizing depth with
  | nil => simp at h ⊢; omega
  | cons l ls ih =>
    by_cases hl : l.isBracket
    · cases l <;> simp only [isBracket, isOpen, isClose, Bool.or_self, Bool.false_eq_true] at hl
      · rw [nesting_lparen] at h ⊢
        rw [← ih h]; congr 1; omega
      · cases depth with
        | zero => simp at h
        | succ depth =>
          rw [nesting_succ_rparen] at h
          rw [show depth + 1 + more = depth + more + 1 by omega, nesting_succ_rparen, ih h]
    · rw [Bool.not_eq_true] at hl
      rw [nesting_cons hl] at h ⊢
      exact ih h

theorem IsBalanced.nesting {ls : List Lexeme} (h : IsBalanced ls) (depth : Nat) :
    nesting depth ls = some depth := by
  simpa using nesting_add h depth

theorem IsBalanced.nesting_append {ks : List Lexeme} (h : IsBalanced ks) (depth : Nat)
    (ls : List Lexeme) : Lexeme.nesting depth (ks ++ ls) = Lexeme.nesting depth ls := by
  rw [Lexeme.nesting_append, h.nesting, Option.bind_some]

/-- What lies in brackets is left at the depth at which it was entered. -/
theorem IsBalanced.parens {ls : List Lexeme} (h : IsBalanced ls) :
    IsBalanced (lparen :: ls ++ [rparen]) := by
  simp [IsBalanced, h.nesting_append]

/-! ### Heights -/

/-- The depth after a list, said by the number of brackets in it and in each of its beginnings. -/
theorem nesting_eq_some_iff {depth after : Nat} {ls : List Lexeme} :
    nesting depth ls = some after ↔ Bracket.Leads isOpen isClose depth after ls := by
  induction ls generalizing depth with
  | nil =>
    rw [nesting_nil, Option.some.injEq, Bracket.leads_nil]
    omega
  | cons l ls ih =>
    rw [Bracket.leads_cons (by omega)]
    by_cases hl : l.isBracket
    · cases l <;> simp only [isBracket, isOpen, isClose, Bool.or_self, Bool.false_eq_true] at hl
      · rw [nesting_lparen, ih, Bracket.height_open rfl rfl]
        rfl
      · rw [Bracket.height_close rfl rfl]
        cases depth with
        | zero => exact iff_of_false (by simp) fun h => absurd h.nonneg (by decide)
        | succ depth =>
          rw [nesting_succ_rparen, ih, Int.natCast_succ, Int.add_neg_cancel_right]
    · obtain ⟨ho, hc⟩ : l.isOpen = false ∧ l.isClose = false := by simpa [isBracket] using hl
      rw [Bool.not_eq_true] at hl
      rw [nesting_cons hl, ih, Bracket.height_other ho hc, Int.add_zero]

theorem isBalanced_iff {ls : List Lexeme} : IsBalanced ls ↔ Bracket.Balanced isOpen isClose ls :=
  nesting_eq_some_iff

end ComplexSeries.Lexeme
