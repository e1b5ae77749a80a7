import ComplexSeries.Proofs.Lexeme.Checks
import ComplexSeries.Proofs.Lexeme.Rescan

/-! What neighbours among the lexemes of a formula look like, stage by stage: as they are read, once
products are written, and once no sign stands alone. A list is considered together with an opening
bracket before it, since its start and the start of a bracket are alike to every stage. -/
namespace ComplexSeries.Input

open Lexeme

/-- Neighbours in a text that passed the checks of its characters. -/
structure Sound (a b : Lexeme) : Prop where
  apart : Apart a b
  filled : Filled a b
  single : ∀ o p, a = operator o → b ≠ operator p

/-- Sound neighbours with every product written. -/
structure Spaced (a b : Lexeme) : Prop extends Sound a b where
  parted : Parted a b

/-- Spaced neighbours of which the second is no leading sign. -/
structure Settled (a b : Lexeme) : Prop extends Spaced a b where
  unsigned : a = lparen ∨ a = separator → b.isSign = false

theorem apart_of_not_isWordChar {a b : Lexeme}
    (h : ∀ c ∈ b.letters.head?, isWordChar c = false) : Apart a b := by
  cases a with
  | keyword k =>
    intro c hc m hm
    have halpha : c.isAlpha := m.isAlpha_of_mem_letters (by rw [hm]; simp)
    have := h c hc
    simp [isWordChar, halpha] at this
  | _ => trivial

/-- A lexeme that begins no operand keeps every name before it apart. -/
theorem apart_of_not_startsOperand {a b : Lexeme} (h : b.startsOperand = false) : Apart a b :=
  apart_of_not_isWordChar fun _ hc => not_isWordChar_of_not_startsOperand h hc

theorem apart_of_not_keyword {a b : Lexeme} (h : ∀ k, a ≠ keyword k) : Apart a b := by
  cases a with
  | keyword k => exact absurd rfl (h k)
  | _ => trivial

theorem not_isSign_of_startsOperand {l : Lexeme} (h : l.startsOperand) : l.isSign = false := by
  cases l <;> first | rfl | cases h

/-- An operand may begin after whatever ends none. -/
theorem Settled.of_opens {a b : Lexeme} (ha : a.endsOperand = false) (hsym : ∀ k, a ≠ keyword k)
    (hb : b.startsOperand) : Settled a b where
  apart := apart_of_not_keyword hsym
  filled := by rintro ⟨-, rfl⟩; cases hb
  single := by rintro o p - rfl; cases hb
  parted := by simp [Parted, ha]
  unsigned _ := not_isSign_of_startsOperand hb

/-- After an operand, anything may stand that begins none. -/
theorem Settled.of_closes {a b : Lexeme} (ha : a.endsOperand) (hb : b.startsOperand = false) :
    Settled a b where
  apart := apart_of_not_startsOperand hb
  filled := by rintro ⟨rfl, -⟩; cases ha
  single := by rintro o p rfl; cases ha
  parted := by simp [Parted, hb]
  unsigned := by rintro (rfl | rfl) <;> cases ha

theorem Settled.rparen {a : Lexeme} (ha : a ≠ lparen) : Settled a rparen where
  apart := apart_of_not_startsOperand rfl
  filled h := ha h.1
  single := by rintro o p - h; cases h
  parted h := by cases h.2
  unsigned _ := rfl

theorem Settled.separator (a : Lexeme) : Settled a separator where
  apart := apart_of_not_startsOperand rfl
  filled := by rintro ⟨-, h⟩; cases h
  single := by rintro o p - h; cases h
  parted h := by cases h.2
  unsigned _ := rfl

end ComplexSeries.Input
