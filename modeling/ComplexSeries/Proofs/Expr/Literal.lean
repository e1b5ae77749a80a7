import ComplexSeries.Expr.Text
import ComplexSeries.Proofs.Decimal
import ComplexSeries.Proofs.Scalar.Laws
import ComplexSeries.Proofs.Expr.Grammar

/-! Literals as the parser meets them. A literal is written with magnitudes, a zero that a leading
negative part is subtracted from, and the letter of the imaginary unit; so what is read is a small sum
of these. Whether the letter is the unit is not up to the literal: the tree takes it as given. -/
namespace ComplexSeries

open Lexeme
open Scalar (zero)

variable {R : Type} [Scalar R]

/-- The magnitude reads back from its text. -/
def Scalar.Legible (a : R) : Prop := Scalar.read? (Scalar.text (Scalar.abs a)) = some (Scalar.abs a)

namespace Complex

structure Legible (z : Complex R) : Prop where
  re : Scalar.Legible z.re
  im : Scalar.Legible z.im

/-! ### A literal in lexemes -/

/-- A term that leads, or that is subtracted from zero if `a` is not above it. -/
def leadLexemes (a : R) (term : List Lexeme) : List Lexeme :=
  if zero < a then term else number ['0'] :: operator .sub :: term

/-- The sign before a term that does not lead. -/
def linkOf (a : R) : Operator := if zero < a then .add else .sub

def imaginaryLexemes (a : R) : List Lexeme := [number (digits a), operator .mul, letter 'i']

theorem isSign_linkOf (a : R) : (linkOf a).isSign = true := by
  unfold linkOf
  split <;> rfl

/-- The literal without its brackets. -/
def lexemes (z : Complex R) : List Lexeme :=
  if z.re == zero && z.im == zero then [number ['0']]
  else if z.im == zero then leadLexemes z.re [number (digits z.re)]
  else if z.re == zero then leadLexemes z.im (imaginaryLexemes z.im)
  else leadLexemes z.re [number (digits z.re)] ++ operator (linkOf z.im) :: imaginaryLexemes z.im

theorem render_leadLexemes (a : R) (term : List Lexeme) :
    render (leadLexemes a term) = if zero < a then render term else '0' :: '-' :: render term := by
  unfold leadLexemes
  split <;> rfl

theorem render_imaginaryLexemes (a : R) : render (imaginaryLexemes a) = imaginary a := by
  simp [imaginaryLexemes, imaginary, letters, Operator.symbol]

theorem symbol_linkOf (a : R) : (linkOf a).symbol = if zero < a then '+' else '-' := by
  unfold linkOf
  split <;> rfl

theorem render_lexemes (z : Complex R) : render (lparen :: z.lexemes ++ [rparen]) = z.literal := by
  have hbody : render z.lexemes = z.literal.tail.dropLast := by
    simp only [lexemes, literal, List.tail_cons, List.dropLast_concat]
    split_ifs <;>
      simp [render_leadLexemes, render_imaginaryLexemes, symbol_linkOf, letters, *]
  rw [render_append, render_cons, hbody]
  simp [literal, letters]

/-! ### The tree of a literal -/

/-- A tree that leads, or that is subtracted from zero if `a` is not above it. -/
def leadTree (a : R) (e : Expr R) : Expr R := if zero < a then e else e.neg

def realTree (a : R) : Expr R := .const (ofReal (Scalar.abs a))

def imaginaryTree (unit : Expr R) (a : R) : Expr R := .binary .mul (realTree a) unit

/-- What a literal stands for where its letter stands for `unit`. -/
def tree (unit : Expr R) (z : Complex R) : Expr R :=
  if z.re == zero && z.im == zero then .ofInt 0
  else if z.im == zero then leadTree z.re (realTree z.re)
  else if z.re == zero then leadTree z.im (imaginaryTree unit z.im)
  else .binary (linkOf z.im) (leadTree z.re (realTree z.re)) (imaginaryTree unit z.im)

end Complex

namespace Expr

open ComplexSeries.Complex

/-- Derived in a way that no more than `n` levels are needed to read. -/
def DerivedWithin (n : Nat) (l : Level) (scope : List Char) (ks : List Lexeme) (e : Expr R) : Prop :=
  ∃ d : Derivation l scope ks e, d.levels ≤ n

variable {scope : List Char} {ks : List Lexeme} {e : Expr R} {n : Nat}

theorem DerivedWithin.mono {l : Level} {m : Nat} (h : DerivedWithin n l scope ks e) (hle : n ≤ m) :
    DerivedWithin m l scope ks e :=
  let ⟨d, hd⟩ := h
  ⟨d, hd.trans hle⟩

theorem DerivedWithin.product (h : DerivedWithin n .atom scope ks e) :
    DerivedWithin n .product scope ks e :=
  let ⟨d, hd⟩ := h
  ⟨.product (.power d), hd⟩

theorem DerivedWithin.sum (h : DerivedWithin n .product scope ks e) :
    DerivedWithin n .sum scope ks e :=
  let ⟨d, hd⟩ := h
  ⟨.sum d, hd⟩

theorem DerivedWithin.parens (h : DerivedWithin n .sum scope ks e) :
    DerivedWithin (n + 1) .atom scope (lparen :: ks ++ [rparen]) e :=
  let ⟨d, hd⟩ := h
  ⟨.parens d, Nat.succ_le_succ hd⟩

section

variable [Scalar.LawfulText R] {a : R}

theorem isFinite_abs_of_isFinite (ha : Scalar.isFinite a = true) :
    Scalar.isFinite (Scalar.abs a) = true := by
  rw [Scalar.LawfulText.isFinite_abs, ha]

theorem digits_eq (ha : Scalar.isFinite a = true) :
    digits a = (Scalar.toDecimal (Scalar.abs a)).positional := by
  have hfinite := isFinite_abs_of_isFinite ha
  rw [digits, Scalar.text, Scalar.LawfulText.isMissing_of_isFinite hfinite,
    Scalar.LawfulText.isNegative_abs, Scalar.magnitudeText, if_pos hfinite]
  rfl

theorem readable_digits (ha : Scalar.isFinite a = true) : (number (digits a)).Readable := by
  rw [digits_eq ha]
  exact Decimal.readable_positional _

theorem read?_zero : Scalar.read? ['0'] = some (zero : R) := by
  rw [← Scalar.LawfulText.ofDecimal_zero]
  rfl

theorem derivedWithin_real (ha : Scalar.isFinite a = true) (hread : Scalar.Legible a) :
    DerivedWithin 0 .atom scope [number (digits a)] (realTree a) :=
  ⟨.number hread (isFinite_abs_of_isFinite ha), le_rfl⟩

theorem derivedWithin_zero : DerivedWithin (R := R) 0 .atom scope [number ['0']] (.ofInt 0) :=
  ⟨.number read?_zero Scalar.LawfulText.isFinite_zero, le_rfl⟩

theorem derivedWithin_imaginary {unit : Expr R} (ha : Scalar.isFinite a = true)
    (hread : Scalar.Legible a) (hunit : DerivedWithin 0 .atom scope [letter 'i'] unit) :
    DerivedWithin 1 .product scope (imaginaryLexemes a) (imaginaryTree unit a) := by
  obtain ⟨d, hd⟩ : DerivedWithin 0 .atom scope [number (digits a)] (realTree a) :=
    derivedWithin_real ha hread
  obtain ⟨u, hu⟩ := hunit
  refine ⟨.factor (o := .mul) rfl (.product (.power d)) (.power u), ?_⟩
  simp only [Derivation.levels]
  omega

theorem derivedWithin_lead (a : R) (h : DerivedWithin 1 .product scope ks e) :
    DerivedWithin 1 .sum scope (leadLexemes a ks) (leadTree a e) := by
  unfold leadLexemes leadTree
  split
  · exact h.sum
  · obtain ⟨z, hz⟩ : DerivedWithin (R := R) 0 .atom scope [number ['0']] (.ofInt 0) :=
      derivedWithin_zero
    obtain ⟨d, hd⟩ := h
    refine ⟨.term (o := .sub) rfl (.sum (.product (.power z))) d, ?_⟩
    simp only [Derivation.levels]
    omega

/-- Where the letter derives `unit`, a literal derives its tree. -/
theorem derivedWithin_literal {unit : Expr R} {z : Complex R} (hz : z.isFinite = true)
    (hread : z.Legible) (hunit : DerivedWithin 0 .atom scope [letter 'i'] unit) :
    DerivedWithin 3 .atom scope (lparen :: z.lexemes ++ [rparen]) (z.tree unit) := by
  obtain ⟨hre, him⟩ : Scalar.isFinite z.re = true ∧ Scalar.isFinite z.im = true := by
    simpa [Complex.isFinite] using hz
  have hreal : DerivedWithin 1 .product scope [number (digits z.re)] (realTree z.re) :=
    (derivedWithin_real hre hread.re).product.mono (Nat.zero_le 1)
  have himaginary := derivedWithin_imaginary him hread.im hunit
  apply DerivedWithin.parens
  unfold lexemes tree
  split_ifs
  · exact derivedWithin_zero.product.sum.mono (Nat.zero_le 2)
  · exact (derivedWithin_lead z.re hreal).mono (Nat.le_succ 1)
  · exact (derivedWithin_lead z.im himaginary).mono (Nat.le_succ 1)
  · obtain ⟨d, hd⟩ := derivedWithin_lead z.re hreal
    obtain ⟨d', hd'⟩ := himaginary
    refine ⟨.term (isSign_linkOf z.im) d d', ?_⟩
    simp only [Derivation.levels]
    omega

end

end Expr

end ComplexSeries
