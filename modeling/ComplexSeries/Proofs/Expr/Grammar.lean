import ComplexSeries.Expr.Parse
import ComplexSeries.Proofs.Lexeme.Arguments

/-! The grammar of formulas, by derivations. A sum is made of products, a product of powers and a
power of atoms; sums and products grow to the left, powers to the right. Which letters are names
depends on the indices in scope, and an index is in scope in the body of its aggregate alone. -/
namespace ComplexSeries.Expr

open Lexeme

variable {R : Type} [Scalar R] {scope : List Char} {ks ls : List Lexeme} {e : Expr R}

inductive Level where
  | atom
  | power
  | product
  | sum
deriving DecidableEq, Repr

/-- How a list of lexemes is an expression of some level, and the tree it stands for. -/
inductive Derivation : Level → List Char → List Lexeme → Expr R → Type
  | number {scope : List Char} {digits : List Char} {a : R} : Scalar.read? digits = some a →
      Scalar.isFinite a = true → Derivation .atom scope [number digits] (.const (.ofReal a))
  | constant {scope : List Char} (c : Constant) :
      Derivation .atom scope [keyword (.constant c)] (.constant c)
  | bound {scope : List Char} {c : Char} : isBound scope c = true →
      Derivation .atom scope [letter c] (.var c)
  | unit {scope : List Char} : isBound scope 'i' = false →
      Derivation .atom scope [letter 'i'] (.const .imaginaryUnit)
  | parens {scope : List Char} {ks : List Lexeme} {e : Expr R} : Derivation .sum scope ks e →
      Derivation .atom scope (lparen :: ks ++ [rparen]) e
  | call {scope : List Char} {ks : List Lexeme} {a : Expr R} (f : Function) :
      Derivation .sum scope ks a →
      Derivation .atom scope (keyword (.function f) :: lparen :: ks ++ [rparen]) (.call f a)
  | log {scope : List Char} {ks ls : List Lexeme} {a b : Expr R} : Derivation .sum scope ks a →
      Derivation .sum scope ls b →
      Derivation .atom scope (keyword .log :: lparen :: (ks ++ separator :: ls) ++ [rparen])
        (.log a b)
  | aggregate {scope : List Char} {ks ls ms : List Lexeme} {lower upper body : Expr R}
      {index : Char} (k : Aggregate) : Derivation .sum scope ks lower →
      Derivation .sum scope ls upper → isBound scope index = false →
      Derivation .sum (index :: scope) ms body →
      Derivation .atom scope
        (keyword (.aggregate k) :: lparen ::
          (ks ++ separator :: (ls ++ separator :: (ms ++ [separator, letter index]))) ++ [rparen])
        (.aggregate k lower upper body index)
  | power {scope : List Char} {ks : List Lexeme} {e : Expr R} : Derivation .atom scope ks e →
      Derivation .power scope ks e
  | pow {scope : List Char} {ks ls : List Lexeme} {a b : Expr R} : Derivation .atom scope ks a →
      Derivation .power scope ls b →
      Derivation .power scope (ks ++ operator .pow :: ls) (.binary .pow a b)
  | product {scope : List Char} {ks : List Lexeme} {e : Expr R} : Derivation .power scope ks e →
      Derivation .product scope ks e
  | factor {scope : List Char} {ks ls : List Lexeme} {a b : Expr R} {o : Operator} :
      isFactorOperator o = true → Derivation .product scope ks a → Derivation .power scope ls b →
      Derivation .product scope (ks ++ operator o :: ls) (.binary o a b)
  | sum {scope : List Char} {ks : List Lexeme} {e : Expr R} : Derivation .product scope ks e →
      Derivation .sum scope ks e
  | term {scope : List Char} {ks ls : List Lexeme} {a b : Expr R} {o : Operator} :
      o.isSign = true → Derivation .sum scope ks a → Derivation .product scope ls b →
      Derivation .sum scope (ks ++ operator o :: ls) (.binary o a b)

namespace Derivation

variable {l : Level}

/-- Levels that suffice to read what is derived: brackets, arguments, exponents and the links of a
chain each spend one. -/
def levels {l : Level} {scope : List Char} {ks : List Lexeme} {e : Expr R} :
    Derivation l scope ks e → Nat
  | number .. | constant .. | bound .. | unit .. => 0
  | parens d => d.levels + 1
  | call _ d => d.levels + 1
  | log d d' => max d.levels d'.levels + 1
  | aggregate _ d d' _ d'' => max d.levels (max d'.levels d''.levels) + 1
  | power d => d.levels
  | pow d d' => max d.levels (d'.levels + 1)
  | product d => d.levels
  | factor _ d d' => max (d.levels + 1) d'.levels
  | sum d => d.levels
  | term _ d d' => max (d.levels + 1) d'.levels

theorem ne_nil (d : Derivation l scope ks e) : ks ≠ [] := by
  induction d <;> simp_all

/-- An argument list is never cut inside of what is derived. -/
theorem joins (d : Derivation l scope ks e) (depth : Nat) : Joins depth ks := by
  induction d generalizing depth with
  | number | constant | bound | unit => exact joins_nil.cons rfl
  | parens _ ih => exact (ih _).parens
  | call f _ ih => exact (ih _).parens.cons rfl
  | log _ _ ih ih' => exact ((ih _).append (ih' _).separator).parens.cons rfl
  | aggregate k _ _ _ _ ih ih' ih'' =>
    have hindex (c : Char) : Joins (depth + 1) [separator, letter c] :=
      (joins_nil.cons rfl).separator
    have hbody (c : Char) := ((ih'' _).append (hindex c)).separator
    exact ((ih _).append ((ih' _).append (hbody _)).separator).parens.cons rfl
  | power _ ih | product _ ih | sum _ ih => exact ih depth
  | pow _ _ ih ih' | factor _ _ _ ih ih' | term _ _ _ ih ih' =>
    exact (ih depth).append ((ih' depth).cons rfl)

end Derivation

end ComplexSeries.Expr
