import ComplexSeries.Proofs.Expr.Levels
import ComplexSeries.Proofs.Expr.Reread

/-! Why a canonical spelling is refused. The checks on characters are made before a formula is spelled,
and what they ensure outlasts the spelling: it can be split into lexemes, its numbers are numerals and
its brackets are closed. So whatever is wrong with it is how its lexemes stand together. -/
namespace ComplexSeries

open Lexeme

variable {R : Type} [Scalar R]

theorem Scalar.read?_of_readable {digits : List Char} (h : (number digits).Readable) :
    Scalar.read? (R := R) digits ≠ none := by
  rw [Scalar.read?, Decimal.splitSign_of_readable h, Ne, Option.map_eq_none_iff]
  exact Decimal.magnitude?_of_readable h

/-- Nothing that can be found in a normal form concerns characters. -/
theorem Input.Normal.isLexical_eq_false_of_foundIn {declared : List Char} {rs : List Lexeme}
    (h : Normal declared rs) {cause : ParseError} (hfound : Expr.FoundIn R rs cause) :
    cause.isLexical = false := by
  cases cause with
  | malformedNumber digits =>
    obtain ⟨hmem, hread⟩ := hfound
    exact absurd hread (Scalar.read?_of_readable (h.admitted _ hmem).readable)
  | unbalancedBrackets =>
    obtain ⟨ks, hks, hnone⟩ := hfound
    exact absurd hnone (h.balanced.arguments?_ne_none hks)
  | _ => exact hfound

/-- Whatever a canonical spelling is refused for, with whatever limit, no character of it is the cause. -/
theorem isLexical_eq_false_of_read {typed spelled : String}
    (hspelled : canonical typed = .ok spelled) {limit : Nat} {cause : ParseError}
    (hread : Expr.read (R := R) limit spelled = .error cause) : cause.isLexical = false := by
  obtain ⟨declared, rs, hnormal, hne, hrender⟩ := exists_normal_of_canonical hspelled
  rw [Expr.read, hrender, Expr.parse_render hnormal.scanned] at hread
  have hgated := Expr.gated_ofLexemes (R := R) (le_refl limit) hne
  rw [hread] at hgated
  cases hgated with
  | tooDeep => rfl
  | error hfound => exact hnormal.isLexical_eq_false_of_foundIn hfound

/-- Bars and a point without a digit before it are spelled out, and an operand is still missing. -/
theorem isLexical_eq_false_of_read_bars :
    canonical "2|.5x|^" = .ok "2*abs(0.5*x)^" ∧
      Expr.read (R := Float) 9 "2*abs(0.5*x)^" = .error .unexpectedEnd ∧
      Expr.read (R := Float) 1 "2*abs(0.5*x)^" = .error (.nestingTooDeep 1) ∧
      ParseError.unexpectedEnd.isLexical = false ∧
      (ParseError.nestingTooDeep 1).isLexical = false := by
  have hspelled : canonical "2|.5x|^" = .ok "2*abs(0.5*x)^" := by rfl
  have hscan : scan "2*abs(0.5*x)^".toList = .ok [number ['2'], operator .mul,
      keyword (.function .abs), lparen, number ['0', '.', '5'], operator .mul, letter 'x', rparen,
      operator .pow] := by rfl
  have hend : Expr.read (R := Float) 9 "2*abs(0.5*x)^" = .error .unexpectedEnd := by
    rw [Expr.read, Expr.parse, hscan]
    rfl
  have hdeep : Expr.read (R := Float) 1 "2*abs(0.5*x)^" = .error (.nestingTooDeep 1) := by
    rw [Expr.read, Expr.parse, hscan]
    rfl
  exact ⟨hspelled, hend, hdeep, isLexical_eq_false_of_read hspelled hend,
    isLexical_eq_false_of_read hspelled hdeep⟩

end ComplexSeries
