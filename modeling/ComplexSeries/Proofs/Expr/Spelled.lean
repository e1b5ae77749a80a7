import ComplexSeries.Proofs.Expr.Height
import ComplexSeries.Proofs.Expr.Literal
import ComplexSeries.Proofs.Expr.Scope

/-! The bracketed spelling of a tree derives a tree again: the same one, except that each literal has
become the small sum it is written as. In such a sum the letter of the imaginary unit is read where
the literal stands, so it is the unit unless an index of that name is in scope there. -/
namespace ComplexSeries.Expr

open Lexeme
open Scalar (zero)

variable {R : Type}

/-! ### Literals where they stand -/

/-- The literals of a tree, each with the indices in scope where it stands. -/
def literalsIn (scope : List Char) : Expr R → List (List Char × Complex R)
  | const z => [(scope, z)]
  | constant _ | var _ => []
  | binary _ a b | log a b => a.literalsIn scope ++ b.literalsIn scope
  | call _ a => a.literalsIn scope
  | aggregate _ lower upper body index =>
    lower.literalsIn scope ++ (upper.literalsIn scope ++ body.literalsIn (index :: scope))

/-- Replaces each literal by a tree that may depend on where it stands. -/
def mapLiterals (f : List Char → Complex R → Expr R) (scope : List Char) : Expr R → Expr R
  | const z => f scope z
  | constant c => constant c
  | var name => var name
  | binary o a b => binary o (a.mapLiterals f scope) (b.mapLiterals f scope)
  | log a b => log (a.mapLiterals f scope) (b.mapLiterals f scope)
  | call g a => call g (a.mapLiterals f scope)
  | aggregate k lower upper body index =>
    aggregate k (lower.mapLiterals f scope) (upper.mapLiterals f scope)
      (body.mapLiterals f (index :: scope)) index

variable {scope : List Char} {e : Expr R}

theorem mapLiterals_eq_iff {f g : List Char → Complex R → Expr R} :
    e.mapLiterals f scope = e.mapLiterals g scope ↔
      ∀ p ∈ e.literalsIn scope, f p.1 p.2 = g p.1 p.2 := by
  induction e generalizing scope with
  | const z => simp [mapLiterals, literalsIn]
  | constant | var => simp [mapLiterals, literalsIn]
  | binary o a b iha ihb | log a b iha ihb =>
    simp only [mapLiterals, literalsIn, List.forall_mem_append, ← iha, ← ihb]
    simp
  | call h a ih => simpa [mapLiterals, literalsIn] using ih
  | aggregate k lower upper body index ihl ihu ihb =>
    simp only [mapLiterals, literalsIn, List.forall_mem_append, ← ihl, ← ihu, ← ihb]
    simp

/-- The names of variables and indices. -/
def names : Expr R → List Char
  | const _ | constant _ => []
  | var name => [name]
  | binary _ a b | log a b => a.names ++ b.names
  | call _ a => a.names
  | aggregate _ lower upper body index => lower.names ++ (upper.names ++ (body.names ++ [index]))

variable [Scalar R]

theorem isFinite_of_mem_literalsIn (h : e.checkScope scope = .ok ()) :
    ∀ p ∈ e.literalsIn scope, p.2.isFinite = true := by
  induction e generalizing scope with
  | const z => simpa [literalsIn] using checkScope_const_iff.1 h
  | constant | var => simp [literalsIn]
  | binary o a b iha ihb =>
    rw [checkScope_binary_iff] at h
    exact List.forall_mem_append.2 ⟨iha h.1, ihb h.2⟩
  | log a b iha ihb =>
    rw [checkScope_log_iff] at h
    exact List.forall_mem_append.2 ⟨iha h.1, ihb h.2⟩
  | call f a ih => exact ih h
  | aggregate k lower upper body index ihl ihu ihb =>
    obtain ⟨hl, hu, -, hb⟩ := checkScope_aggregate_iff.1 h
    exact List.forall_mem_append.2 ⟨ihl hl, List.forall_mem_append.2 ⟨ihu hu, ihb hb⟩⟩

/-! ### The spelling in lexemes -/

def lexemes : Expr R → List Lexeme
  | const z => lparen :: z.lexemes ++ [rparen]
  | constant c => [keyword (.constant c)]
  | var name => [letter name]
  | binary o a b => lparen :: (a.lexemes ++ operator o :: b.lexemes) ++ [rparen]
  | call f a => keyword (.function f) :: lparen :: a.lexemes ++ [rparen]
  | log a b => keyword .log :: lparen :: (a.lexemes ++ separator :: b.lexemes) ++ [rparen]
  | aggregate k lower upper body index =>
    keyword (.aggregate k) :: lparen ::
      (lower.lexemes ++ separator :: (upper.lexemes ++ separator ::
        (body.lexemes ++ [separator, letter index]))) ++ [rparen]

theorem render_lexemes (e : Expr R) : render e.lexemes = e.letters := by
  induction e with
  | const z => exact z.render_lexemes
  | constant c => exact List.append_nil _
  | var name => rfl
  | binary o a b iha ihb =>
    simp [lexemes, letters, Lexeme.letters, iha, ihb]
  | call f a ih =>
    simp [lexemes, letters, Lexeme.letters, Keyword.letters, ih]
  | log a b iha ihb =>
    simp [lexemes, letters, Lexeme.letters, Keyword.letters, iha, ihb]
  | aggregate k lower upper body index ihl ihu ihb =>
    simp [lexemes, letters, Lexeme.letters, Keyword.letters, ihl, ihu, ihb]

theorem readable_leadLexemes {term : List Lexeme} (h : ∀ l ∈ term, l.Readable) (a : R) :
    ∀ l ∈ Complex.leadLexemes a term, l.Readable := by
  unfold Complex.leadLexemes
  split
  · exact h
  · exact List.forall_mem_cons.2 ⟨Decimal.readable_zero, List.forall_mem_cons.2 ⟨trivial, h⟩⟩

theorem readable_literal [Scalar.LawfulText R] {z : Complex R} (hz : z.isFinite = true) :
    ∀ l ∈ z.lexemes, l.Readable := by
  obtain ⟨hre, him⟩ : Scalar.isFinite z.re = true ∧ Scalar.isFinite z.im = true := by
    simpa [Complex.isFinite] using hz
  have hletter : (letter 'i').Readable := ⟨by decide, by decide⟩
  have hreal : ∀ l ∈ [number (Complex.digits z.re)], l.Readable :=
    List.forall_mem_singleton.2 (readable_digits hre)
  have himaginary : ∀ l ∈ Complex.imaginaryLexemes z.im, l.Readable := by
    simpa [Complex.imaginaryLexemes, hletter] using ⟨readable_digits him, trivial⟩
  unfold Complex.lexemes
  split_ifs
  · exact List.forall_mem_singleton.2 Decimal.readable_zero
  · exact readable_leadLexemes hreal z.re
  · exact readable_leadLexemes himaginary z.im
  · refine List.forall_mem_append.2 ⟨readable_leadLexemes hreal z.re, ?_⟩
    exact List.forall_mem_cons.2 ⟨trivial, himaginary⟩

/-- Beside literals and names, a spelling holds brackets, separators, operators and keywords. -/
theorem forall_mem_lexemes {P : Lexeme → Prop}
    (hplain : ∀ l, (∀ ds, l ≠ number ds) → (∀ c, l ≠ letter c) → P l)
    (hnames : ∀ c ∈ e.names, P (letter c))
    (hliterals : ∀ p ∈ e.literalsIn scope, ∀ l ∈ p.2.lexemes, P l) : ∀ l ∈ e.lexemes, P l := by
  have hopen : P lparen := hplain _ (by simp) (by simp)
  have hclose : P rparen := hplain _ (by simp) (by simp)
  have hseparator : P separator := hplain _ (by simp) (by simp)
  have hoperator : ∀ o, P (operator o) := fun o => hplain _ (by simp) (by simp)
  have hkeyword : ∀ k, P (keyword k) := fun k => hplain _ (by simp) (by simp)
  induction e generalizing scope with
  | const z =>
    have hz : ∀ l ∈ z.lexemes, P l := hliterals (scope, z) List.mem_cons_self
    simp only [lexemes, List.cons_append, List.forall_mem_cons, List.forall_mem_append,
      List.not_mem_nil, false_imp_iff, implies_true, and_true]
    exact ⟨hopen, hz, hclose⟩
  | constant c => exact List.forall_mem_singleton.2 (hkeyword _)
  | var name => exact List.forall_mem_singleton.2 (hnames name List.mem_cons_self)
  | binary o a b iha ihb =>
    simp only [literalsIn, names, List.forall_mem_append] at hliterals hnames
    simp only [lexemes, List.cons_append, List.forall_mem_cons, List.forall_mem_append,
      List.not_mem_nil, false_imp_iff, implies_true, and_true]
    exact ⟨hopen, ⟨iha hnames.1 hliterals.1, hoperator o, ihb hnames.2 hliterals.2⟩, hclose⟩
  | call f a ih =>
    simp only [lexemes, List.cons_append, List.forall_mem_cons, List.forall_mem_append,
      List.not_mem_nil, false_imp_iff, implies_true, and_true]
    exact ⟨hkeyword _, hopen, ih hnames hliterals, hclose⟩
  | log a b iha ihb =>
    simp only [literalsIn, names, List.forall_mem_append] at hliterals hnames
    simp only [lexemes, List.cons_append, List.forall_mem_cons, List.forall_mem_append,
      List.not_mem_nil, false_imp_iff, implies_true, and_true]
    exact ⟨hkeyword _, hopen,
      ⟨iha hnames.1 hliterals.1, hseparator, ihb hnames.2 hliterals.2⟩, hclose⟩
  | aggregate k lower upper body index ihl ihu ihb =>
    simp only [literalsIn, names, List.forall_mem_append, List.forall_mem_singleton] at hliterals hnames
    obtain ⟨hnl, hnu, hnb, hindex⟩ := hnames
    have hl := ihl hnl hliterals.1
    have hu := ihu hnu hliterals.2.1
    have hb := ihb hnb hliterals.2.2
    simp only [lexemes, List.cons_append, List.forall_mem_cons, List.forall_mem_append,
      List.not_mem_nil, false_imp_iff, implies_true, and_true]
    exact ⟨hkeyword _, hopen, ⟨hl, hseparator, hu, hseparator, hb, hseparator, hindex⟩, hclose⟩

theorem readable_of_ne {l : Lexeme} (hnumber : ∀ ds, l ≠ number ds) (hletter : ∀ c, l ≠ letter c) :
    l.Readable := by
  cases l with
  | number ds => exact absurd rfl (hnumber ds)
  | letter c => exact absurd rfl (hletter c)
  | _ => trivial

theorem readable_lexemes [Scalar.LawfulText R] (hfinite : ∀ p ∈ e.literalsIn scope, p.2.isFinite = true)
    (hnames : ∀ c ∈ e.names, (letter c).Readable) : ∀ l ∈ e.lexemes, l.Readable :=
  forall_mem_lexemes (fun _ => readable_of_ne) hnames fun p hp => readable_literal (hfinite p hp)

/-! ### The tree that the spelling derives -/

/-- What the letter `i` stands for. -/
def letterTree (scope : List Char) : Expr R :=
  if isBound scope 'i' then .var 'i' else .const .imaginaryUnit

/-- The tree with its literals read where they stand. -/
def spelledIn (scope : List Char) (e : Expr R) : Expr R :=
  e.mapLiterals (fun scope z => z.tree (letterTree scope)) scope

theorem derivedWithin_letter (scope : List Char) :
    DerivedWithin (R := R) 0 .atom scope [letter 'i'] (letterTree scope) := by
  unfold letterTree
  split
  · next h => exact ⟨.bound h, le_rfl⟩
  · next h => exact ⟨.unit (Bool.eq_false_iff.2 h), le_rfl⟩

namespace DerivedWithin

variable {l m n : Nat} {js ks ls : List Lexeme} {a b c : Expr R}

theorem binary {o : Operator} (ha : DerivedWithin m .atom scope ks a)
    (hb : DerivedWithin n .atom scope ls b) :
    DerivedWithin (max m n + 1) .sum scope (ks ++ operator o :: ls) (.binary o a b) := by
  obtain ⟨d, hd⟩ := ha
  obtain ⟨d', hd'⟩ := hb
  have hterm (ho : o.isSign = true) :
      DerivedWithin (max m n + 1) .sum scope (ks ++ operator o :: ls) (.binary o a b) := by
    refine ⟨.term ho (.sum (.product (.power d))) (.product (.power d')), ?_⟩
    simp only [Derivation.levels]
    omega
  have hfactor (ho : isFactorOperator o = true) :
      DerivedWithin (max m n + 1) .sum scope (ks ++ operator o :: ls) (.binary o a b) := by
    refine ⟨.sum (.factor ho (.product (.power d)) (.power d')), ?_⟩
    simp only [Derivation.levels]
    omega
  cases o with
  | add | sub => exact hterm rfl
  | mul | div => exact hfactor rfl
  | pow =>
    refine ⟨.sum (.product (.pow d (.power d'))), ?_⟩
    simp only [Derivation.levels]
    omega

theorem call (f : Function) (ha : DerivedWithin n .sum scope ks a) :
    DerivedWithin (n + 1) .atom scope (keyword (.function f) :: lparen :: ks ++ [rparen])
      (.call f a) :=
  let ⟨d, hd⟩ := ha
  ⟨.call f d, Nat.succ_le_succ hd⟩

theorem log (ha : DerivedWithin m .sum scope ks a) (hb : DerivedWithin n .sum scope ls b) :
    DerivedWithin (max m n + 1) .atom scope
      (keyword .log :: lparen :: (ks ++ separator :: ls) ++ [rparen]) (.log a b) := by
  obtain ⟨d, hd⟩ := ha
  obtain ⟨d', hd'⟩ := hb
  refine ⟨.log d d', ?_⟩
  simp only [Derivation.levels]
  omega

theorem aggregate (k : Aggregate) {index : Char} (ha : DerivedWithin l .sum scope js a)
    (hb : DerivedWithin m .sum scope ks b) (hindex : isBound scope index = false)
    (hc : DerivedWithin n .sum (index :: scope) ls c) :
    DerivedWithin (max l (max m n) + 1) .atom scope
      (keyword (.aggregate k) :: lparen ::
        (js ++ separator :: (ks ++ separator :: (ls ++ [separator, letter index]))) ++ [rparen])
      (.aggregate k a b c index) := by
  obtain ⟨d, hd⟩ := ha
  obtain ⟨d', hd'⟩ := hb
  obtain ⟨d'', hd''⟩ := hc
  refine ⟨.aggregate k d d' hindex d'', ?_⟩
  simp only [Derivation.levels]
  omega

end DerivedWithin

/-- Two levels for each node on the way to a literal, and three for the literal. -/
theorem derivedWithin_lexemes [Scalar.LawfulText R] (h : e.checkScope scope = .ok ())
    (hread : ∀ p ∈ e.literalsIn scope, p.2.Legible) :
    DerivedWithin (2 * e.height + 1) .atom scope e.lexemes (e.spelledIn scope) := by
  induction e generalizing scope with
  | const z =>
    have hz := checkScope_const_iff.1 h
    exact derivedWithin_literal hz (hread (scope, z) List.mem_cons_self) (derivedWithin_letter scope)
  | constant c => exact ⟨.constant c, Nat.zero_le _⟩
  | var name => exact ⟨.bound (checkScope_var_iff.1 h), Nat.zero_le _⟩
  | binary o a b iha ihb =>
    obtain ⟨ha, hb⟩ := checkScope_binary_iff.1 h
    obtain ⟨hra, hrb⟩ := List.forall_mem_append.1 hread
    apply ((iha ha hra).binary (ihb hb hrb)).parens.mono
    rw [height]
    omega
  | call f a ih =>
    apply ((ih h hread).product.sum.call f).mono
    rw [height]
    omega
  | log a b iha ihb =>
    obtain ⟨ha, hb⟩ := checkScope_log_iff.1 h
    obtain ⟨hra, hrb⟩ := List.forall_mem_append.1 hread
    apply ((iha ha hra).product.sum.log (ihb hb hrb).product.sum).mono
    rw [height]
    omega
  | aggregate k lower upper body index ihl ihu ihb =>
    obtain ⟨hl, hu, hi, hb⟩ := checkScope_aggregate_iff.1 h
    simp only [literalsIn, List.forall_mem_append] at hread
    have hlower := (ihl hl hread.1).product.sum
    have hupper := (ihu hu hread.2.1).product.sum
    have hbody := (ihb hb hread.2.2).product.sum
    apply (hlower.aggregate k hupper hi hbody).mono
    rw [height]
    omega

theorem height_letterTree (scope : List Char) : (letterTree scope : Expr R).height = 1 := by
  unfold letterTree
  split <;> rfl

theorem height_literalTree_le (unit : Expr R) (hunit : unit.height = 1) (z : Complex R) :
    (z.tree unit).height ≤ 3 := by
  unfold Complex.tree Complex.leadTree
  split_ifs <;>
    simp [Complex.imaginaryTree, Complex.realTree, neg, ofInt, height, hunit]

/-- A literal becomes a tree that is at most two higher. -/
theorem height_spelledIn_le (e : Expr R) (scope : List Char) :
    (e.spelledIn scope).height ≤ e.height + 2 := by
  unfold spelledIn
  induction e generalizing scope with
  | const z => exact height_literalTree_le _ (height_letterTree scope) z
  | constant | var => exact Nat.le_add_right 1 2
  | binary o a b iha ihb | log a b iha ihb =>
    have ha := iha scope
    have hb := ihb scope
    simp only [mapLiterals, height]
    omega
  | call f a ih =>
    have ha := ih scope
    simp only [mapLiterals, height]
    omega
  | aggregate k lower upper body index ihl ihu ihb =>
    have hl := ihl scope
    have hu := ihu scope
    have hb := ihb (index :: scope)
    simp only [mapLiterals, height]
    omega

end ComplexSeries.Expr
