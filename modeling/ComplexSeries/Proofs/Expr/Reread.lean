import ComplexSeries.Proofs.Double.Laws
import ComplexSeries.Proofs.Expr.Normal
import ComplexSeries.Proofs.Expr.Reader
import ComplexSeries.Proofs.Expr.Spelled

/-! Reading the bracketed spelling of a tree. A tree that was read holds two kinds of literals: numbers
not below zero, which are spelled as they are, and the imaginary unit, which is spelled as one times
itself. The spelling of such a tree is canonical, and what is read from it is the tree again, with
its units multiplied by one. -/
namespace ComplexSeries.Expr

open Lexeme
open Scalar (zero one LawfulText)

variable {R : Type} [Scalar R] [LawfulText R]

/-! ### What has been read -/

/-- A literal that lexemes give: the imaginary unit, where no index has its name, or a number. -/
def LiteralOf (ks : List Lexeme) (p : List Char × Complex R) : Prop :=
  (p.2 = .imaginaryUnit ∧ isBound p.1 'i' = false) ∨
    ∃ digits a, number digits ∈ ks ∧ Scalar.read? digits = some a ∧ Scalar.isFinite a = true ∧
      p.2 = .ofReal a

omit [LawfulText R] in
theorem LiteralOf.mono {ks ls : List Lexeme} {p : List Char × Complex R} (h : LiteralOf ks p)
    (hsub : ∀ k ∈ ks, k ∈ ls) : LiteralOf ls p :=
  h.imp_right fun ⟨digits, a, hmem, h⟩ => ⟨digits, a, hsub _ hmem, h⟩

namespace Derivation

variable {l : Level} {scope : List Char} {ks : List Lexeme} {e : Expr R}

theorem checkScope (d : Derivation l scope ks e) : e.checkScope scope = .ok () := by
  induction d with
  | number _ hfinite =>
    apply checkScope_const_iff.2
    simp [Complex.isFinite, Complex.ofReal, hfinite, LawfulText.isFinite_zero]
  | constant => rfl
  | bound h => exact checkScope_var_iff.2 h
  | unit =>
    apply checkScope_const_iff.2
    simp [Complex.isFinite, Complex.imaginaryUnit, LawfulText.isFinite_zero, LawfulText.isFinite_one]
  | parens _ ih | power _ ih | product _ ih | sum _ ih => exact ih
  | call f _ ih => exact ih
  | log _ _ ih ih' => exact checkScope_log_iff.2 ⟨ih, ih'⟩
  | aggregate _ _ _ hindex _ ih ih' ih'' => exact checkScope_aggregate_iff.2 ⟨ih, ih', hindex, ih''⟩
  | pow _ _ ih ih' | factor _ _ _ ih ih' | term _ _ _ ih ih' => exact checkScope_binary_iff.2 ⟨ih, ih'⟩

omit [LawfulText R] in
theorem mem_of_mem_names (d : Derivation l scope ks e) {c : Char} (hc : c ∈ e.names) :
    letter c ∈ ks := by
  induction d with
  | number | constant | unit => simp [names] at hc
  | bound =>
    rw [names, List.mem_singleton] at hc
    rw [hc]
    exact List.mem_singleton_self _
  | power _ ih | product _ ih | sum _ ih => exact ih hc
  | parens _ ih | call _ _ ih => simp [ih hc]
  | log _ _ ih ih' | pow _ _ ih ih' | factor _ _ _ ih ih' | term _ _ _ ih ih' =>
    rw [names, List.mem_append] at hc
    rcases hc with hc | hc
    · simp [ih hc]
    · simp [ih' hc]
  | aggregate _ _ _ _ _ ih ih' ih'' =>
    simp only [names, List.mem_append, List.mem_singleton] at hc
    rcases hc with hc | hc | hc | hc
    · simp [ih hc]
    · simp [ih' hc]
    · simp [ih'' hc]
    · simp [hc]

omit [LawfulText R] in
theorem literalOf (d : Derivation l scope ks e) : ∀ p ∈ e.literalsIn scope, LiteralOf ks p := by
  induction d with
  | number hread hfinite =>
    rw [literalsIn, List.forall_mem_singleton]
    exact .inr ⟨_, _, List.mem_singleton_self _, hread, hfinite, rfl⟩
  | constant | bound => simp [literalsIn]
  | unit h =>
    rw [literalsIn, List.forall_mem_singleton]
    exact .inl ⟨rfl, h⟩
  | power _ ih | product _ ih | sum _ ih => exact ih
  | parens _ ih | call _ _ ih =>
    intro p hp
    exact (ih p hp).mono fun k hk => by simp [hk]
  | log _ _ ih ih' | pow _ _ ih ih' | factor _ _ _ ih ih' | term _ _ _ ih ih' =>
    intro p hp
    rw [literalsIn, List.mem_append] at hp
    rcases hp with hp | hp
    · exact (ih p hp).mono fun k hk => by simp [hk]
    · exact (ih' p hp).mono fun k hk => by simp [hk]
  | aggregate _ _ _ _ _ ih ih' ih'' =>
    intro p hp
    rw [literalsIn, List.mem_append, List.mem_append] at hp
    rcases hp with hp | hp | hp
    · exact (ih p hp).mono fun k hk => by simp [hk]
    · exact (ih' p hp).mono fun k hk => by simp [hk]
    · exact (ih'' p hp).mono fun k hk => by simp [hk]

end Derivation

/-- A finite number that has been read is that of a decimal without sign. -/
theorem exists_ofDecimal_of_read? {digits : List Char} {a : R} (hdigits : (number digits).Readable)
    (hread : Scalar.read? digits = some a) (ha : Scalar.isFinite a = true) :
    ∃ d, a = Scalar.ofDecimal d := by
  rw [Scalar.read?, Decimal.splitSign_of_readable hdigits] at hread
  obtain ⟨m, -, rfl⟩ := Option.map_eq_some_iff.1 hread
  cases m with
  | missing =>
    have := LawfulText.isFinite_missing (R := R)
    simp_all [Scalar.ofMagnitude]
  | infinite =>
    have := LawfulText.isFinite_infinity (R := R)
    simp_all [Scalar.ofMagnitude]
  | finite d => exact ⟨d, rfl⟩

/-! ### Reading a spelling -/

variable {e : Expr R} {limit : Nat}

omit [LawfulText R] in
theorem parse_render {ls : List Lexeme} (h : Scanned (render ls) ls) :
    parse (R := R) limit (render ls) = ofLexemes limit ls := by
  rw [parse, h.scan_eq]
  rfl

omit [LawfulText R] in
theorem toList_text (e : Expr R) : e.text.toList = render e.lexemes := by
  rw [text, String.toList_ofList, render_lexemes]

omit [LawfulText R] in
/-- What an operand derives is read from its rendering, with a level more than that takes. -/
theorem read_of_derivedWithin {n : Nat} {ls : List Lexeme} {s : String} (hs : s.toList = render ls)
    (hread : ∀ l ∈ ls, l.Readable) (hderived : DerivedWithin n .atom [] ls e) (hlevels : n < limit)
    (hheight : e.height ≤ limit) : read limit s = .ok e := by
  obtain ⟨d, hd⟩ := hderived
  have hscanned : Scanned (render ls) ls :=
    scanned_render hread (d.fits.isChain.of_cons.imp fun _ _ hab => ⟨hab.apart, hab.parted⟩)
  have hsum : (Derivation.sum (.product (.power d))).levels < limit := by
    simp only [Derivation.levels]
    omega
  rw [read, hs, parse_render hscanned]
  exact (Derivation.sum (.product (.power d))).ofLexemes_eq hsum (e.depth_eq_height ▸ hheight)

/-- Whatever tree has names and literals that can be read is read back with its literals as the sums
that they are written as. -/
theorem read_text (hscope : e.checkScope [] = .ok ()) (hnames : ∀ c ∈ e.names, (letter c).Readable)
    (hlegible : ∀ p ∈ e.literalsIn [], p.2.Legible) (hlimit : 2 * e.depth + 4 ≤ limit) :
    read limit e.text = .ok (e.spelledIn []) := by
  have hread : ∀ l ∈ e.lexemes, l.Readable :=
    readable_lexemes (isFinite_of_mem_literalsIn hscope) hnames
  have hheight := height_spelledIn_le e []
  rw [depth_eq_height] at hlimit
  exact read_of_derivedWithin (toList_text e) hread (derivedWithin_lexemes hscope hlegible)
    (by omega) (by omega)

omit [Scalar.LawfulText R] in
theorem markLetter_not_mem_lexemes (z : Complex R) : letter 'E' ∉ z.lexemes := by
  have hlead : ∀ a : R, ∀ term : List Lexeme, letter 'E' ∉ term →
      letter 'E' ∉ Complex.leadLexemes a term := by
    intro a term hterm
    unfold Complex.leadLexemes
    split <;> simp [hterm]
  have hunit : letter 'E' ∉ Complex.imaginaryLexemes z.im := by simp [Complex.imaginaryLexemes]
  unfold Complex.lexemes
  split_ifs <;> simp [hlead, hunit]

theorem canonical_text (hscope : e.checkScope [] = .ok ())
    (hnames : ∀ c ∈ e.names, (letter c).Readable ∧ c ≠ 'E')
    (hlegible : ∀ p ∈ e.literalsIn [], p.2.Legible) : canonical e.text = .ok e.text := by
  obtain ⟨d, -⟩ := derivedWithin_lexemes hscope hlegible
  have hread : ∀ l ∈ e.lexemes, l.Readable :=
    readable_lexemes (isFinite_of_mem_literalsIn hscope) fun c hc => (hnames c hc).1
  have hliterals : ∀ p ∈ e.literalsIn [], ∀ l ∈ p.2.lexemes, l ≠ letter 'E' := by
    rintro ⟨_, z⟩ - l hl rfl
    exact markLetter_not_mem_lexemes z hl
  have hletters : ∀ l ∈ e.lexemes, l ≠ letter 'E' := by
    refine forall_mem_lexemes (fun l _ hletter => hletter 'E') (fun c hc h => ?_) hliterals
    exact (hnames c hc).2 (letter.inj h)
  have hnormal := d.normal hread fun h => hletters _ h rfl
  rw [canonical, toList_text, hnormal.canonicalLetters_render d.ne_nil, render_lexemes]
  rfl

/-! ### A tree that was read -/

/-- The tree with each imaginary unit multiplied by one. -/
def unitProducts (e : Expr R) : Expr R :=
  e.mapLiterals
    (fun _ z => if z == .imaginaryUnit then .binary .mul (.ofInt 1) (.const .imaginaryUnit) else .const z)
    []

theorem tree_ofReal (unit : Expr R) {a : R} (hfinite : Scalar.isFinite a = true)
    (hdecimal : ∃ d, a = Scalar.ofDecimal d) : (Complex.ofReal a).tree unit = .const (.ofReal a) := by
  obtain ⟨d, rfl⟩ := hdecimal
  have hzero := LawfulText.zero_beq_zero (R := R)
  rcases LawfulText.ofDecimal_cases d hfinite with h | h
  · simp only [Complex.tree, Complex.ofReal, h, hzero, Bool.and_self, if_true]
    rfl
  · have hne := LawfulText.beq_zero_of_zero_lt h
    simp only [Complex.tree, Complex.ofReal, Complex.leadTree, Complex.realTree, hzero, hne, h,
      LawfulText.abs_ofDecimal, Bool.false_and, Bool.false_eq_true, if_false, if_true]

theorem tree_imaginaryUnit (unit : Expr R) :
    (Complex.imaginaryUnit : Complex R).tree unit = .binary .mul (.ofInt 1) unit := by
  have hzero := LawfulText.zero_beq_zero (R := R)
  have hone := LawfulText.zero_lt_one (R := R)
  have hne := LawfulText.beq_zero_of_zero_lt hone
  simp only [Complex.tree, Complex.imaginaryUnit, Complex.leadTree, Complex.imaginaryTree,
    Complex.realTree, hzero, hone, hne, LawfulText.abs_one, Bool.and_false, Bool.false_eq_true, if_false,
    if_true]
  rfl

theorem spelledIn_eq_unitProducts {ls : List Lexeme} (d : Derivation .sum [] ls e)
    (hread : ∀ l ∈ ls, l.Readable) : e.spelledIn [] = e.unitProducts := by
  apply mapLiterals_eq_iff.2
  rintro ⟨scope, z⟩ hp
  rcases d.literalOf _ hp with ⟨rfl, hbound⟩ | ⟨digits, a, hmem, ha, hfinite, rfl⟩
  · have hself : ((Complex.imaginaryUnit : Complex R) == .imaginaryUnit) = true :=
      Bool.and_eq_true_iff.2 ⟨LawfulText.zero_beq_zero, LawfulText.one_beq_one⟩
    rw [tree_imaginaryUnit, letterTree, hbound, if_pos hself]
    rfl
  · have hne : (Complex.ofReal a == Complex.imaginaryUnit) = false :=
      Bool.and_eq_false_iff.2 (.inr LawfulText.zero_beq_one)
    have hdecimal := exists_ofDecimal_of_read? (hread _ hmem) ha hfinite
    rw [tree_ofReal _ hfinite hdecimal, hne]
    rfl

end ComplexSeries.Expr

namespace ComplexSeries

open Lexeme

variable {R : Type} [Scalar R] [Scalar.LawfulText R]

omit [Scalar.LawfulText R] in
/-- A canonical spelling that has been read is the rendering of lexemes in normal form, and what was
read is the tree that they derive. -/
theorem exists_normal_of_read {typed spelled : String} {limit : Nat} {e : Expr R}
    (hspelled : canonical typed = .ok spelled) (hread : Expr.read limit spelled = .ok e) :
    ∃ declared ls, Input.Normal declared ls ∧ Nonempty (Expr.Derivation .sum [] ls e) := by
  obtain ⟨declared, rs, hnormal, -, hrender⟩ := exists_normal_of_canonical hspelled
  rw [Expr.read, hrender, Expr.parse_render hnormal.scanned] at hread
  exact ⟨declared, rs, hnormal, Expr.exists_derivation_of_ofLexemes hread⟩

/-- The bracketed spelling of a tree that was read from a canonical spelling is canonical, and is read
as that tree with its imaginary units multiplied by one, if its literals read back. -/
theorem canonical_and_read_text {typed spelled : String} {limit : Nat} {e : Expr R}
    (hspelled : canonical typed = .ok spelled) (hread : Expr.read limit spelled = .ok e)
    (hlegible : ∀ p ∈ e.literalsIn [], p.2.Legible) :
    canonical e.text = .ok e.text ∧
      ∀ limit', 2 * e.depth + 4 ≤ limit' → Expr.read limit' e.text = .ok e.unitProducts := by
  obtain ⟨declared, ls, hnormal, ⟨d⟩⟩ := exists_normal_of_read hspelled hread
  have hreadable : ∀ l ∈ ls, l.Readable := fun l hl => (hnormal.admitted l hl).readable
  have hnames : ∀ c ∈ e.names, (letter c).Readable ∧ c ≠ 'E' := by
    intro c hc
    have hadmitted := hnormal.admitted _ (d.mem_of_mem_names hc)
    exact ⟨hadmitted.readable, (hadmitted.allowed c rfl).1⟩
  refine ⟨Expr.canonical_text d.checkScope hnames hlegible, fun limit' hlimit => ?_⟩
  rw [← Expr.spelledIn_eq_unitProducts d hreadable]
  exact Expr.read_text d.checkScope (fun c hc => (hnames c hc).1) hlegible hlimit

theorem canonical_and_read_text_unit :
    let e : Expr Float :=
      .binary .add (.binary .mul (.const (.ofReal 2)) (.const .imaginaryUnit)) (.call .sin (.var 'x'))
    canonical "2i+sin(x)" = .ok "2*i+sin(x)" ∧ Expr.read 4 "2*i+sin(x)" = .ok e ∧
      (∀ p ∈ e.literalsIn [], p.2.Legible) ∧ canonical e.text = .ok e.text ∧
      ∀ limit', 2 * e.depth + 4 ≤ limit' → Expr.read limit' e.text = .ok e.unitProducts := by
  intro e
  have hspelled : canonical "2i+sin(x)" = .ok "2*i+sin(x)" := by rfl
  have hscan : scan "2*i+sin(x)".toList = .ok [number ['2'], operator .mul, letter 'i',
      operator .add, keyword (.function .sin), lparen, letter 'x', rparen] := by rfl
  have hread : Expr.read 4 "2*i+sin(x)" = .ok e :=
    Expr.read_of_scan hscan (Expr.ofLexemes_of_sum (List.cons_ne_nil _ _) rfl (by decide))
  have hlegible : ∀ p ∈ e.literalsIn [], p.2.Legible := by
    have hzero : Scalar.Legible (Scalar.zero : Float) := by rfl
    have hone : Scalar.Legible (Scalar.one : Float) := by rfl
    have htwo : Scalar.Legible (2 : Float) := by rfl
    intro p hp
    have hp : p = ([], .ofReal 2) ∨ p = ([], .imaginaryUnit) := by
      simpa [e, Expr.literalsIn] using hp
    rcases hp with rfl | rfl
    · exact ⟨htwo, hzero⟩
    · exact ⟨hzero, hone⟩
  exact ⟨hspelled, hread, hlegible, canonical_and_read_text hspelled hread hlegible⟩

end ComplexSeries
