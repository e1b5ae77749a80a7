import ComplexSeries.Proofs.Expr.Fold
import ComplexSeries.Proofs.Expr.Reread

/-! Folding from spelling to spelling. What is read from the spelling of a folded tree is the folded
tree with its literals as sums, read where they stand. A literal with an imaginary part that has been
found inside the scope of an index `i` is spelled with that letter, and there it is read as the index:
then, and only then, the spelling has another meaning than the tree. -/
namespace ComplexSeries.Expr

open Lexeme
open Scalar (zero LawfulText)
open Integral (Memory)

variable {R : Type} [Scalar R] {settings : Settings R} {e e' : Expr R}

namespace Folded

/-- Folding brings in no names. -/
theorem mem_names (h : Folded settings e e') {c : Char} (hc : c ∈ e'.names) : c ∈ e.names := by
  induction h with
  | own => simp [names] at hc
  | leaf => exact hc
  | binary _ _ _ ih ih' | log _ _ ih ih' =>
    rw [names, List.mem_append] at hc ⊢
    exact hc.imp ih ih'
  | call _ _ ih => exact ih hc
  | aggregate _ _ _ _ _ ih ih' ih'' =>
    simp only [names, List.mem_append] at hc ⊢
    exact hc.imp ih (Or.imp ih' (Or.imp_left ih''))

end Folded

/-- The tree with its literals as sums, the letter in them being the imaginary unit everywhere. -/
def spelled (e : Expr R) : Expr R := e.mapLiterals (fun _ z => z.tree (.const .imaginaryUnit)) []

/-- Only an imaginary part makes the letter appear. -/
theorem tree_eq_tree_iff {unit unit' : Expr R} (h : unit ≠ unit') (z : Complex R) :
    z.tree unit = z.tree unit' ↔ (z.im == zero) = true := by
  have himaginary : ∀ a : R, Complex.imaginaryTree unit a ≠ Complex.imaginaryTree unit' a :=
    fun a heq => h (binary.inj heq).2.2
  have hlead : ∀ a b : R, Complex.leadTree a (Complex.imaginaryTree unit b) ≠
      Complex.leadTree a (Complex.imaginaryTree unit' b) := by
    intro a b heq
    unfold Complex.leadTree at heq
    split at heq
    · exact himaginary b heq
    · exact himaginary b (binary.inj heq).2.2
  unfold Complex.tree
  cases hre : z.re == zero <;> cases him : z.im == zero
  · simp [himaginary]
  · simp
  · simp [hlead]
  · simp

theorem spelledIn_eq_spelled_iff :
    e.spelledIn [] = e.spelled ↔
      ∀ p ∈ e.literalsIn [], isBound p.1 'i' = true → (p.2.im == zero) = true := by
  refine mapLiterals_eq_iff.trans (forall₂_congr fun p _ => ?_)
  by_cases h : isBound p.1 'i' = true
  · have hne : (letterTree p.1 : Expr R) ≠ .const .imaginaryUnit := by simp [letterTree, h]
    rw [tree_eq_tree_iff hne]
    exact ⟨fun him _ => him, fun him => him h⟩
  · have heq : (letterTree p.1 : Expr R) = .const .imaginaryUnit := by simp [letterTree, h]
    rw [heq]
    exact ⟨fun _ hbound => absurd hbound h, fun _ => rfl⟩

theorem run_foldText {s : String} {folded : Expr R} {memory after : Memory R}
    (hread : read settings.maxDepth s = .ok e)
    (hfold : (e.fold settings).run memory = (folded, after)) :
    (foldText settings s).run memory = (.ok folded.text, after) := by
  unfold foldText
  rw [hread]
  change (let (folded, after) := (e.fold settings).run memory
    ((.ok folded.text, after) : Except ParseError String × Memory R)) = _
  rw [hfold]

section

variable [LawfulText R]

theorem readable_of_read {limit : Nat} {s : String} (h : read limit s = .ok e) :
    e.checkScope [] = .ok () ∧ ∀ c ∈ e.names, (letter c).Readable := by
  obtain ⟨ls, hscan, hls⟩ := Result.bind_eq_ok_iff.1 h
  obtain ⟨d⟩ := exists_derivation_of_ofLexemes hls
  exact ⟨d.checkScope, fun c hc => (scan_eq_ok_iff.1 hscan).readable _ (d.mem_of_mem_names hc)⟩

/-- The spelling of a folded tree is read with its literals where they stand. -/
theorem read_text_of_folded {limit limit' : Nat} {s : String} (hread : read limit s = .ok e)
    (hfolded : Folded settings e e') (hlegible : ∀ p ∈ e'.literalsIn [], p.2.Legible)
    (hlimit : 2 * e.depth + 4 ≤ limit') : read limit' e'.text = .ok (e'.spelledIn []) := by
  obtain ⟨hscope, hnames⟩ := readable_of_read hread
  have hdepth : e'.depth ≤ e.depth := by
    rw [depth_eq_height, depth_eq_height]
    exact hfolded.height_le
  apply read_text (hfolded.checkScope hscope) _ hlegible
  · omega
  · exact fun c hc => hnames c (hfolded.mem_names hc)

/-- The text of a folded tree is read as that tree with its literals as sums, if and only if no literal
with an imaginary part stands where `i` is an index. In any case it is read, with the literals taken
where they stand. -/
theorem read_foldText {s t : String} {folded : Expr R} {memory after after' : Memory R}
    (hread : read settings.maxDepth s = .ok e)
    (hfold : (e.fold settings).run memory = (folded, after))
    (htext : (foldText settings s).run memory = (.ok t, after'))
    (hlegible : ∀ p ∈ folded.literalsIn [], p.2.Legible)
    {limit : Nat} (hlimit : 2 * e.depth + 4 ≤ limit) :
    (read limit t = .ok folded.spelled ↔
      ∀ p ∈ folded.literalsIn [], isBound p.1 'i' = true → (p.2.im == zero) = true) ∧
    read limit t = .ok (folded.spelledIn []) := by
  have hfolded : Folded settings e folded := by
    have h : Folded settings e ((e.fold settings).run memory).1 := folded_fold e memory
    rwa [hfold] at h
  have h := read_text_of_folded hread hfolded hlegible hlimit
  rw [run_foldText hread hfold] at htext
  cases htext
  refine ⟨?_, h⟩
  rw [h, Except.ok.injEq]
  exact spelledIn_eq_spelled_iff

end

theorem read_foldText_unit :
    let settings : Settings Float := ⟨8, 8, 0, 4, true, none⟩
    let e : Expr Float := .binary .add (.var 'x') (.binary .mul (.const (.ofReal 3)) (.const .imaginaryUnit))
    let folded : Expr Float := .binary .add (.var 'x') (.const ⟨0, 3⟩)
    read settings.maxDepth "x+3*i" = .ok e ∧ (e.fold settings).run [] = (folded, []) ∧
      (foldText settings "x+3*i").run [] = (.ok folded.text, []) ∧
      (∀ p ∈ folded.literalsIn [], p.2.Legible) ∧ 2 * e.depth + 4 ≤ 10 ∧
      (read 10 folded.text = .ok folded.spelled ↔
        ∀ p ∈ folded.literalsIn [], isBound p.1 'i' = true → (p.2.im == zero) = true) ∧
      read 10 folded.text = .ok (folded.spelledIn []) := by
  intro settings e folded
  have hscan : scan "x+3*i".toList = .ok [letter 'x', operator .add, number ['3'], operator .mul,
      letter 'i'] := by rfl
  have hread : read settings.maxDepth "x+3*i" = .ok e :=
    read_of_scan hscan (ofLexemes_of_sum (List.cons_ne_nil _ _) rfl (by decide))
  have hfold : (e.fold settings).run [] = (folded, []) := by
    have hsum : (ownValue? settings e).run [] = (none, []) := by rfl
    have hx : (ownValue? settings (.var 'x')).run [] = (none, []) := by rfl
    have hproduct : (ownValue? settings (.binary .mul (.const (.ofReal 3)) (.const .imaginaryUnit))).run
        [] = (some ⟨0, 3⟩, []) := by rfl
    rw [run_fold_of_none hsum]
    simp only [e, foldChildren, StateT.run_bind, StateT.run_pure, pure_bind, run_fold_of_none hx,
      run_fold_of_some hproduct]
    rfl
  have hlegible : ∀ p ∈ folded.literalsIn [], p.2.Legible := by
    have hzero : Scalar.Legible (0 : Float) := by rfl
    have hthree : Scalar.Legible (3 : Float) := by rfl
    intro p hp
    obtain rfl : p = ([], ⟨0, 3⟩) := by simpa [folded, literalsIn] using hp
    exact ⟨hzero, hthree⟩
  have hlimit : 2 * e.depth + 4 ≤ 10 := by
    rw [depth_eq_height]
    decide
  have htext := run_foldText hread hfold
  exact ⟨hread, hfold, htext, hlegible, hlimit, read_foldText hread hfold htext hlegible hlimit⟩

/-- The root is found where `i` is an index, and what is read is twice the square of the index. -/
theorem read_foldText_ne_spelled :
    let settings : Settings Float := ⟨8, 8, 0, 5, true, none⟩
    let root : Expr Float := .call .sqrt (.binary .sub (.const (.ofReal 0)) (.const (.ofReal 4)))
    let e : Expr Float :=
      .aggregate .sum (.const (.ofReal 1)) (.var 'n') (.binary .mul root (.var 'i')) 'i'
    let folded : Expr Float :=
      .aggregate .sum (.const (.ofReal 1)) (.var 'n') (.binary .mul (.const ⟨0, 2⟩) (.var 'i')) 'i'
    read settings.maxDepth "sum(1;n;sqrt(0-4)*i;i)" = .ok e ∧
      (e.fold settings).run [] = (folded, []) ∧
      (foldText settings "sum(1;n;sqrt(0-4)*i;i)").run [] = (.ok "sum((1);n;((2*i)*i);i)", []) ∧
      2 * e.depth + 4 ≤ 14 ∧ read 14 "sum((1);n;((2*i)*i);i)" ≠ .ok folded.spelled := by
  intro settings root e folded
  have hscan : scan "sum(1;n;sqrt(0-4)*i;i)".toList = .ok [keyword (.aggregate .sum), lparen,
      number ['1'], separator, letter 'n', separator, keyword (.function .sqrt), lparen, number ['0'],
      operator .sub, number ['4'], rparen, operator .mul, letter 'i', separator, letter 'i',
      rparen] := by rfl
  have hread : read settings.maxDepth "sum(1;n;sqrt(0-4)*i;i)" = .ok e :=
    read_of_scan hscan (ofLexemes_of_sum (List.cons_ne_nil _ _) rfl (by decide))
  have hfold : (e.fold settings).run [] = (folded, []) := by
    have hroot : (ownValue? settings root).run [] = (some ⟨0, 2⟩, []) :=
      Prod.ext (by decide +kernel) rfl
    have hbody : (ownValue? settings (.binary .mul root (.var 'i'))).run [] = (none, []) := by rfl
    have hindex : (ownValue? settings (.var 'i')).run [] = (none, []) := by rfl
    have hlower : (ownValue? settings (.const (.ofReal 1))).run [] = (none, []) := by rfl
    have hupper : (ownValue? settings (.var 'n')).run [] = (none, []) := by rfl
    have hsum : (ownValue? settings e).run [] = (none, []) := by rfl
    rw [run_fold_of_none hsum]
    simp only [e, foldChildren, StateT.run_bind, StateT.run_pure, pure_bind,
      run_fold_of_none hlower, run_fold_of_none hupper, run_fold_of_none hbody,
      run_fold_of_none hindex, run_fold_of_some hroot]
    rfl
  have htext : folded.text = "sum((1);n;((2*i)*i);i)" := by rfl
  have hlegible : ∀ p ∈ folded.literalsIn [], p.2.Legible := by
    have hzero : Scalar.Legible (0 : Float) := by rfl
    have hone : Scalar.Legible (1 : Float) := by rfl
    have htwo : Scalar.Legible (2 : Float) := by rfl
    intro p hp
    have hp : p = ([], .ofReal 1) ∨ p = (['i'], ⟨0, 2⟩) := by simpa [folded, literalsIn] using hp
    rcases hp with rfl | rfl
    · exact ⟨hone, hzero⟩
    · exact ⟨hzero, htwo⟩
  have hlimit : 2 * e.depth + 4 ≤ 14 := by
    rw [depth_eq_height]
    decide
  have hfolded : Folded settings e folded := by
    have h : Folded settings e ((e.fold settings).run []).1 := folded_fold e []
    rwa [hfold] at h
  have hspelledIn := read_text_of_folded hread hfolded hlegible hlimit
  refine ⟨hread, hfold, htext ▸ run_foldText hread hfold, hlimit, fun h => ?_⟩
  rw [← htext, hspelledIn, Except.ok.injEq, spelledIn_eq_spelled_iff] at h
  exact absurd (h (['i'], ⟨0, 2⟩) (by simp [folded, literalsIn]) rfl) (by decide +kernel)

end ComplexSeries.Expr
