import ComplexSeries.Input.Mark
import ComplexSeries.Proofs.Bracket.Partner
import ComplexSeries.Proofs.Input.Neighbours

/-! Expanding marks. The operand of a mark is a number, a letter, a constant, a bracketed group or
a call. One expansion brackets the operand together with the factor that the mark stands for, and a
run replaces marks until none is left; so whatever one expansion keeps, a run keeps. -/
namespace ComplexSeries.Input

open Lexeme

/-- What a mark can be the mark of. -/
inductive Operand : List Lexeme → Prop
  | word {l : Lexeme} : l.isWord → l.endsOperand → Operand [l]
  | group {inner : List Lexeme} : IsBalanced inner → Operand (lparen :: inner ++ [rparen])
  | call {k : Keyword} {inner : List Lexeme} : k.isConstant = false → IsBalanced inner →
      Operand (keyword k :: (lparen :: inner ++ [rparen]))

/-- A group that follows a name is the argument list of a call. -/
def Whole (before operand : List Lexeme) : Prop :=
  operand.head? = some lparen → ∀ k, before.getLast? = some (keyword k) → k.isConstant

/-- The search backwards from a closing bracket stops at its partner, and what lies between is as
deep as the search was when it began. -/
theorem eq_append_of_distance? {depth d : Nat} {ls : List Lexeme}
    (h : Bracket.distance? isClose isOpen (depth + 1) ls = some d) :
    ∃ inner rest, ls = inner ++ lparen :: rest ∧ inner.length = d ∧
      nesting 0 inner.reverse = some depth := by
  have hkind := (Bracket.oneKind_lexemes ls).swap
  obtain ⟨inner, b, rest, rfl, rfl, hb, hinner⟩ := (Bracket.distance?_eq_some_iff hkind).1 h
  obtain rfl : b = lparen := by cases b <;> first | rfl | cases hb
  exact ⟨inner, rest, rfl, rfl, nesting_eq_some_iff.2 hinner.reverse⟩

theorem operand?_eq_some {written operand rest : List Lexeme}
    (h : operand? written = some (operand, rest)) :
    written = operand ++ rest ∧ Operand operand.reverse ∧ Whole rest.reverse operand.reverse := by
  unfold operand? at h
  split at h
  · cases h; exact ⟨rfl, .word rfl rfl, by simp [Whole]⟩
  · cases h; exact ⟨rfl, .word rfl rfl, by simp [Whole]⟩
  · cases h; exact ⟨rfl, .word rfl rfl, by simp [Whole]⟩
  · next ls =>
    split at h
    · cases h
    · next d hd =>
      obtain ⟨e, he, rfl⟩ := Option.map_eq_some_iff.1 hd
      obtain ⟨inner, rest', rfl, rfl, hn⟩ := eq_append_of_distance? he
      have htake : (rparen :: (inner ++ lparen :: rest')).take (inner.length + 1 + 1) =
          rparen :: (inner ++ [lparen]) := by
        simp [List.take_append]
      have hdrop : (rparen :: (inner ++ lparen :: rest')).drop (inner.length + 1 + 1) = rest' := by
        simp [List.drop_append]
      have hreverse : (rparen :: (inner ++ [lparen])).reverse =
          lparen :: inner.reverse ++ [rparen] := by simp
      simp only [htake, hdrop] at h
      split at h
      · next k rest'' =>
        split at h
        · next hk =>
          cases h
          refine ⟨by simp, hreverse ▸ .group hn, fun _ j hj => ?_⟩
          simp only [List.reverse_cons, List.getLast?_append, List.getLast?_singleton,
            Option.some_or, Option.some.injEq, keyword.injEq] at hj
          exact hj ▸ hk
        · next hk =>
          cases h
          refine ⟨by simp, ?_, by simp [Whole]⟩
          have := Operand.call (k := k) (by simpa using hk) hn
          simpa using this
      · next hrest =>
        cases h
        refine ⟨by simp, hreverse ▸ .group hn, fun _ j hj => ?_⟩
        rw [List.getLast?_reverse] at hj
        exact absurd (List.eq_cons_of_mem_head? hj) (hrest j _)
  · cases h

namespace Operand

variable {operand : List Lexeme}

theorem balanced (h : Operand operand) : IsBalanced operand := by
  cases h with
  | @word l hw _ =>
    have hl : l.isBracket = false := by cases l <;> first | rfl | cases hw
    rw [IsBalanced, nesting_cons hl, nesting_nil]
  | group hi => exact hi.parens
  | call _ hi => rw [IsBalanced, nesting_cons rfl]; exact hi.parens

theorem head_startsOperand (h : Operand operand) : ∃ l ∈ operand.head?, l.startsOperand := by
  cases h with
  | @word l hw _ => exact ⟨l, rfl, by cases l <;> first | rfl | cases hw⟩
  | group => exact ⟨lparen, rfl, rfl⟩
  | call => exact ⟨_, rfl, rfl⟩

theorem getLast_endsOperand (h : Operand operand) :
    ∃ l ∈ operand.getLast?, l.endsOperand := by
  cases h with
  | @word l _ he => exact ⟨l, rfl, he⟩
  | group => exact ⟨rparen, by simp [List.getLast?_cons], rfl⟩
  | call => exact ⟨rparen, by simp [List.getLast?_cons], rfl⟩

end Operand

/-! ### One expansion and a run -/

/-- The factor a mark stands for, and the closing bracket. -/
def factorOf : Lexeme → List Lexeme
  | degree => degreeFactor.reverse
  | _ => percentFactor.reverse

def symbolOf : Lexeme → Char
  | degree => '°'
  | _ => '%'

theorem letters_of_isMark {mark : Lexeme} (h : mark.isMark) : mark.letters = [symbolOf mark] := by
  cases mark <;> first | rfl | cases h

/-- A run of expansions from one list to another. -/
inductive Expansion : List Lexeme → List Lexeme → Prop
  | done {ls : List Lexeme} : Expansion ls ls
  | step {before operand after ls : List Lexeme} {mark : Lexeme} :
      Operand operand → Whole before operand → mark.isMark →
      Expansion (before ++ lparen :: (operand ++ factorOf mark ++ after)) ls →
      Expansion (before ++ (operand ++ mark :: after)) ls

theorem expand?_eq_some {factor written result : List Lexeme}
    (h : expand? factor written = some result) :
    ∃ before operand, written.reverse = before ++ operand ∧ Operand operand ∧
      Whole before operand ∧ result.reverse = before ++ lparen :: (operand ++ factor.reverse) := by
  obtain ⟨⟨operand, rest⟩, ho, rfl⟩ := Option.map_eq_some_iff.1 h
  obtain ⟨rfl, hoperand, hwhole⟩ := operand?_eq_some ho
  exact ⟨rest.reverse, operand.reverse, by simp, hoperand, hwhole, by simp⟩

theorem Expansion.of_expand? {mark : Lexeme} {written result after ls : List Lexeme}
    (hm : mark.isMark) (he : expand? (factorOf mark).reverse written = some result)
    (h : Expansion (result.reverse ++ after) ls) :
    Expansion (written.reverse ++ mark :: after) ls := by
  obtain ⟨before, operand, hw, hoperand, hwhole, hr⟩ := expand?_eq_some he
  rw [hr, List.reverse_reverse] at h
  rw [hw, List.append_assoc]
  exact .step hoperand hwhole hm (by simpa using h)

theorem expandMarksFrom_mark {mark : Lexeme} (h : mark.isMark) (written ls : List Lexeme) :
    expandMarksFrom written (mark :: ls) =
      match expand? (factorOf mark).reverse written with
      | some written => expandMarksFrom written ls
      | none => .error (.disallowedCharacter (symbolOf mark)) := by
  cases mark <;> first | rfl | cases h

theorem expandMarksFrom_cons {l : Lexeme} (h : l.isMark = false) (written ls : List Lexeme) :
    expandMarksFrom written (l :: ls) = expandMarksFrom (l :: written) ls := by
  cases l <;> first | rfl | cases h

/-- Up to the first mark everything is kept. -/
theorem expandMarksFrom_append {before : List Lexeme} (h : ∀ l ∈ before, l.isMark = false)
    (written ls : List Lexeme) :
    expandMarksFrom written (before ++ ls) = expandMarksFrom (before.reverse ++ written) ls := by
  induction before generalizing written with
  | nil => rfl
  | cons l before ih =>
    rw [List.forall_mem_cons] at h
    rw [List.cons_append, expandMarksFrom_cons h.1, ih h.2, List.reverse_cons, List.append_assoc,
      List.singleton_append]

theorem Expansion.of_expandMarksFrom {written ls rs : List Lexeme}
    (h : expandMarksFrom written ls = .ok rs) : Expansion (written.reverse ++ ls) rs := by
  induction ls generalizing written with
  | nil =>
    cases h
    rw [List.append_nil]
    exact .done
  | cons l ls ih =>
    by_cases hm : l.isMark
    · rw [expandMarksFrom_mark hm] at h
      split at h
      · next result he => exact .of_expand? hm he (ih h)
      · cases h
    · rw [expandMarksFrom_cons (Bool.eq_false_iff.2 hm)] at h
      simpa using ih h

theorem forall_mem_expand? {P : Lexeme → Prop} {factor written result : List Lexeme}
    (hopen : P lparen) (hfactor : ∀ l ∈ factor, P l) (hw : ∀ l ∈ written, P l)
    (h : expand? factor written = some result) : ∀ l ∈ result, P l := by
  obtain ⟨⟨operand, rest⟩, ho, rfl⟩ := Option.map_eq_some_iff.1 h
  obtain ⟨rfl, -⟩ := operand?_eq_some ho
  simp only [List.forall_mem_append, List.forall_mem_cons] at hw ⊢
  exact ⟨⟨hfactor, hw.1⟩, hopen, hw.2⟩

theorem forall_mem_factorOf {P : Lexeme → Prop} (h : ∀ l ∈ degreeFactor ++ percentFactor, P l)
    (mark : Lexeme) : ∀ l ∈ factorOf mark, P l := by
  simp only [List.forall_mem_append] at h
  intro l hl
  cases mark with
  | degree => exact h.1 l (List.mem_reverse.1 hl)
  | _ => exact h.2 l (List.mem_reverse.1 hl)

theorem isMark_factorOf (mark : Lexeme) : ∀ l ∈ factorOf mark, l.isMark = false :=
  forall_mem_factorOf (by decide) mark

theorem not_isMark_of_expand? {mark : Lexeme} {written result : List Lexeme}
    (hw : ∀ l ∈ written, l.isMark = false)
    (he : expand? (factorOf mark).reverse written = some result) :
    ∀ l ∈ result, l.isMark = false :=
  forall_mem_expand? rfl (fun l hl => isMark_factorOf mark l (List.mem_reverse.1 hl)) hw he

/-- Marks are gone at the end, since nothing that is written is one. -/
theorem not_isMark_of_expandMarksFrom {written ls rs : List Lexeme}
    (hw : ∀ l ∈ written, l.isMark = false) (h : expandMarksFrom written ls = .ok rs) :
    ∀ l ∈ rs, l.isMark = false := by
  induction ls generalizing written with
  | nil =>
    cases h
    simpa using hw
  | cons l ls ih =>
    by_cases hm : l.isMark
    · rw [expandMarksFrom_mark hm] at h
      split at h
      · next result he => exact ih (not_isMark_of_expand? hw he) h
      · cases h
    · rw [Bool.not_eq_true] at hm
      rw [expandMarksFrom_cons hm] at h
      exact ih (List.forall_mem_cons.2 ⟨hm, hw⟩) h

/-- Without marks there is nothing to expand. -/
theorem expandMarksFrom_eq_self {ls : List Lexeme} (h : ∀ l ∈ ls, l.isMark = false)
    (written : List Lexeme) : expandMarksFrom written ls = .ok (written.reverse ++ ls) := by
  have hrun := expandMarksFrom_append h written []
  rwa [List.append_nil, expandMarksFrom, List.reverse_append, List.reverse_reverse] at hrun

theorem Expansion.nesting_eq {ls rs : List Lexeme} (h : Expansion ls rs) (depth : Nat) :
    nesting depth rs = nesting depth ls := by
  induction h with
  | done => rfl
  | @step before operand after ls mark ho _ hm _ ih =>
    have hfactor : ∀ depth, nesting (depth + 1) (factorOf mark ++ after) = nesting depth after := by
      intro depth
      cases mark <;> rfl
    have hmark : mark.isBracket = false := by cases mark <;> first | rfl | cases hm
    rw [ih, nesting_append, nesting_append]
    congr 1
    funext d
    rw [nesting_lparen, List.append_assoc, ho.balanced.nesting_append, hfactor,
      ho.balanced.nesting_append, nesting_cons hmark]

theorem Expansion.forall_mem {P : Lexeme → Prop} {ls rs : List Lexeme} (h : Expansion ls rs)
    (hopen : P lparen) (hfactor : ∀ l ∈ degreeFactor ++ percentFactor, P l)
    (hls : ∀ l ∈ ls, P l) : ∀ l ∈ rs, P l := by
  induction h with
  | done => exact hls
  | @step before operand after ls mark _ _ _ _ ih =>
    have hf := forall_mem_factorOf hfactor mark
    simp only [List.forall_mem_append, List.forall_mem_cons] at hls ih
    exact ih ⟨hls.1, hopen, ⟨hls.2.1, hf⟩, hls.2.2.2⟩

/-! ### Neighbours -/

theorem isChain_factorOf (mark : Lexeme) : (factorOf mark).IsChain Settled := by
  cases mark with
  | degree =>
    exact .cons_cons (.of_opens rfl (by simp) rfl) (.cons_cons (.of_closes rfl rfl)
      (.cons_cons (.of_opens rfl (by simp) rfl) (.cons_cons (.of_closes rfl rfl) (.singleton _))))
  | _ =>
    exact .cons_cons (.of_opens rfl (by simp) rfl) (.cons_cons (.of_closes rfl rfl) (.singleton _))

theorem factorOf_head? (mark : Lexeme) : (factorOf mark).head? = some (operator .mul) := by
  cases mark <;> rfl

theorem factorOf_getLast? (mark : Lexeme) : (factorOf mark).getLast? = some rparen := by
  cases mark <;> rfl

/-- A bracket may be opened wherever an operand begins. -/
theorem Settled.lparen {a b : Lexeme} (h : Settled a b) (hb : b.startsOperand) :
    Settled a lparen where
  apart := apart_of_not_isWordChar (by rintro c ⟨⟩; decide)
  filled := by rintro ⟨-, h⟩; cases h
  single := by rintro o p - h; cases h
  parted ha := h.parted ⟨ha.1, hb⟩
  unsigned _ := rfl

theorem isMark_endsOperand {l : Lexeme} (h : l.isMark) : l.endsOperand := by
  cases l <;> first | rfl | cases h

theorem isChain_expand {before operand after : List Lexeme} {mark : Lexeme}
    (ho : Operand operand) (hm : mark.isMark)
    (h : (before ++ (operand ++ mark :: after)).IsChain Settled) :
    (before ++ lparen :: (operand ++ factorOf mark ++ after)).IsChain Settled := by
  obtain ⟨a, ha, hstarts⟩ := ho.head_startsOperand
  obtain ⟨z, hz, hends⟩ := ho.getLast_endsOperand
  have hhead : ∀ rest, (operand ++ rest).head? = some a := fun rest => by
    rw [List.head?_append, ha, Option.some_or]
  obtain ⟨hbefore, hrest, hjoin⟩ := List.isChain_append.1 h
  obtain ⟨hoperand, hmark, -⟩ := List.isChain_append.1 hrest
  have hafter : (factorOf mark ++ after).IsChain Settled := by
    refine List.isChain_append.2 ⟨isChain_factorOf mark, hmark.of_cons, fun x hx y hy => ?_⟩
    rw [factorOf_getLast?] at hx
    cases hx
    have hparted := (List.isChain_cons.1 hmark).1 y hy |>.parted
    exact .of_closes rfl (by simpa [Parted, isMark_endsOperand hm] using hparted)
  have hinner : (operand ++ (factorOf mark ++ after)).IsChain Settled := by
    refine List.isChain_append.2 ⟨hoperand, hafter, fun x hx y hy => ?_⟩
    rw [List.head?_append, factorOf_head?] at hy
    rw [hz] at hx
    cases hx
    cases hy
    exact .of_closes hends rfl
  rw [List.append_assoc]
  refine List.isChain_append.2 ⟨hbefore, hinner.cons fun y hy => ?_, fun x hx y hy => ?_⟩
  · rw [hhead] at hy
    cases hy
    exact .of_opens rfl (by simp) hstarts
  · cases hy
    exact (hjoin x hx a (hhead _)).lparen hstarts

theorem Expansion.isChain {ls rs : List Lexeme} (h : Expansion ls rs) {p : Lexeme}
    (hls : (p :: ls).IsChain Settled) : (p :: rs).IsChain Settled := by
  induction h with
  | done => exact hls
  | @step before operand after ls mark ho _ hm _ ih =>
    rw [← List.cons_append] at hls ih
    exact ih (isChain_expand ho hm hls)

end ComplexSeries.Input
