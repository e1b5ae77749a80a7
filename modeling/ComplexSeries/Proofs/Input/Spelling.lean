import ComplexSeries.Input.Alias
import ComplexSeries.Proofs.Lexeme.Render
import ComplexSeries.Proofs.Input.Bars

/-! Aliases and bars. Replacing them puts no operator beside another and leaves no alias of one
letter. A rendering has neither: every alias of more letters has two neighbours that meet in no name
and at no border of two lexemes. -/
namespace ComplexSeries.Input

open Lexeme
open ComplexSeries.Bracket

/-! ### Aliases -/

theorem mem_aliases_of_alias? {cs : List Char} {a : Alias} (h : alias? cs = some a) :
    a ∈ aliases :=
  List.mem_of_find?_eq_some h

theorem alias?_eq_none_iff {cs : List Char} :
    alias? cs = none ↔ ∀ a ∈ aliases, ¬ a.typed <+: cs := by
  simp [alias?, List.find?_eq_none]

/-- What is written for an alias holds no operator and no alias of one letter. -/
theorem forall_mem_proper {a : Alias} (ha : a ∈ aliases) :
    ∀ c ∈ a.proper, isOperator c = false ∧ c ≠ 'E' := by
  have hall : ∀ a ∈ aliases, a.proper.all fun c => !isOperator c && c != 'E' := by decide
  intro c hc
  simpa using List.all_eq_true.1 (hall a ha) c hc

theorem proper_ne_nil {a : Alias} (ha : a ∈ aliases) : a.proper ≠ [] := by
  have hall : ∀ a ∈ aliases, a.proper ≠ [] := by decide
  exact hall a ha

theorem unlike_of_left {a b : Char} (h : isOperator a = false) : Unlike a b := by
  rintro ⟨ha, -⟩
  rw [h] at ha
  cases ha

theorem isChain_unlike_append {w cs : List Char} (hw : w.all (!isOperator ·))
    (h : cs.IsChain Unlike) : (w ++ cs).IsChain Unlike := by
  induction w with
  | nil => exact h
  | cons c w ih =>
    rw [List.all_cons, Bool.and_eq_true, Bool.not_eq_true'] at hw
    exact (ih hw.2).cons fun b _ => unlike_of_left hw.1

/-- The first operator of a respelled text is the first of the text. -/
theorem head?_respell {c : Char} {cs : List Char} (h : c ∈ (respell cs).head?)
    (hop : isOperator c) : cs.head? = some c := by
  cases cs with
  | nil => cases h
  | cons d cs =>
    unfold respell respellFrom at h
    split at h
    · next a ha =>
      have ha := mem_aliases_of_alias? ha
      rw [List.head?_append_of_ne_nil _ (proper_ne_nil ha)] at h
      rw [(forall_mem_proper ha c (List.mem_of_mem_head? h)).1] at hop
      cases hop
    · exact h

theorem isChain_unlike_respellFrom {taken : Nat} {cs : List Char} (h : cs.IsChain Unlike) :
    (respellFrom taken cs).IsChain Unlike := by
  fun_induction respellFrom taken cs with
  | case1 => exact .nil
  | case2 taken c cs ih => exact ih h.tail
  | case3 c cs a ha ih =>
    refine isChain_unlike_append (List.all_eq_true.2 fun c hc => ?_) (ih h.tail)
    rw [(forall_mem_proper (mem_aliases_of_alias? ha) c hc).1]
    rfl
  | case4 c cs _ ih =>
    refine (ih h.tail).cons fun b hb => ?_
    rintro ⟨hc, hop⟩
    have hb' := head?_respell hb hop
    exact (List.isChain_cons.1 h).1 b hb' ⟨hc, hop⟩

theorem not_mem_respellFrom (taken : Nat) (cs : List Char) : 'E' ∉ respellFrom taken cs := by
  fun_induction respellFrom taken cs with
  | case1 => simp
  | case2 taken c cs ih => exact ih
  | case3 c cs a ha ih =>
    rw [List.mem_append, not_or]
    exact ⟨fun h => (forall_mem_proper (mem_aliases_of_alias? ha) _ h).2 rfl, ih⟩
  | case4 c cs ha ih =>
    rw [List.mem_cons, not_or]
    refine ⟨?_, ih⟩
    rintro rfl
    exact alias?_eq_none_iff.1 ha ⟨['E'], ['e']⟩ (by simp [aliases]) ⟨cs, rfl⟩

/-- Where no alias begins, the text stays. -/
theorem respell_eq_self {cs : List Char} (h : ∀ us, us <:+ cs → alias? us = none) :
    respell cs = cs := by
  induction cs with
  | nil => rfl
  | cons c cs ih =>
    have hnone := h (c :: cs) (List.suffix_refl _)
    have hrest : respellFrom 0 cs = cs := ih fun us hus => h us (hus.trans (List.suffix_cons c cs))
    rw [respell, respellFrom, hnone]
    exact congrArg (c :: ·) hrest

/-! ### Bars -/

theorem Replaced.head?_of_isOperator {opened closed : Nat} {cs plain : List Char}
    (h : Replaced opened closed cs plain) {c : Char} (hc : c ∈ plain.head?) (hop : isOperator c) :
    cs.head? = some c := by
  cases h with
  | nil => cases hc
  | opening | closing => cases hc; exact absurd hop (by decide)
  | kept => exact hc

theorem Replaced.isChain_unlike {opened closed : Nat} {cs plain : List Char}
    (h : Replaced opened closed cs plain) (hcs : cs.IsChain Unlike) : plain.IsChain Unlike := by
  induction h with
  | nil => exact .nil
  | opening _ ih => exact isChain_unlike_append (w := "abs(".toList) (by decide) (ih hcs.tail)
  | closing _ ih => exact isChain_unlike_append (w := [')']) (by decide) (ih hcs.tail)
  | kept _ hrest ih =>
    refine (ih hcs.tail).cons fun b hb => ?_
    rintro ⟨hc, hop⟩
    exact (List.isChain_cons.1 hcs).1 b (hrest.head?_of_isOperator hb hop) ⟨hc, hop⟩

/-! ### Renderings hold no alias -/

/-- What a name or a single letter can end in for an alias to go on from there. -/
def ends : List Char := ['a', 'u', 'P']

theorem not_isNumeral_of_mem_ends {c : Char} (h : c ∈ ends) : isNumeral c = false := by
  have hall : ends.all (!isNumeral ·) = true := by decide
  simpa using List.all_eq_true.1 hall c h

/-- Neighbours of which every alias of more than one letter has two. -/
def Safe (a b : Char) : Prop :=
  (a, b) ∉ [('a', 'r'), ('a', 'l'), ('u', 'c'), ('P', 'I'), ('P', 'i')]

instance : DecidableRel Safe := fun _ _ => inferInstanceAs (Decidable (_ ∉ _))

theorem respell_eq_self_of_safe {cs : List Char} (hsafe : cs.IsChain Safe) (hE : 'E' ∉ cs)
    (hcomma : ',' ∉ cs) : respell cs = cs := by
  have hall : ∀ a ∈ aliases, ¬ a.typed.IsChain Safe ∨ 'E' ∈ a.typed ∨ ',' ∈ a.typed := by decide
  refine respell_eq_self fun us hus => alias?_eq_none_iff.2 fun a ha hpre => ?_
  have hpart : a.typed <:+: cs := hpre.isInfix.trans hus.isInfix
  rcases hall a ha with h | h | h
  · have hchain : a.typed.IsChain Safe := List.IsChain.infix hsafe hpart
    exact h hchain
  · exact hE (hpart.subset h)
  · exact hcomma (hpart.subset h)

theorem safe_of_first {a b : Char} (h : a ∉ ends) : Safe a b := by
  intro hab
  simp only [ends, List.mem_cons, Prod.mk.injEq, List.not_mem_nil, or_false] at hab h
  tauto

theorem safe_of_second {a b : Char} (h : isWordChar b = false) : Safe a b := by
  intro hab
  simp only [List.mem_cons, Prod.mk.injEq, List.not_mem_nil, or_false] at hab
  rcases hab with ⟨-, rfl⟩ | ⟨-, rfl⟩ | ⟨-, rfl⟩ | ⟨-, rfl⟩ | ⟨-, rfl⟩ <;> exact absurd h (by decide)

theorem isChain_safe_letters {l : Lexeme} (h : l.Readable) : l.letters.IsChain Safe := by
  cases l with
  | number ds =>
    refine (List.pairwise_of_forall_mem_list fun a ha b _ => safe_of_first ?_).isChain
    intro hmem
    have hnum := h.2.1 a ha
    rw [not_isNumeral_of_mem_ends hmem] at hnum
    cases hnum
  | keyword k =>
    exact Keyword.forall_of_forall_all (p := fun k => k.letters.IsChain Safe) (by decide +kernel) k
  | _ => exact .singleton _

/-- Only a single letter ends in a way that an alias could go on from. -/
theorem eq_letter_of_last {l : Lexeme} (h : l.Readable) {c : Char} (hc : c ∈ l.letters.getLast?)
    (hlast : c ∈ ends) : l = letter c := by
  cases l with
  | number ds =>
    have hnum := h.2.1 c (List.mem_of_mem_getLast? hc)
    rw [not_isNumeral_of_mem_ends hlast] at hnum
    cases hnum
  | keyword k =>
    have hall := Keyword.forall_of_forall_all
      (p := fun k => k.letters.getLast?.all (· ∉ ends)) (by decide +kernel) k
    have hc : k.letters.getLast? = some c := hc
    rw [hc] at hall
    exact absurd hlast (by simpa using hall)
  | letter d => cases hc; rfl
  | operator o => cases o <;> cases hc <;> exact absurd hlast (by decide)
  | _ => cases hc; exact absurd hlast (by decide)

theorem isChain_safe_render {ls : List Lexeme} (hread : ∀ l ∈ ls, l.Readable)
    (h : ls.IsChain Parted) : (render ls).IsChain Safe := by
  refine isChain_render hread (fun l hl => isChain_safe_letters (hread l hl))
    (h.imp_of_mem_imp fun k l hk hl hkl x hx y hy => ?_)
  by_cases hlast : x ∈ ends
  · have hletter := eq_letter_of_last (hread k hk) hx hlast
    have hends : k.endsOperand := by rw [hletter]; rfl
    have hstarts : l.startsOperand = false := Bool.eq_false_iff.2 fun h => hkl ⟨hends, h⟩
    exact safe_of_second (not_isWordChar_of_not_startsOperand hstarts hy)
  · exact safe_of_first hlast

/-- A rendering without the letter that is an alias by itself stays as it is. -/
theorem respell_render {ls : List Lexeme} (hread : ∀ l ∈ ls, l.Readable)
    (h : ls.IsChain Parted) (hE : letter 'E' ∉ ls) : respell (render ls) = render ls := by
  refine respell_eq_self_of_safe (isChain_safe_render hread h) ?_
    (ne_of_mem_render hread (by decide) (by decide))
  intro hmem
  obtain ⟨l, hl, hc⟩ := List.mem_flatMap.1 hmem
  cases l with
  | number ds => exact absurd ((hread _ hl).2.1 _ hc) (by decide)
  | keyword k =>
    exact Keyword.forall_of_forall_all (p := fun k => 'E' ∉ k.letters) (by decide +kernel) k hc
  | letter c => rw [← List.mem_singleton.1 hc] at hl; exact hE hl
  | operator o => cases o <;> exact absurd hc (by decide)
  | _ => exact absurd hc (by decide)

theorem replaceBars_render {ls : List Lexeme} (hread : ∀ l ∈ ls, l.Readable) :
    replaceBars (render ls) = .ok (render ls) :=
  replaceBars_eq_self (ne_of_mem_render hread (by decide) (by decide))

end ComplexSeries.Input
