import ComplexSeries.Text.Blank
import ComplexSeries.Bracket.Balance
import ComplexSeries.Proofs.Lexeme.Checks
import ComplexSeries.Proofs.Lexeme.Rescan

/-! The characters of a rendering. They are the characters of words and the signs, and what holds of
neighbouring characters within a lexeme and where two lexemes meet holds throughout. -/
namespace ComplexSeries.Lexeme

/-- The characters that are lexemes by themselves. -/
def signs : List Char := ['+', '-', '*', '/', '^', '(', ')', ';', '°', '%']

theorem Readable.letters_ne_nil {l : Lexeme} (h : l.Readable) : l.letters ≠ [] := by
  cases l with
  | number ds => exact h.1
  | keyword k => exact k.letters_ne_nil
  | _ => simp [letters]

theorem Readable.isWordChar {l : Lexeme} (h : l.Readable) (hw : l.isWord) {c : Char}
    (hc : c ∈ l.letters) : isWordChar c := by
  cases l with
  | number ds => exact isWordChar_of_isNumeral (h.2.1 c hc)
  | keyword k => exact isWordChar_of_isAlpha (k.isAlpha_of_mem_letters hc)
  | letter d => rw [List.mem_singleton.1 hc]; exact isWordChar_of_isAlpha h.1
  | _ => cases hw

theorem letters_of_not_isWord {l : Lexeme} (h : l.isWord = false) :
    ∃ c ∈ signs, l.letters = [c] := by
  cases l with
  | number | keyword | letter => cases h
  | operator o => cases o <;> exact ⟨_, by decide, rfl⟩
  | _ => exact ⟨_, by decide, rfl⟩

variable {ls : List Lexeme}

theorem mem_render (hread : ∀ l ∈ ls, l.Readable) {c : Char} (hc : c ∈ render ls) :
    isWordChar c ∨ c ∈ signs := by
  obtain ⟨l, hl, hc⟩ := List.mem_flatMap.1 hc
  cases hw : l.isWord with
  | true => exact .inl ((hread l hl).isWordChar hw hc)
  | false =>
    obtain ⟨d, hd, hletters⟩ := letters_of_not_isWord hw
    rw [hletters, List.mem_singleton] at hc
    exact .inr (hc ▸ hd)

theorem ne_of_mem_render (hread : ∀ l ∈ ls, l.Readable) {d : Char} (hword : isWordChar d = false)
    (hsign : d ∉ signs) : d ∉ render ls := by
  intro hd
  rcases mem_render hread hd with h | h
  · rw [hword] at h; cases h
  · exact hsign h

theorem isBlank_eq_false_of_isWordChar {c : Char} (h : isWordChar c) : Text.isBlank c = false := by
  have hrange : 46 ≤ c.toNat ∧ c.toNat ≤ 122 := by
    rw [isWordChar, Bool.or_eq_true, isNumeral_iff, isAlpha_iff] at h
    omega
  rw [← Char.toNat_val] at hrange
  simp only [Text.isBlank, Bool.or_eq_false_iff, Bool.and_eq_false_iff, decide_eq_false_iff_not,
    UInt32.le_iff_toNat_le, ← UInt32.toNat_inj, UInt32.reduceToNat]
  omega

theorem withoutBlanks_render (hread : ∀ l ∈ ls, l.Readable) :
    Text.withoutBlanks (render ls) = render ls := by
  refine List.filter_eq_self.2 fun c hc => ?_
  rcases mem_render hread hc with h | h
  · rw [isBlank_eq_false_of_isWordChar h]
    rfl
  · have hall : signs.all (!Text.isBlank ·) = true := by decide
    exact List.all_eq_true.1 hall c h

/-! ### Neighbouring characters -/

theorem isChain_render {R : Char → Char → Prop} (hread : ∀ l ∈ ls, l.Readable)
    (hwithin : ∀ l ∈ ls, l.letters.IsChain R)
    (hmeet : ls.IsChain fun k l => ∀ x ∈ k.letters.getLast?, ∀ y ∈ l.letters.head?, R x y) :
    (render ls).IsChain R := by
  have hne : [] ∉ ls.map letters := by
    intro h
    obtain ⟨l, hl, h⟩ := List.mem_map.1 h
    exact (hread l hl).letters_ne_nil h
  rw [render, List.flatMap_def, List.isChain_flatten hne, List.isChain_map]
  exact ⟨by simpa using hwithin, hmeet⟩

theorem not_isOperator_of_isWordChar {c : Char} (h : isWordChar c) :
    Bracket.isOperator c = false := by
  rw [Bool.eq_false_iff]
  intro hop
  simp only [Bracket.isOperator, Bool.or_eq_true, decide_eq_true_eq] at hop
  rcases hop with (((rfl | rfl) | rfl) | rfl) | rfl <;> exact absurd h (by decide)

theorem eq_operator_of_isOperator {l : Lexeme} (hl : l.Readable) {c : Char} (hc : c ∈ l.letters)
    (hop : Bracket.isOperator c) : ∃ o, l = operator o := by
  cases hw : l.isWord with
  | true =>
    rw [not_isOperator_of_isWordChar (hl.isWordChar hw hc)] at hop
    cases hop
  | false =>
    cases l with
    | operator o => exact ⟨o, rfl⟩
    | number | keyword | letter => cases hw
    | _ => rw [List.mem_singleton.1 hc] at hop; exact absurd hop (by decide)

/-- Where no operator follows another, none does in the text. -/
theorem isChain_unlike_render (hread : ∀ l ∈ ls, l.Readable)
    (h : ls.IsChain fun a b => ∀ o p, a = operator o → b ≠ operator p) :
    (render ls).IsChain Bracket.Unlike := by
  refine isChain_render hread (fun l hl => ?_)
    (h.imp_of_mem_imp fun k l hk hl hkl x hx y hy => ?_)
  · cases hw : l.isWord with
    | true =>
      refine (List.pairwise_of_forall_mem_list fun a ha b _ hab => ?_).isChain
      rw [not_isOperator_of_isWordChar ((hread l hl).isWordChar hw ha)] at hab
      cases hab.1
    | false =>
      obtain ⟨c, -, hc⟩ := letters_of_not_isWord hw
      rw [hc]
      exact .singleton c
  · rintro ⟨hox, hoy⟩
    obtain ⟨o, rfl⟩ := eq_operator_of_isOperator (hread k hk) (List.mem_of_mem_getLast? hx) hox
    obtain ⟨p, rfl⟩ := eq_operator_of_isOperator (hread l hl) (List.mem_of_mem_head? hy) hoy
    exact hkl o p rfl rfl

end ComplexSeries.Lexeme
