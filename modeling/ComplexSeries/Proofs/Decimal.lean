import Mathlib.Data.List.Basic
import ComplexSeries.Decimal.Numeral
import ComplexSeries.Proofs.Lexeme.Scanned

/-! A numeral is digits with one point at most, and a digit before it. The positional spelling of a
decimal is a numeral, and every numeral denotes a magnitude. -/
namespace ComplexSeries.Decimal

open Lexeme

variable {ds : List Char}

theorem isDigit_of_mem_digitsOf {n : Nat} {c : Char} (h : c ∈ digitsOf n) : c.isDigit = true :=
  Nat.isDigit_of_mem_toDigits (by decide) (by decide) h

theorem digitsOf_ne_nil (n : Nat) : digitsOf n ≠ [] := Nat.toDigits_ne_nil

theorem count_point (h : ∀ c ∈ ds, c.isDigit = true) : ds.count '.' = 0 :=
  List.count_eq_zero.2 fun hmem => absurd (h _ hmem) (by decide)

theorem ne_point_of_head? (h : ∀ c ∈ ds, c.isDigit = true) : ds.head? ≠ some '.' := fun hhead =>
  absurd (h _ (List.mem_of_mem_head? hhead)) (by decide)

/-- A row of digits. -/
theorem readable_digits (hne : ds ≠ []) (h : ∀ c ∈ ds, c.isDigit = true) : (number ds).Readable := by
  refine ⟨hne, fun c hc => ?_, ?_, ne_point_of_head? h⟩
  · simp [isNumeral, h c hc]
  · have hpoint : ds ≠ ['.'] := by
      rintro rfl
      exact absurd (h '.' List.mem_cons_self) (by decide)
    simp [wellFormed, count_point h, hpoint]

theorem isDigit_zero : ∀ c ∈ ['0'], c.isDigit = true := List.forall_mem_singleton.2 rfl

theorem readable_zero : (number ['0']).Readable :=
  readable_digits (List.cons_ne_nil _ _) isDigit_zero

/-- Two rows of digits with a point between them. -/
theorem readable_point {whole fraction : List Char} (hne : whole ≠ [])
    (hwhole : ∀ c ∈ whole, c.isDigit = true) (hfraction : ∀ c ∈ fraction, c.isDigit = true) :
    (number (whole ++ '.' :: fraction)).Readable := by
  refine ⟨by simp, fun c hc => ?_, ?_, ?_⟩
  · rcases List.mem_append.1 hc with hc | hc
    · simp [isNumeral, hwhole c hc]
    · rcases List.mem_cons.1 hc with rfl | hc
      · decide
      · simp [isNumeral, hfraction c hc]
  · have hlen : whole ++ '.' :: fraction ≠ ['.'] := by
      intro h
      have hlen := congrArg List.length h
      have hpos := List.length_pos_iff.2 hne
      simp only [List.length_append, List.length_cons, List.length_nil] at hlen
      omega
    simp [wellFormed, List.count_append, count_point hwhole, count_point hfraction, hlen]
  · rw [List.head?_append_of_ne_nil _ hne]
    exact ne_point_of_head? hwhole

theorem readable_withPoint (h : ∀ c ∈ ds, c.isDigit = true) (places : Nat) :
    (number (withPoint ds places)).Readable := by
  unfold withPoint
  split
  · next hlt =>
    apply readable_point
    · rw [Ne, List.take_eq_nil_iff]
      have := List.length_pos_iff.1 (by omega : 0 < ds.length)
      rintro (hzero | hnil)
      · omega
      · exact this hnil
    · exact fun c hc => h c (List.mem_of_mem_take hc)
    · exact fun c hc => h c (List.mem_of_mem_drop hc)
  · refine readable_point (List.cons_ne_nil _ _) isDigit_zero fun c hc => ?_
    rcases List.mem_append.1 hc with hc | hc
    · rw [(List.mem_replicate.1 hc).2]
      decide
    · exact h c hc

theorem readable_positional (d : Decimal) : (number d.positional).Readable := by
  have hdigits : ∀ c ∈ digitsOf d.digits, c.isDigit = true := fun c => isDigit_of_mem_digitsOf
  unfold positional
  split
  · exact readable_withPoint hdigits _
  · apply readable_digits
    · simp [digitsOf_ne_nil]
    · intro c hc
      rcases List.mem_append.1 hc with hc | hc
      · exact hdigits c hc
      · rw [(List.mem_replicate.1 hc).2]
        decide

/-! ### Reading a numeral -/

theorem splitSign_of_readable (h : (number ds).Readable) : splitSign ds = (false, ds) := by
  obtain ⟨c, cs, rfl⟩ := List.exists_cons_of_ne_nil h.1
  have hc : isNumeral c := h.2.1 c List.mem_cons_self
  have hplus : c ≠ '+' := by rintro rfl; exact absurd hc (by decide)
  have hminus : c ≠ '-' := by rintro rfl; exact absurd hc (by decide)
  unfold splitSign
  split <;> simp_all

/-- What is no digit is the point, and after it there are digits only. -/
theorem dropWhile_cases (h : (number ds).Readable) :
    ds.dropWhile Char.isDigit = [] ∨
      ∃ rest, ds.dropWhile Char.isDigit = '.' :: rest ∧ ∀ c ∈ rest, c.isDigit = true := by
  obtain ⟨-, hnumeral, hformed, -⟩ := h
  cases hrest : ds.dropWhile Char.isDigit with
  | nil => exact .inl rfl
  | cons c rest =>
    have hsuffix : c :: rest <:+ ds := hrest ▸ List.dropWhile_suffix _
    have hother : ∀ d ∈ c :: rest, d.isDigit = false → d = '.' := by
      intro d hd hdigit
      simpa [isNumeral, hdigit] using hnumeral d (hsuffix.mem hd)
    have hc : c.isDigit = false := by
      have := List.head_dropWhile_not Char.isDigit (l := ds) (by simp [hrest])
      simpa [hrest] using this
    obtain rfl := hother c List.mem_cons_self hc
    refine .inr ⟨rest, rfl, fun d hd => ?_⟩
    by_contra hdigit
    obtain rfl := hother d (List.mem_cons_of_mem _ hd) (by simpa using hdigit)
    have hcount : ('.' :: rest).count '.' ≤ ds.count '.' := hsuffix.sublist.count_le '.'
    have hpos : 0 < rest.count '.' := List.count_pos_iff.2 hd
    simp only [wellFormed, Bool.and_eq_true, decide_eq_true_eq, List.count_cons_self] at hformed hcount
    omega

theorem readNumeral?_of_readable (h : (number ds).Readable) :
    ∃ d, readNumeral? ds = some (d, []) := by
  have hwhole : (ds.takeWhile Char.isDigit).isEmpty = false := by
    obtain ⟨c, cs, rfl⟩ := List.exists_cons_of_ne_nil h.1
    have hc : c.isDigit = true := by
      have hnumeral : isNumeral c := h.2.1 c List.mem_cons_self
      have hpoint : c ≠ '.' := by simpa using h.2.2.2
      simpa [isNumeral, hpoint] using hnumeral
    rw [List.takeWhile_cons_of_pos hc]
    rfl
  unfold readNumeral?
  rcases dropWhile_cases h with hrest | ⟨rest, hrest, hdigits⟩
  · simp [hrest, hwhole]
  · simp [hrest, hwhole, List.dropWhile_eq_nil_iff.2 hdigits]

theorem magnitude?_of_readable (h : (number ds).Readable) : magnitude? ds ≠ none := by
  obtain ⟨d, hd⟩ := readNumeral?_of_readable h
  unfold magnitude?
  split
  · simp
  · simp [hd, readExponent?]

end ComplexSeries.Decimal
