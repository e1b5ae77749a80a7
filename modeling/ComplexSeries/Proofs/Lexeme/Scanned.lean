import Mathlib.Data.List.Chain
import Mathlib.Data.List.TakeWhile
import ComplexSeries.Lexeme.Scan
import ComplexSeries.Proofs.Keyword.Longest
import ComplexSeries.Proofs.Result

/-! What the lexemes of a text look like. Splitting is said as a relation that follows the text from
lexeme to lexeme. Along it, every lexeme is one that can be read, and names stay apart from the
letters after them. -/
namespace ComplexSeries.Lexeme

/-- A lexeme that its own spelling is read as: a number is a run that does not begin with its point,
and a single letter is no name. -/
def Readable : Lexeme → Prop
  | number ds => ds ≠ [] ∧ (∀ c ∈ ds, isNumeral c) ∧ wellFormed ds ∧ ds.head? ≠ some '.'
  | letter c => c.isAlpha ∧ Keyword.longest? [c] = none
  | _ => True

/-- Numbers, names and letters; all others are written with one sign. -/
def isWord : Lexeme → Bool
  | number _ | letter _ | keyword _ => true
  | _ => false

def isWordChar (c : Char) : Bool := isNumeral c || c.isAlpha

inductive Scanned : List Char → List Lexeme → Prop
  | nil : Scanned [] []
  | cons {c : Char} {cs : List Char} {l : Lexeme} {taken : Nat} {ls : List Lexeme} :
      first c cs = .ok (l, taken) → Scanned (cs.drop taken) ls → Scanned (c :: cs) (l :: ls)

theorem Scanned.of_scan {cs : List Char} {ls : List Lexeme} (h : scan cs = .ok ls) :
    Scanned cs ls := by
  induction hn : cs.length using Nat.strong_induction_on generalizing cs ls with
  | _ n ih =>
    match cs with
    | [] => cases h; exact .nil
    | c :: cs =>
      rw [scan_cons] at h
      obtain ⟨r, hf, h⟩ := Result.bind_eq_ok_iff.1 h
      obtain ⟨ks, hs, rfl⟩ := Result.map_eq_ok_iff.1 h
      refine .cons hf (ih _ ?_ hs rfl)
      simp only [List.length_drop, List.length_cons] at hn ⊢
      omega

theorem Scanned.scan_eq {cs : List Char} {ls : List Lexeme} (h : Scanned cs ls) :
    scan cs = .ok ls := by
  induction h with
  | nil => rfl
  | cons hf _ ih => simp [scan_cons, hf, ih, Except.bind, Except.map]

theorem scan_eq_ok_iff {cs : List Char} {ls : List Lexeme} : scan cs = .ok ls ↔ Scanned cs ls :=
  ⟨.of_scan, Scanned.scan_eq⟩

/-! ### One lexeme -/

theorem ofSymbol_eq_ok_iff {c : Char} {l : Lexeme} :
    ofSymbol c = .ok l ↔ l.isWord = false ∧ l.letters = [c] := by
  constructor
  · intro h
    unfold ofSymbol at h
    split at h <;> cases h <;> exact ⟨rfl, rfl⟩
  · rintro ⟨hw, hl⟩
    cases l with
    | number | keyword | letter => simp [isWord] at hw
    | operator o =>
      cases o <;> (simp only [letters, Operator.symbol, List.cons.injEq, and_true] at hl; subst hl; rfl)
    | _ => simp only [letters, List.cons.injEq, and_true] at hl; subst hl; rfl

theorem ofRun_eq_ok_iff {run : List Char} {l : Lexeme} :
    ofRun run = .ok l ↔
      wellFormed run ∧ l = number (if run.head? = some '.' then '0' :: run else run) := by
  unfold ofRun
  split
  · next hw => simp [hw, eq_comm]
  · next hw => simp [hw]

/-- The four ways to begin: a run, a name, a letter that begins no name, a sign. -/
theorem first_cases {c : Char} {cs : List Char} {l : Lexeme} {taken : Nat}
    (h : first c cs = .ok (l, taken)) :
    (isNumeral c ∧ taken = (cs.takeWhile isNumeral).length ∧
      ofRun (c :: cs.takeWhile isNumeral) = .ok l) ∨
    (c.isAlpha ∧ ∃ k, l = keyword k ∧ Keyword.longest? (c :: cs) = some k ∧
      taken = k.letters.length - 1) ∨
    (c.isAlpha ∧ l = letter c ∧ taken = 0 ∧ Keyword.longest? (c :: cs) = none) ∨
    (isWordChar c = false ∧ taken = 0 ∧ ofSymbol c = .ok l) := by
  unfold first at h
  split at h
  · next hc =>
    obtain ⟨r, hr, h⟩ := Result.map_eq_ok_iff.1 h
    cases h
    exact .inl ⟨hc, rfl, hr⟩
  · next hc =>
    split at h
    · next ha =>
      split at h
      · next k hk => cases h; exact .inr (.inl ⟨ha, k, rfl, hk, rfl⟩)
      · next hk => cases h; exact .inr (.inr (.inl ⟨ha, rfl, rfl, hk⟩))
    · next ha =>
      obtain ⟨r, hr, h⟩ := Result.map_eq_ok_iff.1 h
      cases h
      exact .inr (.inr (.inr ⟨by simp [isWordChar, hc, ha], rfl, hr⟩))

theorem first_eq_keyword {c : Char} {cs : List Char} {k : Keyword} {taken : Nat}
    (h : first c cs = .ok (keyword k, taken)) :
    Keyword.longest? (c :: cs) = some k ∧ taken = k.letters.length - 1 := by
  rcases first_cases h with ⟨-, -, h⟩ | ⟨-, m, hm, hk, ht⟩ | ⟨-, h, -⟩ | ⟨-, -, h⟩
  · cases (ofRun_eq_ok_iff.1 h).2
  · cases hm; exact ⟨hk, ht⟩
  · cases h
  · cases (ofSymbol_eq_ok_iff.1 h).1

/-- The text of a name is its letters. -/
theorem eq_letters_append {c : Char} {cs : List Char} {k : Keyword}
    (h : Keyword.longest? (c :: cs) = some k) :
    c :: cs = k.letters ++ cs.drop (k.letters.length - 1) := by
  obtain ⟨⟨tail, htail⟩, -⟩ := Keyword.longest?_eq_some_iff.1 h
  cases hk : k.letters with
  | nil => exact absurd hk k.letters_ne_nil
  | cons d ds =>
    rw [hk, List.cons_append, List.cons.injEq] at htail
    obtain ⟨rfl, rfl⟩ := htail
    simp

theorem isAlpha_iff {c : Char} :
    c.isAlpha ↔ (65 ≤ c.toNat ∧ c.toNat ≤ 90) ∨ (97 ≤ c.toNat ∧ c.toNat ≤ 122) := by
  change (decide ('A'.val ≤ c.val ∧ c.val ≤ 'Z'.val) ||
    (decide ('a'.val ≤ c.val) && decide (c.val ≤ 'z'.val))) = true ↔ _
  simp only [Bool.or_eq_true, Bool.and_eq_true, decide_eq_true_eq, UInt32.le_iff_toNat_le]
  rfl

theorem isNumeral_iff {c : Char} :
    isNumeral c ↔ (48 ≤ c.toNat ∧ c.toNat ≤ 57) ∨ c.toNat = 46 := by
  simp only [isNumeral, Bool.or_eq_true, decide_eq_true_eq, Char.isDigit_iff_toNat,
    ← Char.toNat_inj]
  rfl

theorem isAlpha_eq_false {c : Char} (h : isNumeral c) : c.isAlpha = false := by
  rw [isNumeral_iff] at h
  rw [Bool.eq_false_iff]
  intro ha
  rw [isAlpha_iff] at ha
  omega

theorem isNumeral_eq_false {c : Char} (h : c.isAlpha) : isNumeral c = false := by
  by_contra hc
  rw [Bool.not_eq_false] at hc
  rw [isAlpha_eq_false hc] at h
  cases h

theorem isWordChar_of_isNumeral {c : Char} (h : isNumeral c) : isWordChar c := by
  simp [isWordChar, h]

theorem isWordChar_of_isAlpha {c : Char} (h : c.isAlpha) : isWordChar c := by
  simp [isWordChar, h]

theorem isNumeral_of_mem_takeWhile {c d : Char} {cs : List Char} (hc : isNumeral c)
    (h : d ∈ c :: cs.takeWhile isNumeral) : isNumeral d := by
  rcases List.mem_cons.1 h with rfl | h
  · exact hc
  · exact List.mem_takeWhile_imp h

/-- A lexeme of words takes characters of words only; any other takes its one sign. -/
theorem first_isWord {c : Char} {cs : List Char} {l : Lexeme} {taken : Nat}
    (h : first c cs = .ok (l, taken)) :
    (l.isWord ∧ ∀ d ∈ c :: cs.take taken, isWordChar d) ∨
      (l.isWord = false ∧ taken = 0 ∧ isWordChar c = false ∧ l.letters = [c]) := by
  rcases first_cases h with ⟨hc, rfl, hl⟩ | ⟨ha, k, rfl, hk, rfl⟩ | ⟨ha, rfl, rfl, -⟩ | ⟨hc, rfl, hl⟩
  · refine .inl ⟨by rw [(ofRun_eq_ok_iff.1 hl).2]; rfl, fun d hd => ?_⟩
    rw [← List.prefix_iff_eq_take.1 (List.takeWhile_prefix _)] at hd
    exact isWordChar_of_isNumeral (isNumeral_of_mem_takeWhile hc hd)
  · refine .inl ⟨rfl, fun d hd => isWordChar_of_isAlpha (k.isAlpha_of_mem_letters (c := d) ?_)⟩
    have hlen : (c :: cs.take (k.letters.length - 1)) = (c :: cs).take k.letters.length := by
      rw [← List.take_succ_cons, Nat.sub_add_cancel (List.length_pos_iff.2 k.letters_ne_nil)]
    rw [hlen, eq_letters_append hk, List.take_left] at hd
    exact hd
  · exact .inl ⟨rfl, fun d hd => by simp at hd; exact isWordChar_of_isAlpha (hd ▸ ha)⟩
  · obtain ⟨hw, hl⟩ := ofSymbol_eq_ok_iff.1 hl
    exact .inr ⟨hw, rfl, hc, hl⟩

/-- A number that begins with its point, with a zero before it. -/
def leadingZero (run : List Char) : List Char := if run.head? = some '.' then '0' :: run else run

theorem readable_leadingZero {run : List Char} (hne : run ≠ []) (hrun : ∀ c ∈ run, isNumeral c)
    (hw : wellFormed run) : (number (leadingZero run)).Readable := by
  unfold leadingZero
  split
  · refine ⟨by simp, List.forall_mem_cons.2 ⟨by decide, hrun⟩, ?_, by simp⟩
    simp only [wellFormed, Bool.and_eq_true, decide_eq_true_eq] at hw ⊢
    exact ⟨by rw [List.count_cons_of_ne (by decide)]; exact hw.1, by simp⟩
  · next hpoint => exact ⟨hne, hrun, hw, hpoint⟩

theorem first_readable {c : Char} {cs : List Char} {l : Lexeme} {taken : Nat}
    (h : first c cs = .ok (l, taken)) : l.Readable := by
  rcases first_cases h with ⟨hc, -, h⟩ | ⟨-, k, rfl, -⟩ | ⟨ha, rfl, -, hk⟩ | ⟨-, -, h⟩
  · obtain ⟨hw, rfl⟩ := ofRun_eq_ok_iff.1 h
    have hall : ∀ d ∈ c :: cs.takeWhile isNumeral, isNumeral d := fun d hd =>
      isNumeral_of_mem_takeWhile hc hd
    exact readable_leadingZero (List.cons_ne_nil c _) hall hw
  · trivial
  · refine ⟨ha, Keyword.longest?_eq_none_iff.2 fun k hk' => ?_⟩
    exact Keyword.longest?_eq_none_iff.1 hk k (hk'.trans ⟨cs, rfl⟩)
  · obtain ⟨hw, -⟩ := ofSymbol_eq_ok_iff.1 h
    cases l <;> trivial

/-! ### Names and letters -/

/-- A name does not read on into the lexeme after it. -/
def Apart : Lexeme → Lexeme → Prop
  | keyword k, l => ∀ c ∈ l.letters.head?, ∀ m : Keyword, m.letters ≠ k.letters ++ [c]
  | _, _ => True

theorem Scanned.readable {cs : List Char} {ls : List Lexeme} (h : Scanned cs ls) :
    ∀ l ∈ ls, l.Readable := by
  induction h with
  | nil => simp
  | cons hf _ ih =>
    intro l hl
    rcases List.mem_cons.1 hl with rfl | hl
    · exact first_readable hf
    · exact ih l hl

theorem Scanned.mem_of_letter {cs : List Char} {ls : List Lexeme} (h : Scanned cs ls) {d : Char}
    (hd : letter d ∈ ls) : d ∈ cs := by
  induction h with
  | nil => simp at hd
  | cons hf _ ih =>
    rcases List.mem_cons.1 hd with rfl | hd
    · rcases first_cases hf with ⟨-, -, h⟩ | ⟨-, k, h, -⟩ | ⟨-, h, -⟩ | ⟨-, -, h⟩
      · cases (ofRun_eq_ok_iff.1 h).2
      · cases h
      · cases h; exact List.mem_cons_self
      · cases (ofSymbol_eq_ok_iff.1 h).1
    · exact List.mem_cons_of_mem _ (List.mem_of_mem_drop (ih hd))

/-- A letter that follows begins the rest of the text. -/
theorem Scanned.head?_eq {cs : List Char} {l : Lexeme} {ls : List Lexeme}
    (h : Scanned cs (l :: ls)) (hl : ∀ ds, l ≠ number ds) : cs.head? = l.letters.head? := by
  cases h with
  | cons hf _ =>
    rcases first_cases hf with ⟨-, -, h⟩ | ⟨-, k, rfl, hk, -⟩ | ⟨-, rfl, -⟩ | ⟨-, -, h⟩
    · exact absurd (ofRun_eq_ok_iff.1 h).2 (hl _)
    · rw [eq_letters_append hk, List.head?_append_of_ne_nil _ k.letters_ne_nil]
      rfl
    · rfl
    · rw [(ofSymbol_eq_ok_iff.1 h).2]
      rfl

theorem Scanned.apart {cs : List Char} {ls : List Lexeme} (h : Scanned cs ls) :
    ls.IsChain Apart := by
  induction h with
  | nil => exact .nil
  | @cons c cs l taken ls hf hs ih =>
    refine ih.cons fun b hb => ?_
    cases l with
    | keyword k =>
      intro d hd m hm
      obtain ⟨hk, rfl⟩ := first_eq_keyword hf
      obtain ⟨bs, rfl⟩ : ∃ bs, ls = b :: bs := ⟨ls.tail, (List.eq_cons_of_mem_head? hb)⟩
      -- a number begins with no letter, so no name goes on with it
      have hb' : ∀ ds, b ≠ number ds := by
        rintro ds rfl
        have hr : (number ds).Readable := hs.readable _ List.mem_cons_self
        have hnum : isNumeral d := hr.2.1 d (List.mem_of_mem_head? hd)
        have halpha : d.isAlpha := m.isAlpha_of_mem_letters (by rw [hm]; simp)
        rw [isAlpha_eq_false hnum] at halpha
        cases halpha
      have hrest := hs.head?_eq hb'
      rw [hd] at hrest
      have hpre : m.letters <+: c :: cs := by
        rw [eq_letters_append hk, hm, List.prefix_append_right_inj]
        exact ⟨_, (List.eq_cons_of_mem_head? hrest).symm⟩
      have hlen := (Keyword.longest?_eq_some_iff.1 hk).2 m hpre
      rw [hm, List.length_append, List.length_singleton] at hlen
      omega
    | _ => trivial

end ComplexSeries.Lexeme
