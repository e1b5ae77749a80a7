import ComplexSeries.Proofs.Lexeme.Scanned

/-! Lexemes that are read back from their spelling. Nothing is written between lexemes, so each of
them must be ended by the first character of the next: a run by a character of no run, a letter or
constant by no letter, any other name by no letter that goes on with it. Where two operands are
never side by side and names stay apart, this holds throughout. -/
namespace ComplexSeries.Lexeme

/-- The character ends the lexeme before it. -/
def EndedBy : Lexeme → Char → Prop
  | number _, c => isNumeral c = false
  | letter _, c | keyword (.constant _), c => c.isAlpha = false
  | keyword k, c => ∀ m : Keyword, m.letters ≠ k.letters ++ [c]
  | _, _ => True

/-- No operand ends where another begins. -/
def Parted (a b : Lexeme) : Prop := ¬(a.endsOperand ∧ b.startsOperand)

theorem not_isWordChar_of_not_startsOperand {l : Lexeme} (h : l.startsOperand = false) {c : Char}
    (hc : c ∈ l.letters.head?) : isWordChar c = false := by
  cases l with
  | number | letter | keyword | lparen => cases h
  | operator o => cases o <;> cases hc <;> decide
  | _ => cases hc; decide

theorem endedBy_head {a b : Lexeme} (hapart : Apart a b) (hparted : Parted a b) {c : Char}
    (hc : c ∈ b.letters.head?) : EndedBy a c := by
  have hstop : a.endsOperand → isWordChar c = false := fun ha =>
    not_isWordChar_of_not_startsOperand (by simpa [Parted, ha] using hparted) hc
  have hsplit : isWordChar c = false → isNumeral c = false ∧ c.isAlpha = false := by
    simp [isWordChar]
  cases a with
  | number ds => exact (hsplit (hstop rfl)).1
  | letter d => exact (hsplit (hstop rfl)).2
  | keyword k =>
    cases k with
    | constant k => exact (hsplit (hstop rfl)).2
    | _ => exact hapart c hc
  | _ => trivial

theorem takeWhile_append_of_all {p : Char → Bool} {w cs : List Char} (hw : ∀ c ∈ w, p c)
    (hcs : ∀ c ∈ cs.head?, p c = false) : (w ++ cs).takeWhile p = w := by
  rw [List.takeWhile_append_of_pos hw]
  cases cs with
  | nil => simp
  | cons c cs => rw [List.takeWhile_cons_of_neg (by simp [hcs c rfl]), List.append_nil]

theorem first_number {c : Char} {ds rest : List Char} (h : (number (c :: ds)).Readable)
    (hrest : ∀ d ∈ rest.head?, isNumeral d = false) :
    first c (ds ++ rest) = .ok (number (c :: ds), ds.length) := by
  obtain ⟨-, hall, hw, hp⟩ := h
  have htake : (ds ++ rest).takeWhile isNumeral = ds :=
    takeWhile_append_of_all (fun d hd => hall d (List.mem_cons_of_mem _ hd)) hrest
  have hrun : ofRun (c :: ds) = .ok (number (c :: ds)) :=
    ofRun_eq_ok_iff.2 ⟨hw, by rw [if_neg hp]⟩
  simp [first, hall c List.mem_cons_self, htake, hrun, Except.map]

/-- A letter is no numeral, so what it begins depends on the names alone. -/
theorem first_of_isAlpha {c : Char} (hc : c.isAlpha) (cs : List Char) :
    first c cs = match Keyword.longest? (c :: cs) with
      | some k => .ok (keyword k, k.letters.length - 1)
      | none => .ok (letter c, 0) := by
  have hn : isNumeral c = false := isNumeral_eq_false hc
  cases hk : Keyword.longest? (c :: cs) <;> simp [first, hn, hc, hk]

theorem longest?_of_endedBy {k : Keyword} {rest : List Char}
    (h : ∀ c ∈ rest.head?, EndedBy (keyword k) c) :
    Keyword.longest? (k.letters ++ rest) = some k := by
  cases k with
  | constant k =>
    rw [Keyword.longest?_append_of_not_isAlpha h]
    exact Keyword.longest?_letters _
  | _ => exact Keyword.longest?_append rfl h

/-- A lexeme that is ended by what follows is read from its spelling. -/
theorem first_of_endedBy {l : Lexeme} (hl : l.Readable) {rest : List Char}
    (hrest : ∀ c ∈ rest.head?, EndedBy l c) :
    ∃ c cs, l.letters = c :: cs ∧ first c (cs ++ rest) = .ok (l, cs.length) := by
  cases l with
  | number ds =>
    obtain ⟨c, ds, rfl⟩ := List.exists_cons_of_ne_nil hl.1
    exact ⟨c, ds, rfl, first_number hl hrest⟩
  | letter c =>
    refine ⟨c, [], rfl, ?_⟩
    have hnone : Keyword.longest? (c :: rest) = none :=
      (Keyword.longest?_append_of_not_isAlpha (w := [c]) hrest).trans hl.2
    rw [List.nil_append, first_of_isAlpha hl.1, hnone]
    rfl
  | keyword k =>
    obtain ⟨c, cs, hk⟩ := List.exists_cons_of_ne_nil k.letters_ne_nil
    have hc : c.isAlpha := k.isAlpha_of_mem_letters (by simp [hk])
    have hsome := longest?_of_endedBy hrest
    rw [hk, List.cons_append] at hsome
    exact ⟨c, cs, hk, by rw [first_of_isAlpha hc, hsome]; simp [hk]⟩
  | operator o => cases o <;> exact ⟨_, [], rfl, rfl⟩
  | _ => exact ⟨_, [], rfl, rfl⟩

theorem render_head? {l : Lexeme} (hl : l.Readable) (ls : List Lexeme) :
    (render (l :: ls)).head? = l.letters.head? := by
  have hend : ∀ c ∈ ([] : List Char).head?, EndedBy l c := by simp
  obtain ⟨c, cs, hc, -⟩ := first_of_endedBy hl hend
  simp [hc]

/-- Readable lexemes whose operands are parted and whose names stay apart are read back. -/
theorem scanned_render {ls : List Lexeme} (hread : ∀ l ∈ ls, l.Readable)
    (hchain : ls.IsChain fun a b => Apart a b ∧ Parted a b) : Scanned (render ls) ls := by
  induction ls with
  | nil => exact .nil
  | cons l ls ih =>
    have hnext : ∀ c ∈ (render ls).head?, EndedBy l c := by
      intro c hc
      cases ls with
      | nil => simp at hc
      | cons b ls =>
        rw [render_head? (hread b (by simp))] at hc
        exact endedBy_head hchain.rel.1 hchain.rel.2 hc
    obtain ⟨c, cs, hl, hfirst⟩ := first_of_endedBy (hread l List.mem_cons_self) hnext
    rw [render_cons, hl, List.cons_append]
    refine .cons hfirst ?_
    rw [List.drop_left]
    exact ih (fun b hb => hread b (List.mem_cons_of_mem _ hb)) hchain.of_cons

end ComplexSeries.Lexeme
