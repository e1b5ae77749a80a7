import ComplexSeries.Proofs.Lexeme.Rescan

/-! What splitting a text keeps of it. A text is split from left to right into the longest lexemes
that begin what is left of it, and written back it differs only by the zeros before numbers that
begin with their point. A zero there takes no part in any name and goes on with no number, so the
text written back is split at the same places into the same lexemes. -/
namespace ComplexSeries.Lexeme

/-- The longest lexeme that begins a text, and the text after it. -/
inductive Begins : List Char → Lexeme → List Char → Prop
  | number {run rest : List Char} : run ≠ [] → (∀ c ∈ run, isNumeral c) →
      (∀ c ∈ rest.head?, isNumeral c = false) → wellFormed run →
      Begins (run ++ rest) (number (leadingZero run)) rest
  | keyword {k : Keyword} {rest : List Char} :
      (∀ m : Keyword, m.letters <+: k.letters ++ rest → m.letters.length ≤ k.letters.length) →
      Begins (k.letters ++ rest) (keyword k) rest
  | letter {c : Char} {rest : List Char} : c.isAlpha →
      (∀ k : Keyword, ¬k.letters <+: c :: rest) → Begins (c :: rest) (letter c) rest
  | sign {l : Lexeme} {rest : List Char} : l.isWord = false → Begins (l.letters ++ rest) l rest

/-- The text is split into the longest lexemes, one after the other. -/
inductive Splits : List Char → List Lexeme → Prop
  | nil : Splits [] []
  | cons {cs rest : List Char} {l : Lexeme} {ls : List Lexeme} :
      Begins cs l rest → Splits rest ls → Splits cs (l :: ls)

/-- Writes a zero before each run of digits and points that begins with a point. Within a run, the
character before is a digit or a point as well. -/
def zerosFrom (inRun : Bool) : List Char → List Char
  | [] => []
  | c :: cs =>
    if c = '.' && !inRun then '0' :: c :: zerosFrom true cs else c :: zerosFrom (isNumeral c) cs

def withZeros (cs : List Char) : List Char := zerosFrom false cs

/-! ### One lexeme -/

/-- A text falls into its first run and a rest that does not go on with it. -/
theorem exists_run (cs : List Char) : ∃ run rest, cs = run ++ rest ∧ (∀ c ∈ run, isNumeral c) ∧
    ∀ c ∈ rest.head?, isNumeral c = false := by
  refine ⟨cs.takeWhile isNumeral, cs.dropWhile isNumeral, List.takeWhile_append_dropWhile.symm,
    fun c hc => List.mem_takeWhile_imp hc, fun c hc => ?_⟩
  have hhead := List.head?_dropWhile_not isNumeral cs
  rw [hc] at hhead
  exact hhead

theorem begins_of_first {c : Char} {cs : List Char} {l : Lexeme} {taken : ℕ}
    (h : first c cs = .ok (l, taken)) : Begins (c :: cs) l (cs.drop taken) := by
  rcases first_cases h with ⟨hc, rfl, hl⟩ | ⟨-, k, rfl, hk, rfl⟩ | ⟨ha, rfl, rfl, hk⟩ | ⟨-, rfl, hl⟩
  · obtain ⟨run, rest, rfl, hrun, hrest⟩ := exists_run cs
    rw [takeWhile_append_of_all hrun hrest] at hl ⊢
    obtain ⟨hw, rfl⟩ := ofRun_eq_ok_iff.1 hl
    rw [List.drop_left, ← List.cons_append]
    exact .number (List.cons_ne_nil c run) (List.forall_mem_cons.2 ⟨hc, hrun⟩) hrest hw
  · have htext := eq_letters_append hk
    obtain ⟨-, hlongest⟩ := Keyword.longest?_eq_some_iff.1 hk
    rw [htext] at hlongest ⊢
    exact .keyword hlongest
  · exact .letter ha (Keyword.longest?_eq_none_iff.1 hk)
  · obtain ⟨hw, hletters⟩ := ofSymbol_eq_ok_iff.1 hl
    have hsign : Begins (l.letters ++ cs) l cs := .sign hw
    rwa [hletters] at hsign

theorem Begins.first_eq {cs rest : List Char} {l : Lexeme} (h : Begins cs l rest) :
    ∃ c tail taken, cs = c :: tail ∧ first c tail = .ok (l, taken) ∧ tail.drop taken = rest := by
  cases h with
  | @number run rest hne hrun hrest hw =>
    obtain ⟨c, run, rfl⟩ := List.exists_cons_of_ne_nil hne
    obtain ⟨hc, hrun⟩ := List.forall_mem_cons.1 hrun
    have hl : ofRun (c :: run) = .ok (.number (leadingZero (c :: run))) :=
      ofRun_eq_ok_iff.2 ⟨hw, rfl⟩
    refine ⟨c, run ++ rest, run.length, rfl, ?_, List.drop_left⟩
    simp [first, hc, takeWhile_append_of_all hrun hrest, hl, Except.map]
  | @keyword k rest hlongest =>
    obtain ⟨c, tail, hk⟩ := List.exists_cons_of_ne_nil k.letters_ne_nil
    have hc : c.isAlpha := k.isAlpha_of_mem_letters (by simp [hk])
    have hsome := Keyword.longest?_eq_some_iff.2 ⟨List.prefix_append k.letters rest, hlongest⟩
    rw [hk, List.cons_append] at hsome
    refine ⟨c, tail ++ rest, tail.length, by rw [hk]; rfl, ?_, List.drop_left⟩
    rw [first_of_isAlpha hc, hsome]
    simp [hk]
  | @letter c rest hc hnone =>
    refine ⟨c, rest, 0, rfl, ?_, rfl⟩
    rw [first_of_isAlpha hc, Keyword.longest?_eq_none_iff.2 hnone]
  | @sign _ rest hw =>
    have hread : l.Readable ∧ ∀ c ∈ rest.head?, EndedBy l c := by
      cases l with
      | number | keyword | letter => cases hw
      | _ => exact ⟨trivial, fun _ _ => trivial⟩
    obtain ⟨c, cs, hl, hfirst⟩ := first_of_endedBy hread.1 hread.2
    exact ⟨c, cs ++ rest, cs.length, by rw [hl]; rfl, hfirst, List.drop_left⟩

/-- Splitting succeeds where the text can be split into longest lexemes, and gives these. -/
theorem scan_eq_ok_iff_splits {cs : List Char} {ls : List Lexeme} :
    scan cs = .ok ls ↔ Splits cs ls := by
  rw [scan_eq_ok_iff]
  constructor
  · intro h
    induction h with
    | nil => exact .nil
    | cons hf _ ih => exact .cons (begins_of_first hf) ih
  · intro h
    induction h with
    | nil => exact .nil
    | cons hl _ ih =>
      obtain ⟨c, tail, taken, rfl, hf, rfl⟩ := hl.first_eq
      exact .cons hf ih

/-! ### Zeros -/

section

variable {w cs rest : List Char}

theorem zerosFrom_cons_of_ne {c : Char} (hc : c ≠ '.') (inRun : Bool) :
    zerosFrom inRun (c :: cs) = c :: zerosFrom (isNumeral c) cs := by
  simp [zerosFrom, hc]

/-- Nothing is written before what begins with no point. -/
theorem zerosFrom_eq_withZeros (h : ∀ c ∈ cs.head?, isNumeral c = false) (inRun : Bool) :
    zerosFrom inRun cs = withZeros cs := by
  cases cs with
  | nil => rfl
  | cons c cs =>
    have hc : c ≠ '.' := by
      rintro rfl
      exact absurd (h '.' rfl) (by decide)
    rw [withZeros, zerosFrom_cons_of_ne hc, zerosFrom_cons_of_ne hc]

theorem withZeros_append (hw : ∀ c ∈ w, isNumeral c = false) :
    withZeros (w ++ rest) = w ++ withZeros rest := by
  induction w with
  | nil => rfl
  | cons c w ih =>
    obtain ⟨hc, hw⟩ := List.forall_mem_cons.1 hw
    have hpoint : c ≠ '.' := by
      rintro rfl
      exact absurd hc (by decide)
    rw [List.cons_append, withZeros, zerosFrom_cons_of_ne hpoint, hc]
    exact congrArg (c :: ·) (ih hw)

/-- A run is left as it is, once it has begun. -/
theorem zerosFrom_append (hw : ∀ c ∈ w, isNumeral c) :
    zerosFrom true (w ++ rest) = w ++ zerosFrom true rest := by
  induction w with
  | nil => rfl
  | cons c w ih =>
    obtain ⟨hc, hw⟩ := List.forall_mem_cons.1 hw
    rw [List.cons_append, zerosFrom, Bool.not_true, Bool.and_false, if_neg Bool.false_ne_true, hc,
      ih hw, List.cons_append]

theorem withZeros_run (hne : w ≠ []) (hw : ∀ c ∈ w, isNumeral c)
    (hrest : ∀ c ∈ rest.head?, isNumeral c = false) :
    withZeros (w ++ rest) = leadingZero w ++ withZeros rest := by
  obtain ⟨c, w, rfl⟩ := List.exists_cons_of_ne_nil hne
  obtain ⟨hc, hw⟩ := List.forall_mem_cons.1 hw
  have htail : zerosFrom true (w ++ rest) = w ++ withZeros rest := by
    rw [zerosFrom_append hw, zerosFrom_eq_withZeros hrest]
  rw [List.cons_append, withZeros]
  by_cases hpoint : c = '.'
  · subst hpoint
    exact congrArg (['0', '.'] ++ ·) htail
  · rw [zerosFrom_cons_of_ne hpoint, hc, htail, leadingZero, if_neg (by simpa using hpoint)]
    rfl

/-- The same names begin the text with and without its zeros. -/
theorem prefix_of_prefix_withZeros (hw : ∀ c ∈ w, c.isAlpha) (h : w <+: withZeros cs) :
    w <+: cs := by
  induction w generalizing cs with
  | nil => exact List.nil_prefix
  | cons c w ih =>
    obtain ⟨hc, hw⟩ := List.forall_mem_cons.1 hw
    cases cs with
    | nil => exact h
    | cons d cs =>
      by_cases hpoint : d = '.'
      · subst hpoint
        obtain ⟨rfl, -⟩ := List.cons_prefix_cons.1 (show c :: w <+: '0' :: '.' :: _ from h)
        exact absurd hc (by decide)
      · rw [withZeros, zerosFrom_cons_of_ne hpoint] at h
        obtain ⟨rfl, h⟩ := List.cons_prefix_cons.1 h
        rw [isNumeral_eq_false hc] at h
        exact List.cons_prefix_cons.2 ⟨rfl, ih hw h⟩

theorem head?_withZeros (h : ∀ c ∈ cs.head?, isNumeral c = false) :
    ∀ c ∈ (withZeros cs).head?, isNumeral c = false := by
  cases cs with
  | nil => exact h
  | cons c cs =>
    have hc := h c rfl
    rw [← List.singleton_append, withZeros_append (by simpa using hc)]
    exact h

end

/-! ### A text and its rendering -/

/-- With the zeros written, the text begins with the same lexeme, now as it is spelled. -/
theorem Begins.withZeros {cs rest : List Char} {l : Lexeme} (h : Begins cs l rest) :
    Lexeme.withZeros cs = l.letters ++ Lexeme.withZeros rest ∧
      Begins (Lexeme.withZeros cs) l (Lexeme.withZeros rest) := by
  cases h with
  | @number run rest hne hrun hrest hw =>
    have htext := withZeros_run hne hrun hrest
    obtain ⟨hne, hrun, hw, hpoint⟩ := readable_leadingZero hne hrun hw
    have hnumber := Begins.number hne hrun (head?_withZeros hrest) hw
    rw [leadingZero.eq_def (leadingZero run), if_neg hpoint, ← htext] at hnumber
    exact ⟨htext, hnumber⟩
  | @keyword k rest hlongest =>
    have htext : Lexeme.withZeros (k.letters ++ rest) = k.letters ++ Lexeme.withZeros rest :=
      withZeros_append fun c hc => isNumeral_eq_false (k.isAlpha_of_mem_letters hc)
    refine ⟨htext, htext ▸ .keyword fun m hm => hlongest m ?_⟩
    rw [← htext] at hm
    exact prefix_of_prefix_withZeros (fun c hc => m.isAlpha_of_mem_letters hc) hm
  | @letter c rest hc hnone =>
    have htext : Lexeme.withZeros (c :: rest) = c :: Lexeme.withZeros rest :=
      withZeros_append (w := [c]) (by simpa using isNumeral_eq_false hc)
    refine ⟨htext, htext ▸ .letter hc fun k hk => hnone k ?_⟩
    rw [← htext] at hk
    exact prefix_of_prefix_withZeros (fun c hc => k.isAlpha_of_mem_letters hc) hk
  | @sign _ rest hw =>
    have htext : Lexeme.withZeros (l.letters ++ rest) = l.letters ++ Lexeme.withZeros rest := by
      refine withZeros_append fun c hc => ?_
      cases l with
      | number | keyword | letter => cases hw
      | operator o => cases o <;> (rw [List.mem_singleton.1 hc]; decide)
      | _ => rw [List.mem_singleton.1 hc]; decide
    exact ⟨htext, htext ▸ .sign hw⟩

theorem Splits.withZeros {cs : List Char} {ls : List Lexeme} (h : Splits cs ls) :
    render ls = Lexeme.withZeros cs ∧ Splits (Lexeme.withZeros cs) ls := by
  induction h with
  | nil => exact ⟨rfl, .nil⟩
  | cons hl _ ih =>
    obtain ⟨htext, hbegins⟩ := hl.withZeros
    exact ⟨by rw [render_cons, ih.1, htext], .cons hbegins ih.2⟩

/-- A text that can be split is split into longest lexemes. They are written back as the text with
the zeros that it leaves out, and that is split into the same lexemes again. -/
theorem splits_and_scan_render {cs : List Char} {ls : List Lexeme} (h : scan cs = .ok ls) :
    Splits cs ls ∧ render ls = withZeros cs ∧ scan (render ls) = .ok ls := by
  have hsplits := scan_eq_ok_iff_splits.1 h
  obtain ⟨hrender, hagain⟩ := hsplits.withZeros
  exact ⟨hsplits, hrender, scan_eq_ok_iff_splits.2 (hrender ▸ hagain)⟩

/-- Names that begin alike, side by side, and numbers that begin or end with their point. -/
theorem splits_and_scan_render_names :
    let cs := "2.sinhcos.5+.7pik".toList
    let ls := [number ['2', '.'], keyword (.function .sinh), keyword (.function .cos),
      number ['0', '.', '5'], operator .add, number ['0', '.', '7'], keyword (.constant .pi),
      letter 'k']
    scan cs = .ok ls ∧ Splits cs ls ∧ render ls = withZeros cs ∧
      render ls = "2.sinhcos0.5+0.7pik".toList ∧ scan (render ls) = .ok ls := by
  intro cs ls
  have hscan : scan cs = .ok ls := by rfl
  obtain ⟨hsplits, hrender, hagain⟩ := splits_and_scan_render hscan
  exact ⟨hscan, hsplits, hrender, rfl, hagain⟩

end ComplexSeries.Lexeme
