import ComplexSeries.Settings.Document

/-! What the readers of settings documents consume. Each name, value, pair and section takes a character
at least, so repeating its reader ends only where it fails: as many items are read as there are. -/
namespace ComplexSeries.Settings.Reader

/-! ### Repetition -/

section

variable {α : Type} {item : List Char → Option (α × List Char)} {cs rest : List Char} {as : List α}

/-- The items take up what stands before `rest`, and there is none at its beginning. -/
inductive Many (item : List Char → Option (α × List Char)) : List Char → List α → List Char → Prop
  | stop {cs : List Char} : item cs = none → Many item cs [] cs
  | step {cs next rest : List Char} {a : α} {as : List α} : item cs = some (a, next) →
      Many item next as rest → Many item cs (a :: as) rest

/-- The rest of a text from which something has been taken. -/
def Shorter (rest cs : List Char) : Prop := rest <:+ cs ∧ rest.length < cs.length

theorem Shorter.of_suffix {next : List Char} (h : rest <:+ next) (hnext : Shorter next cs) :
    Shorter rest cs :=
  ⟨h.trans hnext.1, Nat.lt_of_le_of_lt h.length_le hnext.2⟩

/-- Each item takes a character at least. -/
def Consumes (item : List Char → Option (α × List Char)) : Prop :=
  ∀ cs a rest, item cs = some (a, rest) → Shorter rest cs

theorem Many.unique {as' : List α} {rest' : List Char} (h : Many item cs as rest)
    (h' : Many item cs as' rest') : as = as' ∧ rest = rest' := by
  induction h generalizing as' with
  | stop hnone =>
    cases h' with
    | stop => exact ⟨rfl, rfl⟩
    | step hsome => rw [hnone] at hsome; cases hsome
  | step hsome _ ih =>
    cases h' with
    | stop hnone => rw [hsome] at hnone; cases hnone
    | step hsome' hmany =>
      rw [hsome] at hsome'
      cases hsome'
      obtain ⟨rfl, rfl⟩ := ih hmany
      exact ⟨rfl, rfl⟩

theorem Consumes.nil_eq_none (h : Consumes item) : item [] = none :=
  Option.eq_none_iff_forall_ne_some.2 fun p hp =>
    absurd (h [] p.1 p.2 hp).2 (Nat.not_lt_zero _)

theorem Consumes.many_repeated (h : Consumes item) {most : Nat} (hmost : cs.length ≤ most) :
    Many item cs (repeated item most cs).1 (repeated item most cs).2 := by
  induction most generalizing cs with
  | zero =>
    obtain rfl : cs = [] := List.eq_nil_of_length_eq_zero (Nat.le_zero.1 hmost)
    exact .stop h.nil_eq_none
  | succ most ih =>
    rw [repeated]
    cases hitem : item cs with
    | none => exact .stop hitem
    | some p =>
      have hlength := (h cs p.1 p.2 hitem).2
      exact .step hitem (ih (by omega))

theorem Consumes.many_iff (h : Consumes item) : many item cs = (as, rest) ↔ Many item cs as rest := by
  have hmany : Many item cs (many item cs).1 (many item cs).2 := h.many_repeated (Nat.le_refl _)
  constructor
  · intro heq
    rwa [heq] at hmany
  · intro hmany'
    obtain ⟨has, hrest⟩ := hmany.unique hmany'
    exact Prod.ext has hrest

theorem Consumes.many1?_eq_some_iff (h : Consumes item) :
    many1? item cs = some (as, rest) ↔ as ≠ [] ∧ Many item cs as rest := by
  rw [← h.many_iff, many1?]
  rcases many item cs with ⟨_ | ⟨a, found⟩, after⟩
  · constructor
    · intro heq
      cases heq
    · rintro ⟨hne, heq⟩
      cases heq
      exact absurd rfl hne
  · rw [Option.some.injEq]
    constructor
    · intro heq
      cases heq
      exact ⟨List.cons_ne_nil _ _, rfl⟩
    · exact And.right

theorem Many.suffix (hitem : Consumes item) (h : Many item cs as rest) : rest <:+ cs := by
  induction h with
  | stop => exact List.suffix_rfl
  | step hsome _ ih => exact ih.trans (hitem _ _ _ hsome).1

end

/-! ### What is consumed -/

theorem consumes_name? : Consumes name? := by
  intro cs key rest h
  cases cs with
  | nil => cases h
  | cons c cs =>
    rw [name?] at h
    split at h
    · obtain ⟨-, rfl⟩ := Prod.mk.inj (Option.some.inj h)
      exact .of_suffix (List.dropWhile_suffix _) ⟨List.suffix_cons c cs, Nat.lt_succ_self _⟩
    · cases h

theorem consumes_value? : Consumes value? := by
  intro cs v rest h
  unfold value? at h
  dsimp only at h
  split at h
  · cases h
  · next hword =>
    cases h
    refine ⟨List.dropWhile_suffix _, ?_⟩
    have hlength := congrArg List.length (List.takeWhile_append_dropWhile (p := inWord) (l := cs))
    have hpos : 0 < (cs.takeWhile inWord).length := List.length_pos_iff.2 (by simpa using hword)
    rw [List.length_append] at hlength
    omega

/-- What stands after a sign on the same line. -/
def after? (sign : Char) (cs : List Char) : Option (List Char) :=
  match skipSpaces cs with
  | [] => none
  | c :: rest => if c = sign then some (skipSpaces rest) else none

theorem suffix_after? {sign : Char} {cs rest : List Char} (h : after? sign cs = some rest) :
    rest <:+ cs := by
  unfold after? at h
  split at h
  · cases h
  · next c after hskip =>
    split at h
    · cases h
      have hafter : c :: after <:+ cs := hskip ▸ List.dropWhile_suffix isSpace
      exact (List.dropWhile_suffix isSpace).trans ((List.suffix_cons c after).trans hafter)
    · cases h

theorem nextValue?_eq (cs : List Char) : nextValue? cs = (after? ',' cs).bind value? := by
  unfold nextValue? after?
  cases skipSpaces cs with
  | nil => rfl
  | cons c rest =>
    by_cases hc : c = ','
    · subst hc
      rfl
    · simp [hc]

theorem consumes_nextValue? : Consumes nextValue? := by
  intro cs v rest h
  rw [nextValue?_eq] at h
  obtain ⟨after, hafter, hvalue⟩ := Option.bind_eq_some_iff.1 h
  have hvalue := consumes_value? _ _ _ hvalue
  have hsuffix := suffix_after? hafter
  exact ⟨hvalue.1.trans hsuffix, Nat.lt_of_lt_of_le hvalue.2 hsuffix.length_le⟩

theorem values?_eq (cs : List Char) :
    values? cs = (value? cs).map fun first =>
      (first.1 :: (many nextValue? first.2).1, (many nextValue? first.2).2) := by
  rw [values?]
  cases value? cs <;> rfl

theorem pair?_eq (cs : List Char) :
    pair? cs = (name? cs).bind fun key => (after? ':' key.2).bind fun rest =>
      (values? rest).map fun values => ((key.1, values.1), skipGaps values.2) := by
  unfold pair? after?
  cases name? cs with
  | none => rfl
  | some key =>
    dsimp only [bind, Option.bind_some]
    cases skipSpaces key.2 with
    | nil => rfl
    | cons c rest =>
      by_cases hc : c = ':'
      · subst hc
        dsimp only
        rw [if_pos rfl, Option.bind_some, Option.map_eq_bind]
        rfl
      · simp [hc]

theorem section?_eq (cs : List Char) : section? cs =
    (name? (skipGaps cs)).bind fun title =>
      (many1? pair? (skipGaps title.2)).map fun pairs =>
        ((title.1, pairs.1), skipGaps pairs.2) := by
  rw [section?]
  cases name? (skipGaps cs) with
  | none => rfl
  | some title =>
    change Option.bind (many1? pair? (skipGaps title.2)) _ = _
    rw [Option.bind_some, Option.map_eq_bind]
    rfl

theorem suffix_values? {cs rest : List Char} {vs : List Value} (h : values? cs = some (vs, rest)) :
    rest <:+ cs := by
  rw [values?_eq] at h
  obtain ⟨first, hfirst, heq⟩ := Option.map_eq_some_iff.1 h
  obtain ⟨-, rfl⟩ := Prod.mk.inj heq
  have hmany : Many nextValue? first.2 (many nextValue? first.2).1 (many nextValue? first.2).2 :=
    consumes_nextValue?.many_iff.1 rfl
  exact (hmany.suffix consumes_nextValue?).trans (consumes_value? _ _ _ hfirst).1

theorem consumes_pair? : Consumes pair? := by
  intro cs p rest h
  rw [pair?_eq] at h
  obtain ⟨key, hkey, h⟩ := Option.bind_eq_some_iff.1 h
  obtain ⟨after, hafter, h⟩ := Option.bind_eq_some_iff.1 h
  obtain ⟨values, hvalues, heq⟩ := Option.map_eq_some_iff.1 h
  obtain ⟨-, rfl⟩ := Prod.mk.inj heq
  have hrest : values.2 <:+ key.2 := (suffix_values? hvalues).trans (suffix_after? hafter)
  exact .of_suffix ((List.dropWhile_suffix isGap).trans hrest) (consumes_name? _ _ _ hkey)

theorem consumes_section? : Consumes section? := by
  intro cs part rest h
  rw [section?_eq] at h
  obtain ⟨title, htitle, h⟩ := Option.bind_eq_some_iff.1 h
  obtain ⟨pairs, hpairs, heq⟩ := Option.map_eq_some_iff.1 h
  obtain ⟨-, rfl⟩ := Prod.mk.inj heq
  have hmany := (consumes_pair?.many1?_eq_some_iff.1 hpairs).2
  have hrest : skipGaps pairs.2 <:+ title.2 := (List.dropWhile_suffix isGap).trans
    ((hmany.suffix consumes_pair?).trans (List.dropWhile_suffix isGap))
  have hcs : skipGaps cs <:+ cs := List.dropWhile_suffix isGap
  have htitle := Shorter.of_suffix hrest (consumes_name? _ _ _ htitle)
  exact ⟨htitle.1.trans hcs, Nat.lt_of_lt_of_le htitle.2 hcs.length_le⟩

end ComplexSeries.Settings.Reader
