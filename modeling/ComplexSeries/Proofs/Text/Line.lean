import Mathlib.Data.List.TakeWhile
import ComplexSeries.Text.Blank
import ComplexSeries.Text.Line

/-! Texts below one another. Their lines are the lines of both texts, except that the last line of the
upper text is ended now: it loses a carriage return, and if there was none, an empty line appears.
Trimming sees neither. -/
namespace ComplexSeries.Text

/-! ### Trimming -/

theorem trimStart_eq_nil_iff {cs : List Char} : trimStart cs = [] ↔ ∀ c ∈ cs, isBlank c = true :=
  List.dropWhile_eq_nil_iff

theorem trim_eq_nil_iff {cs : List Char} : trim cs = [] ↔ ∀ c ∈ cs, isBlank c = true := by
  have hstart : trimStart cs = [] ↔ ∀ c ∈ cs, isBlank c = true := trimStart_eq_nil_iff
  rw [trim, List.reverse_eq_nil_iff, trimStart_eq_nil_iff, ← hstart]
  constructor
  · intro h
    by_contra hne
    have hhead : isBlank ((trimStart cs).head hne) = false := List.head_dropWhile_not isBlank hne
    rw [h _ (List.mem_reverse.2 (List.head_mem hne))] at hhead
    cases hhead
  · intro h
    rw [h]
    exact fun c hc => absurd hc List.not_mem_nil

theorem trim_append_singleton {c : Char} (h : isBlank c = true) (cs : List Char) :
    trim (cs ++ [c]) = trim cs := by
  by_cases hnil : trimStart cs = []
  · have hblank := trimStart_eq_nil_iff.1 hnil
    rw [trim_eq_nil_iff.2 hblank, trim_eq_nil_iff]
    exact List.forall_mem_append.2 ⟨hblank, List.forall_mem_singleton.2 h⟩
  · have hstart : trimStart (cs ++ [c]) = trimStart cs ++ [c] := by
      rw [trimStart, List.dropWhile_append, if_neg (by simpa [trimStart] using hnil)]
      rfl
    rw [trim, hstart, List.reverse_append]
    exact congrArg List.reverse (List.dropWhile_cons_of_pos h)

/-! ### Lines -/

theorem linesFrom_append (line cs ds : List Char) :
    ∃ init last, linesFrom line (cs ++ '\n' :: ds) = init ++ last :: lines ds ∧
      (linesFrom line cs = init ∧ last = [] ∨
        ∃ ended, linesFrom line cs = init ++ [last ++ ended] ∧ (ended = [] ∨ ended = ['\r'])) := by
  induction cs generalizing line with
  | nil =>
    refine ⟨[], _, rfl, ?_⟩
    cases line with
    | nil => exact .inl ⟨rfl, rfl⟩
    | cons c line =>
      refine .inr ?_
      by_cases hc : c = '\r'
      · subst hc
        exact ⟨['\r'], by simp [linesFrom], .inr rfl⟩
      · exact ⟨[], by simp [linesFrom, hc], .inl rfl⟩
  | cons c cs ih =>
    by_cases hc : c = '\n'
    · subst hc
      obtain ⟨init, last, hwhole, hupper⟩ := ih []
      rw [List.cons_append, linesFrom, if_pos rfl, linesFrom, if_pos rfl, hwhole]
      refine ⟨_ :: init, last, rfl, hupper.imp ?_ ?_⟩
      · exact fun ⟨h, hlast⟩ => ⟨congrArg _ h, hlast⟩
      · exact fun ⟨ended, h, hended⟩ => ⟨ended, congrArg _ h, hended⟩
    · rw [List.cons_append, linesFrom, if_neg hc, linesFrom, if_neg hc]
      exact ih (c :: line)

theorem lines_append (cs ds : List Char) :
    ∃ init last, lines (cs ++ '\n' :: ds) = init ++ last :: lines ds ∧
      (lines cs = init ∧ last = [] ∨
        ∃ ended, lines cs = init ++ [last ++ ended] ∧ (ended = [] ∨ ended = ['\r'])) :=
  linesFrom_append [] cs ds

theorem mem_of_mem_linesFrom {line cs l : List Char} {c : Char} (hl : l ∈ linesFrom line cs)
    (hc : c ∈ l) : c ∈ line ∨ c ∈ cs := by
  induction cs generalizing line with
  | nil =>
    unfold linesFrom at hl
    split at hl
    · cases hl
    · rw [List.mem_singleton.1 hl, List.mem_reverse] at hc
      exact .inl hc
  | cons d cs ih =>
    unfold linesFrom at hl
    split at hl
    · rcases List.mem_cons.1 hl with rfl | hl
      · refine .inl ?_
        rw [List.mem_reverse] at hc
        split at hc
        · exact List.mem_of_mem_drop hc
        · exact hc
      · exact .inr (List.mem_cons_of_mem _ ((ih hl).resolve_left List.not_mem_nil))
    · rcases ih hl with hc | hc
      · exact (List.mem_cons.1 hc).elim (fun h => .inr (h ▸ List.mem_cons_self)) .inl
      · exact .inr (List.mem_cons_of_mem _ hc)

theorem mem_of_mem_lines {cs l : List Char} {c : Char} (hl : l ∈ lines cs) (hc : c ∈ l) : c ∈ cs :=
  (mem_of_mem_linesFrom hl hc).resolve_left List.not_mem_nil

/-! ### Lists of lines -/

/-- Each line after a line feed. -/
def listing (ls : List (List Char)) : List Char := ls.flatMap ('\n' :: ·)

@[simp] theorem listing_nil : listing [] = [] := rfl

@[simp] theorem listing_cons (l : List Char) (ls : List (List Char)) :
    listing (l :: ls) = '\n' :: (l ++ listing ls) := rfl

@[simp] theorem listing_append (ks ls : List (List Char)) :
    listing (ks ++ ls) = listing ks ++ listing ls := List.flatMap_append

theorem newline_unlines {ls : List (List Char)} (h : ls ≠ []) : '\n' :: unlines ls = listing ls := by
  induction ls with
  | nil => exact absurd rfl h
  | cons l ls ih =>
    cases ls with
    | nil => simp [unlines]
    | cons k ls =>
      rw [listing_cons, ← ih (List.cons_ne_nil k ls)]
      simp [unlines, List.intercalate_cons_cons]

end ComplexSeries.Text
