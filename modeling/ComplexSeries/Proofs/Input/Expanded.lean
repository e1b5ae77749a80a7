import Mathlib.Data.List.Perm.Basic
import ComplexSeries.Proofs.Input.Mark

/-! When marks are expanded. In a list with balanced brackets a mark has an operand if the lexeme
before it ends one; an expanded mark ends one too, as its factor ends in a bracket. So a run
succeeds if every mark comes after the end of an operand, and stops at the first that does not. What
it writes is the list with the factors in place of the marks, and with one bracket opened for each
of them. -/
namespace ComplexSeries.Input

open Lexeme

/-! ### Operands -/

/-- The search backwards comes to an end where more brackets are open than have been closed. -/
theorem exists_distance? {ls : List Lexeme} {d : Nat} (depth : Nat)
    (h : nesting 0 ls.reverse = some d) (hlt : depth < d) :
    ∃ k, Bracket.distance? isClose isOpen (depth + 1) ls = some k := by
  have hends := (nesting_eq_some_iff.1 h).ends
  rw [Bracket.height_reverse] at hends
  refine Bracket.exists_distance?_eq (Bracket.oneKind_lexemes ls).swap depth ?_
  rw [Bracket.height_swap]
  omega

/-- The last lexeme ends an operand. -/
def HasOperand (before : List Lexeme) : Prop := ∃ l ∈ before.getLast?, l.endsOperand

theorem hasOperand_append_singleton {before : List Lexeme} {l : Lexeme} :
    HasOperand (before ++ [l]) ↔ l.endsOperand := by
  simp [HasOperand]

/-- Where no bracket closes too many, what ends in the end of an operand ends in an operand. -/
theorem exists_operand? {written : List Lexeme} {d : Nat}
    (hnesting : nesting 0 written.reverse = some d) (hmarks : ∀ l ∈ written, l.isMark = false) :
    (∃ p, operand? written = some p) ↔ HasOperand written.reverse := by
  rw [HasOperand, List.getLast?_reverse]
  rcases written with _ | ⟨l, ls⟩
  · exact iff_of_false (fun ⟨_, h⟩ => by cases h) fun ⟨_, h, _⟩ => by cases h
  rw [List.head?_cons]
  have hnone (h : operand? (l :: ls) = none) (hl : l.endsOperand = false) :
      (∃ p, operand? (l :: ls) = some p) ↔ ∃ a ∈ some l, a.endsOperand := by simp [h, hl]
  cases l with
  | number | letter => exact iff_of_true ⟨_, rfl⟩ ⟨_, rfl, rfl⟩
  | keyword k =>
    cases k with
    | constant c => exact iff_of_true ⟨_, rfl⟩ ⟨_, rfl, rfl⟩
    | _ => exact hnone rfl rfl
  | operator | lparen | separator => exact hnone rfl rfl
  | degree | percent => cases hmarks _ List.mem_cons_self
  | rparen =>
    -- Before the bracket that is closed last at least one is open, so its partner is found.
    rw [List.reverse_cons, nesting_append] at hnesting
    obtain ⟨_ | before, hbefore, hlast⟩ := Option.bind_eq_some_iff.1 hnesting
    · cases hlast
    · obtain ⟨k, hk⟩ := exists_distance? 0 hbefore (Nat.succ_pos before)
      have hdistance : Bracket.distance? isClose isOpen 0 (rparen :: ls) = some (k + 1) :=
        congrArg (Option.map (· + 1)) hk
      refine iff_of_true ?_ ⟨rparen, rfl, rfl⟩
      simp only [operand?, hdistance]
      split
      · split <;> exact ⟨_, rfl⟩
      · exact ⟨_, rfl⟩

/-! ### Runs -/

/-- Every mark comes after the end of an operand. -/
def Attached (ls : List Lexeme) : Prop :=
  ∀ before mark after, ls = before ++ mark :: after → mark.isMark → HasOperand before

theorem Attached.append_singleton {ls : List Lexeme} {l : Lexeme} (h : Attached ls)
    (hl : l.isMark → HasOperand ls) : Attached (ls ++ [l]) := by
  intro before mark after heq hmark
  rcases after.eq_nil_or_concat' with rfl | ⟨after, z, rfl⟩
  · obtain ⟨rfl, hlast⟩ := List.append_inj' heq rfl
    cases hlast
    exact hl hmark
  · rw [← List.cons_append, ← List.append_assoc] at heq
    obtain ⟨rfl, -⟩ := List.append_inj' heq rfl
    exact h before mark after rfl hmark

/-- What a run has read so far, and what it has written, last lexeme first. -/
structure Reached (read written : List Lexeme) : Prop where
  attached : Attached read
  unmarked : ∀ l ∈ written, l.isMark = false
  nesting_eq : nesting 0 written.reverse = nesting 0 read
  ends : HasOperand written.reverse ↔ HasOperand read

namespace Reached

variable {read written result : List Lexeme} {l mark : Lexeme}

theorem start : Reached [] [] where
  attached before mark after h _ := by simp at h
  unmarked _ h := absurd h List.not_mem_nil
  nesting_eq := rfl
  ends := .rfl

theorem kept (h : Reached read written) (hl : l.isMark = false) :
    Reached (read ++ [l]) (l :: written) where
  attached := h.attached.append_singleton (by simp [hl])
  unmarked := List.forall_mem_cons.2 ⟨hl, h.unmarked⟩
  nesting_eq := by rw [List.reverse_cons, nesting_append, nesting_append, h.nesting_eq]
  ends := by rw [List.reverse_cons, hasOperand_append_singleton, hasOperand_append_singleton]

section

variable {d : Nat} (h : Reached read written) (hnesting : nesting 0 read = some d)
include h hnesting

theorem exists_expand?_iff (factor : List Lexeme) :
    (∃ result, expand? factor written = some result) ↔ HasOperand read := by
  rw [← h.ends, ← exists_operand? (h.nesting_eq.trans hnesting) h.unmarked]
  simp [expand?, Option.map_eq_some_iff]

theorem expanded (hmark : mark.isMark)
    (he : expand? (factorOf mark).reverse written = some result) :
    Reached (read ++ [mark]) result where
  attached := h.attached.append_singleton fun _ => (h.exists_expand?_iff hnesting _).1 ⟨result, he⟩
  unmarked := not_isMark_of_expand? h.unmarked he
  nesting_eq := by
    have hstep : Expansion (written.reverse ++ [mark]) (result.reverse ++ []) :=
      .of_expand? hmark he .done
    rw [List.append_nil] at hstep
    rw [hstep.nesting_eq, nesting_append, nesting_append, h.nesting_eq]
  ends := by
    obtain ⟨before, operand, -, -, -, hresult⟩ := expand?_eq_some he
    refine iff_of_true ⟨rparen, ?_, rfl⟩ (hasOperand_append_singleton.2 (isMark_endsOperand hmark))
    rw [hresult, List.reverse_reverse, List.getLast?_append, List.getLast?_cons,
      List.getLast?_append, factorOf_getLast?]
    rfl

end

/-- The rest is expanded as a whole, or the first mark without an operand is named. -/
theorem run {ls : List Lexeme} (h : Reached read written) (hbalanced : IsBalanced (read ++ ls)) :
    (Attached (read ++ ls) ∧ ∃ rs, expandMarksFrom written ls = .ok rs) ∨
      ∃ before mark after, read ++ ls = before ++ mark :: after ∧ mark.isMark ∧
        Attached before ∧ ¬HasOperand before ∧
        expandMarksFrom written ls = .error (.disallowedCharacter (symbolOf mark)) := by
  induction ls generalizing read written with
  | nil =>
    rw [List.append_nil]
    exact .inl ⟨h.attached, _, rfl⟩
  | cons l ls ih =>
    by_cases hl : l.isMark
    · obtain ⟨d, hnesting, -⟩ :=
        Option.bind_eq_some_iff.1 ((nesting_append 0 read _).symm.trans hbalanced)
      rw [expandMarksFrom_mark hl]
      cases he : expand? (factorOf l).reverse written with
      | none =>
        -- All marks before this one have been expanded, so it is the first that has no operand.
        refine .inr ⟨read, l, ls, rfl, hl, h.attached, fun hoperand => ?_, rfl⟩
        obtain ⟨result, hresult⟩ := (h.exists_expand?_iff hnesting _).2 hoperand
        exact absurd (he.symm.trans hresult) (Option.some_ne_none result).symm
      | some result =>
        rw [List.append_cons] at hbalanced ⊢
        exact ih (h.expanded hnesting hl he) hbalanced
    · rw [Bool.not_eq_true] at hl
      rw [expandMarksFrom_cons hl]
      rw [List.append_cons] at hbalanced ⊢
      exact ih (h.kept hl) hbalanced

end Reached

/-! ### What is written -/

/-- The list with the factors in place of the marks. -/
def filled (ls : List Lexeme) : List Lexeme :=
  ls.flatMap fun l => if l.isMark then factorOf l else [l]

theorem filled_append (ks ls : List Lexeme) : filled (ks ++ ls) = filled ks ++ filled ls :=
  List.flatMap_append

theorem filled_cons (l : Lexeme) (ls : List Lexeme) :
    filled (l :: ls) = (if l.isMark then factorOf l else [l]) ++ filled ls := List.flatMap_cons

theorem filled_eq_self {ls : List Lexeme} (h : ∀ l ∈ ls, l.isMark = false) : filled ls = ls := by
  induction ls with
  | nil => rfl
  | cons l ls ih =>
    rw [List.forall_mem_cons] at h
    rw [filled_cons, h.1, ih h.2]
    rfl

/-- A mark that is expanded costs a bracket. -/
theorem exists_filled_eq {mark : Lexeme} (h : mark.isMark) (before operand after : List Lexeme) :
    ∃ xs ys, filled (before ++ (operand ++ mark :: after)) = xs ++ ys ∧
      filled (before ++ lparen :: (operand ++ factorOf mark ++ after)) = xs ++ lparen :: ys := by
  refine ⟨filled before, filled operand ++ factorOf mark ++ filled after, ?_, ?_⟩
  · rw [filled_append, filled_append, filled_cons, if_pos h, List.append_assoc]
  · rw [filled_append, filled_cons, filled_append, filled_append,
      filled_eq_self (isMark_factorOf mark)]
    rfl

theorem countP_factorOf (mark : Lexeme) : (factorOf mark).countP isMark = 0 :=
  List.countP_eq_zero.2 fun l hl => by simp [isMark_factorOf mark l hl]

/-- The list, filled, stands in what it is expanded to, which has only the brackets more. -/
theorem Expansion.filled_sublist_and_perm {ls rs : List Lexeme} (h : Expansion ls rs)
    (hrs : ∀ l ∈ rs, l.isMark = false) : (filled ls).Sublist rs ∧
      rs.Perm (List.replicate (ls.countP isMark) lparen ++ filled ls) := by
  induction h with
  | @done ls =>
    have hcount : ls.countP isMark = 0 := List.countP_eq_zero.2 fun l hl => by simp [hrs l hl]
    rw [filled_eq_self hrs, hcount]
    exact ⟨.refl ls, .refl ls⟩
  | @step before operand after rs mark _ _ hm _ ih =>
    obtain ⟨hsub, hperm⟩ := ih hrs
    obtain ⟨xs, ys, hold, hnew⟩ := exists_filled_eq hm before operand after
    have hcount : (before ++ (operand ++ mark :: after)).countP isMark =
        (before ++ lparen :: (operand ++ factorOf mark ++ after)).countP isMark + 1 := by
      have hlparen : lparen.isMark = false := rfl
      simp only [List.countP_append, List.countP_cons, hm, hlparen, countP_factorOf, if_true,
        Bool.false_eq_true, if_false]
      omega
    rw [hnew] at hsub hperm
    rw [hold, hcount, List.replicate_succ]
    refine ⟨((List.sublist_cons_self lparen ys).append_left xs).trans hsub, hperm.trans ?_⟩
    rw [← List.append_assoc, ← List.append_assoc]
    exact List.perm_middle

/-! ### Rounds -/

theorem isMark_of_mem_takeWhile (ls : List Lexeme) :
    ∀ l ∈ ls.takeWhile (!·.isMark), l.isMark = false :=
  fun l hl => by simpa using List.mem_takeWhile_imp hl

theorem isMark_of_round {ls result : List Lexeme} {mark : Lexeme}
    (he : expand? (factorOf mark).reverse (ls.takeWhile (!·.isMark)).reverse = some result) :
    ∀ l ∈ result, l.isMark = false :=
  not_isMark_of_expand? (fun l hl => isMark_of_mem_takeWhile ls l (List.mem_reverse.1 hl)) he

section

variable {ls after : List Lexeme} {mark : Lexeme} (hmark : ls.dropWhile (!·.isMark) = mark :: after)
include hmark

theorem isMark_of_dropWhile : mark.isMark := by
  have hhead := List.head?_dropWhile_not (!isMark ·) ls
  rw [hmark] at hhead
  simpa using hhead

theorem takeWhile_append_mark : ls.takeWhile (!·.isMark) ++ mark :: after = ls := by
  rw [← hmark, List.takeWhile_append_dropWhile]

/-- The pass expands the first mark first. -/
theorem expandMarks_round :
    expandMarks ls =
      match expand? (factorOf mark).reverse (ls.takeWhile (!·.isMark)).reverse with
      | some result => expandMarksFrom result after
      | none => .error (.disallowedCharacter (symbolOf mark)) := by
  have hrun := expandMarksFrom_append (isMark_of_mem_takeWhile ls) [] (mark :: after)
  rwa [takeWhile_append_mark hmark, List.append_nil,
    expandMarksFrom_mark (isMark_of_dropWhile hmark)] at hrun

theorem countP_round_lt {result : List Lexeme}
    (he : expand? (factorOf mark).reverse (ls.takeWhile (!·.isMark)).reverse = some result) :
    result.countP isMark + after.countP isMark < ls.countP isMark := by
  have hresult : result.countP isMark = 0 :=
    List.countP_eq_zero.2 fun l hl => by simp [isMark_of_round he l hl]
  have hcount := congrArg (List.countP isMark) (takeWhile_append_mark hmark)
  rw [List.countP_append, List.countP_cons_of_pos (isMark_of_dropWhile hmark)] at hcount
  omega

end

/-- The first mark is expanded, then the one that is the first then, and so on. -/
def expandMarksInRounds (ls : List Lexeme) : Except ParseError (List Lexeme) :=
  match hmark : ls.dropWhile (!·.isMark) with
  | [] => .ok ls
  | mark :: after =>
    match he : expand? (factorOf mark).reverse (ls.takeWhile (!·.isMark)).reverse with
    | none => .error (.disallowedCharacter (symbolOf mark))
    | some result =>
      have := countP_round_lt hmark he
      expandMarksInRounds (result.reverse ++ after)
termination_by ls.countP isMark

theorem expandMarksInRounds_eq (ls : List Lexeme) : expandMarksInRounds ls = expandMarks ls := by
  fun_induction expandMarksInRounds ls with
  | case1 ls hmark =>
    have hls : ∀ l ∈ ls, l.isMark = false := by
      simpa using List.dropWhile_eq_nil_iff.1 hmark
    exact (expandMarksFrom_eq_self hls []).symm
  | case2 ls mark after hmark he => rw [expandMarks_round hmark, he]
  | case3 ls mark after hmark result he _ ih =>
    have hresult : ∀ l ∈ result.reverse, l.isMark = false := fun l hl =>
      isMark_of_round he l (List.mem_reverse.1 hl)
    rw [ih, expandMarks_round hmark, he, expandMarks, expandMarksFrom_append hresult,
      List.reverse_reverse, List.append_nil]

/-- The rounds come to an end, and they do what the pass from left to right does. That succeeds if
every mark has an operand, and then each is expanded around its own. Else the first mark that has
none is named. -/
theorem expandMarks_of_isBalanced {ls : List Lexeme} (h : IsBalanced ls) :
    expandMarksInRounds ls = expandMarks ls ∧
      ((∃ rs, expandMarks ls = .ok rs) ↔ Attached ls) ∧
      (∀ rs, expandMarks ls = .ok rs →
        Expansion ls rs ∧ (∀ l ∈ rs, l.isMark = false) ∧ IsBalanced rs ∧ (filled ls).Sublist rs ∧
        rs.Perm (List.replicate (ls.countP isMark) lparen ++ filled ls)) ∧
      ∀ cause, expandMarks ls = .error cause →
        ∃ before mark after c, ls = before ++ mark :: after ∧ mark.isMark ∧ Attached before ∧
          ¬HasOperand before ∧ mark.letters = [c] ∧ cause = .disallowedCharacter c := by
  have hrun := Reached.start.run (show IsBalanced ([] ++ ls) from h)
  rw [List.nil_append] at hrun
  refine ⟨expandMarksInRounds_eq ls, ?_, fun rs hrs => ?_, fun cause hcause => ?_⟩
  · rcases hrun with ⟨hattached, hok⟩ | ⟨before, mark, after, rfl, hmark, -, hnone, herror⟩
    · exact iff_of_true hok hattached
    · refine iff_of_false ?_ fun hattached => hnone (hattached before mark after rfl hmark)
      rintro ⟨rs, hrs⟩
      cases herror.symm.trans hrs
  · have hrs' := not_isMark_of_expandMarksFrom (fun l hl => absurd hl List.not_mem_nil) hrs
    have hexpansion : Expansion ls rs := Expansion.of_expandMarksFrom hrs
    exact ⟨hexpansion, hrs', (hexpansion.nesting_eq 0).trans h,
      hexpansion.filled_sublist_and_perm hrs'⟩
  · rcases hrun with ⟨-, rs, hok⟩ | ⟨before, mark, after, hls, hmark, hbefore, hnone, herror⟩
    · cases hok.symm.trans hcause
    · cases herror.symm.trans hcause
      exact ⟨before, mark, after, _, hls, hmark, hbefore, hnone, letters_of_isMark hmark, rfl⟩

/-- A percentage in a call whose value is in degrees. -/
theorem expandMarks_of_isBalanced_call :
    let ls := [keyword (.function .sin), lparen, number ['9'], percent, rparen, degree]
    IsBalanced ls ∧ Attached ls ∧
      ∃ rs, expandMarks ls = .ok rs ∧ expandMarksInRounds ls = .ok rs ∧
        render rs = "(sin((9*0.01))*pi/180)".toList ∧ IsBalanced rs ∧
        rs.Perm (List.replicate 2 lparen ++ filled ls) := by
  intro ls
  have hbalanced : IsBalanced ls := rfl
  obtain ⟨hrounds, hiff, hok, -⟩ := expandMarks_of_isBalanced hbalanced
  obtain ⟨-, -, hrs, -, hperm⟩ := hok _ rfl
  exact ⟨hbalanced, hiff.1 ⟨_, rfl⟩, _, rfl, hrounds.trans rfl, rfl, hrs, hperm⟩

end ComplexSeries.Input
