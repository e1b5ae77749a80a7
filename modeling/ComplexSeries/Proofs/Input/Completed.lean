import Mathlib.Logic.Relation
import ComplexSeries.Proofs.Input.InPlace
import ComplexSeries.Proofs.Lexeme.Calls

/-! What the rewriting of signs adds. A step completes one sign: behind nothing or an opening
bracket by a zero, behind a separator by a zero and by brackets around the whole argument. A step
leaves one sign fewer that wants completion, and every call is cut at as many separators as before.
The rewriting takes such steps until no sign wants completion. -/
namespace ComplexSeries.Input

open Lexeme

/-! ### Signs that want completion -/

/-- The signs that stand right behind `kind`, in a list that `start` stands before. -/
def leadingFrom (kind : Before) : (start : Before) → List Lexeme → ℕ
  | _, [] => 0
  | start, l :: ls => (if l.isSign ∧ start = kind then 1 else 0) + leadingFrom kind (.of l) ls

def leading (kind : Before) (ls : List Lexeme) : ℕ := leadingFrom kind .opening ls

/-- What is to be written to complete them. -/
def completion (ls : List Lexeme) : List Lexeme :=
  List.replicate (leading .opening ls) zero ++
    (List.replicate (leading .separator ls) [lparen, zero, rparen]).flatten

section

variable {kind start : Before} {ks ls : List Lexeme}

theorem leadingFrom_append : leadingFrom kind start (ks ++ ls) =
    leadingFrom kind start ks + leadingFrom kind (ending start ks) ls := by
  induction ks generalizing start with
  | nil => exact (Nat.zero_add _).symm
  | cons k ks ih => rw [List.cons_append, leadingFrom, leadingFrom, ending_cons, ih, Nat.add_assoc]

theorem leadingFrom_congr (h : ∀ l ∈ ls.head?, l.isSign = false) (start₁ start₂ : Before) :
    leadingFrom kind start₁ ls = leadingFrom kind start₂ ls := by
  cases ls with
  | nil => rfl
  | cons l ls =>
    have hl : l.isSign = false := h l rfl
    simp [leadingFrom, hl]

theorem ending_ne_of_leading_eq_zero (h : leading kind ls = 0) {before after : List Lexeme}
    {l : Lexeme} (hls : ls = before ++ l :: after) (hl : l.isSign) :
    ending .opening before ≠ kind := by
  intro hkind
  rw [hls, leading, leadingFrom_append, leadingFrom, if_pos ⟨hl, hkind⟩] at h
  omega

end

theorem getLast?_ne_keyword {before : List Lexeme} (h : ending .opening before ≠ .operand)
    (k : Keyword) : before.getLast? ≠ some (keyword k) := by
  intro hk
  rw [ending, hk] at h
  exact h rfl

theorem isPlain_of_isSign {l : Lexeme} (h : l.isSign) : l.isPlain := by
  cases l <;> first | rfl | cases h

theorem Before.of_of_isSign {l : Lexeme} (h : l.isSign) : Before.of l = .operand := by
  cases l <;> first | rfl | cases h

/-- No sign that wants completion is left behind. -/
theorem leading_rewriteSignsInPlace {kind : Before} (hkind : kind ≠ .operand)
    (before ls : List Lexeme) :
    leading kind (rewriteSignsInPlace before ls) = leading kind before := by
  fun_induction rewriteSignsInPlace before ls with
  | case1 before => rfl
  | case2 before l ls hl hbefore ih =>
    rw [ih, leading, leadingFrom_append]
    simp [leadingFrom, leading, zero, isSign, Before.of, hkind.symm]
  | case3 before l ls hl hbefore ih =>
    rw [ih, leading, leadingFrom_append]
    simp [leadingFrom, leading, zero, isSign, Before.of, hkind.symm]
  | case4 before l ls hl hbefore ih =>
    rw [ih, leading, leadingFrom_append]
    simp [leadingFrom, leading, hbefore, hkind.symm]
  | case5 before l ls hl ih =>
    rw [ih, leading, leadingFrom_append]
    simp [leadingFrom, leading, hl]

/-! ### Whole arguments -/

/-- The stretch closes the `inner` brackets that are open before it, and goes on to the end of the
argument in which they were opened. -/
structure Remainder (inner : ℕ) (argument after : List Lexeme) : Prop where
  closes : nesting inner argument = some 0
  joins : ∀ depth ls, argumentsFrom? (depth + inner) (argument ++ ls) =
    (argumentsFrom? depth ls).map (argument.foldr joinFirst)
  ends : ∀ l ∈ after.head?, l = rparen ∨ l = separator

namespace Remainder

variable {inner : ℕ} {argument after : List Lexeme}

theorem nil (h : ∀ l ∈ after.head?, l = rparen ∨ l = separator) : Remainder 0 [] after where
  closes := nesting_nil 0
  joins _ _ := Option.map_id_apply.symm
  ends := h

theorem lparen (h : Remainder (inner + 1) argument after) :
    Remainder inner (lparen :: argument) after where
  closes := by rw [nesting_lparen, h.closes]
  joins depth ls := by
    rw [List.cons_append, argumentsFrom?_lparen, Nat.add_assoc, h.joins, Option.map_map]
    rfl
  ends := h.ends

theorem rparen (h : Remainder inner argument after) :
    Remainder (inner + 1) (rparen :: argument) after where
  closes := by rw [nesting_succ_rparen, h.closes]
  joins depth ls := by
    rw [List.cons_append, ← Nat.add_assoc, argumentsFrom?_succ_rparen, h.joins, Option.map_map]
    rfl
  ends := h.ends

theorem separator (h : Remainder (inner + 1) argument after) :
    Remainder (inner + 1) (separator :: argument) after where
  closes := by rw [nesting_cons rfl, h.closes]
  joins depth ls := by
    rw [List.cons_append, ← Nat.add_assoc, argumentsFrom?_succ_separator, Nat.add_assoc, h.joins,
      Option.map_map]
    rfl
  ends := h.ends

theorem cons {l : Lexeme} (hl : l.isPlain) (h : Remainder inner argument after) :
    Remainder inner (l :: argument) after where
  closes := by rw [nesting_cons (isBracket_of_isPlain hl), h.closes]
  joins depth ls := by
    rw [List.cons_append, argumentsFrom?_cons hl, h.joins, Option.map_map]
    rfl
  ends := h.ends

end Remainder

/-- The bracket is written where an argument ends. -/
theorem exists_remainder (inner outer : ℕ) {ls : List Lexeme}
    (h : nesting (outer + inner) ls = some 0) :
    ∃ argument after, Remainder inner argument after ∧ ls = argument ++ after ∧
      closeArgument inner ls = argument ++ rparen :: after := by
  induction ls generalizing inner with
  | nil =>
    rw [nesting_nil, Option.some.injEq] at h
    obtain rfl : inner = 0 := by omega
    exact ⟨[], [], .nil (by simp), rfl, closeArgument_nil⟩
  | cons l ls ih =>
    rcases plain_cases l with rfl | rfl | rfl | hl
    · rw [nesting_lparen] at h
      obtain ⟨argument, after, hr, rfl, hclose⟩ := ih (inner + 1) h
      exact ⟨_, after, hr.lparen, rfl, by rw [closeArgument_lparen, hclose]; rfl⟩
    · cases inner with
      | zero => exact ⟨[], _, .nil (by simp), rfl, rfl⟩
      | succ inner =>
        rw [← Nat.add_assoc, nesting_succ_rparen] at h
        obtain ⟨argument, after, hr, rfl, hclose⟩ := ih inner h
        exact ⟨_, after, hr.rparen, rfl, by rw [closeArgument_succ_rparen, hclose]; rfl⟩
    · cases inner with
      | zero => exact ⟨[], _, .nil (by simp), rfl, rfl⟩
      | succ inner =>
        rw [nesting_cons rfl] at h
        obtain ⟨argument, after, hr, rfl, hclose⟩ := ih (inner + 1) h
        exact ⟨_, after, hr.separator, rfl, by rw [closeArgument_succ_separator, hclose]; rfl⟩
    · rw [nesting_cons (isBracket_of_isPlain hl)] at h
      obtain ⟨argument, after, hr, rfl, hclose⟩ := ih inner h
      exact ⟨_, after, hr.cons hl, rfl, by rw [closeArgument_cons hl, hclose]; rfl⟩

/-! ### Steps -/

/-- One sign is completed. -/
inductive Completes : List Lexeme → List Lexeme → Prop
  | opened {before after : List Lexeme} {l : Lexeme} (hbefore : ending .opening before = .opening)
      (hl : l.isSign) : Completes (before ++ l :: after) (before ++ zero :: l :: after)
  | separated {before argument after : List Lexeme} {l : Lexeme}
      (hbefore : ending .opening before = .separator) (hl : l.isSign)
      (h : Remainder 0 argument after) :
      Completes (before ++ l :: (argument ++ after))
        (before ++ lparen :: zero :: l :: (argument ++ rparen :: after))

section

variable {kind : Before} {before argument after : List Lexeme} {l : Lexeme}

theorem leading_append_sign (hl : l.isSign) (before after : List Lexeme) :
    leading kind (before ++ l :: after) = leading kind before +
      ((if ending .opening before = kind then 1 else 0) + leadingFrom kind .operand after) := by
  rw [leading, leadingFrom_append, leadingFrom, Before.of_of_isSign hl]
  simp [hl, leading]

theorem leading_opened (kind : Before) (hkind : kind ≠ .operand)
    (hbefore : ending .opening before = .opening) (hl : l.isSign) (after : List Lexeme) :
    leading kind (before ++ l :: after) =
      leading kind (before ++ zero :: l :: after) + if kind = .opening then 1 else 0 := by
  have hzero : leading kind (before ++ zero :: l :: after) =
      leading kind before + leadingFrom kind .operand after := by
    rw [leading, leadingFrom_append, leadingFrom, leadingFrom, Before.of_of_isSign hl]
    simp [leading, zero, isSign, Before.of, hkind.symm]
  rw [leading_append_sign hl, hzero, hbefore]
  simp only [eq_comm (a := kind)]
  omega

theorem leading_separated (kind : Before) (hkind : kind ≠ .operand)
    (hbefore : ending .opening before = .separator) (hl : l.isSign)
    (h : Remainder 0 argument after) :
    leading kind (before ++ l :: (argument ++ after)) =
      leading kind (before ++ lparen :: zero :: l :: (argument ++ rparen :: after)) +
        if kind = .separator then 1 else 0 := by
  -- No sign follows the argument, so it does not matter that the bracket now stands before.
  have hafter : ∀ k ∈ after.head?, k.isSign = false := by
    intro k hk
    rcases h.ends k hk with rfl | rfl <;> rfl
  have hparens : leading kind (before ++ lparen :: zero :: l :: (argument ++ rparen :: after)) =
      leading kind before + leadingFrom kind .operand (argument ++ rparen :: after) := by
    rw [leading, leadingFrom_append, leadingFrom, leadingFrom, leadingFrom, Before.of_of_isSign hl]
    simp [leading, zero, isSign, Before.of, hkind.symm]
  have hrparen (start : Before) : leadingFrom kind start (rparen :: after) =
      leadingFrom kind .operand after := by
    rw [leadingFrom, if_neg (by simp [isSign]), Nat.zero_add]
    rfl
  rw [leading_append_sign hl, hparens, hbefore, leadingFrom_append, leadingFrom_append, hrparen,
    leadingFrom_congr hafter _ .operand]
  simp only [eq_comm (a := kind)]
  omega

end

namespace Completes

variable {ls rs : List Lexeme}

theorem sublist (h : Completes ls rs) : ls.Sublist rs := by
  cases h with
  | opened hbefore hl => exact .append_left (.cons _ (.refl _)) _
  | @separated before argument after l hbefore hl h =>
    refine .append_left (.cons _ (.cons _ (.cons_cons l (.append_left ?_ argument)))) before
    exact .cons _ (.refl after)

/-- What a step writes is not to be written any more. -/
theorem completion_perm (h : Completes ls rs) :
    (completion rs ++ rs).Perm (completion ls ++ ls) := by
  cases h with
  | @opened before after l hbefore hl =>
    have hopening := leading_opened .opening (by decide) hbefore hl after
    have hseparator := leading_opened .separator (by decide) hbefore hl after
    rw [completion, completion, hopening, hseparator]
    refine List.perm_iff_count.2 fun k => ?_
    simp only [List.count_append, List.count_cons, List.replicate_succ, List.cons_append, if_true,
      reduceCtorEq, if_false, Nat.add_zero]
    omega
  | @separated before argument after l hbefore hl h =>
    have hopening := leading_separated .opening (by decide) hbefore hl h
    have hseparator := leading_separated .separator (by decide) hbefore hl h
    rw [completion, completion, hopening, hseparator]
    refine List.perm_iff_count.2 fun k => ?_
    simp only [List.count_append, List.count_cons, List.replicate_succ, List.flatten_cons,
      List.cons_append, List.nil_append, if_true, reduceCtorEq, if_false, Nat.add_zero]
    omega

theorem calls_eq (h : Completes ls rs) : calls rs = calls ls := by
  cases h with
  | @opened before after l hbefore hl =>
    have hcut : CutAlike (zero :: l :: after) (l :: after) :=
      .of_joins (fun _ => (joins_nil.cons (isPlain_of_isSign hl)).cons rfl)
        (fun _ => joins_nil.cons (isPlain_of_isSign hl)) after
    have hcalls : calls (zero :: l :: after) = calls (l :: after) :=
      calls_cons_of_not_keyword (by simp [zero]) (l :: after)
    exact hcut.calls_append hcalls (getLast?_ne_keyword (by rw [hbefore]; nofun))
  | @separated before argument after l hbefore hl h =>
    -- With and without brackets, the signed argument joins the argument that it stands in.
    have hjoins (depth : ℕ) : Joins depth (l :: argument) :=
      Joins.cons (h.joins depth) (isPlain_of_isSign hl)
    have hcut : CutAlike (lparen :: zero :: l :: (argument ++ rparen :: after))
        (l :: (argument ++ after)) := by
      have hzero (depth : ℕ) : Joins depth (zero :: l :: argument) := (hjoins depth).cons rfl
      have hcut := CutAlike.of_joins (fun depth => (hzero (depth + 1)).parens) hjoins after
      rwa [List.append_assoc] at hcut
    have hsign : ∀ k, l ≠ keyword k := by rintro k rfl; cases hl
    have hcalls : calls (lparen :: zero :: l :: (argument ++ rparen :: after)) =
        calls (l :: (argument ++ after)) := by
      have hbal : IsBalanced argument := h.closes
      have hafter : after.head? ≠ some lparen := by
        intro hafter
        rcases h.ends lparen hafter with h | h <;> cases h
      calc calls (lparen :: zero :: l :: (argument ++ rparen :: after))
          = calls (argument ++ rparen :: after) := by
            rw [calls_cons_of_not_keyword (by simp), calls_cons_of_not_keyword (by simp [zero]),
              calls_cons_of_not_keyword hsign]
        _ = calls argument ++ calls (rparen :: after) := hbal.calls_append (by simp)
        _ = calls argument ++ calls after := by rw [calls_cons_of_not_keyword (by simp)]
        _ = calls (l :: (argument ++ after)) := by
            rw [calls_cons_of_not_keyword hsign, hbal.calls_append hafter]
    exact hcut.calls_append hcalls (getLast?_ne_keyword (by rw [hbefore]; nofun))

end Completes

/-! ### Runs -/

theorem exists_nesting_of_cons {depth : ℕ} {l : Lexeme} {ls : List Lexeme}
    (h : nesting depth (l :: ls) = some 0) : ∃ inner, nesting inner ls = some 0 := by
  rw [← List.singleton_append, nesting_append, Option.bind_eq_some_iff] at h
  obtain ⟨inner, -, h⟩ := h
  exact ⟨inner, h⟩

/-- The pass goes from the list as it is at any place to the list that it returns, in steps. -/
theorem reflTransGen_rewriteSignsInPlace {depth : ℕ} (before : List Lexeme) {ls : List Lexeme}
    (h : nesting depth ls = some 0) :
    Relation.ReflTransGen Completes (before ++ ls) (rewriteSignsInPlace before ls) := by
  fun_induction rewriteSignsInPlace before ls generalizing depth with
  | case1 before =>
    rw [List.append_nil]
  | case2 before l ls hl hbefore ih =>
    obtain ⟨inner, hinner⟩ := exists_nesting_of_cons h
    have hrest := ih hinner
    rw [List.append_assoc] at hrest
    exact hrest.head (.opened hbefore hl)
  | case3 before l ls hl hbefore ih =>
    rw [nesting_cons (isBracket_of_isPlain (isPlain_of_isSign hl))] at h
    obtain ⟨argument, after, hr, rfl, hclose⟩ := exists_remainder 0 depth h
    have hbal : IsBalanced argument := hr.closes
    rw [hclose] at ih ⊢
    -- The bracket is opened among what has been passed and closed in what is left.
    have hinner : nesting (depth + 1) (argument ++ rparen :: after) = some 0 := by
      rw [hbal.nesting_append, nesting_succ_rparen, ← hbal.nesting_append, h]
    have hrest := ih hinner
    rw [List.append_assoc] at hrest
    exact hrest.head (.separated hbefore hl hr)
  | case4 before l ls hl hbefore ih | case5 before l ls hl ih =>
    obtain ⟨inner, hinner⟩ := exists_nesting_of_cons h
    have hrest := ih hinner
    rwa [List.append_assoc] at hrest

theorem sublist_of_reflTransGen {ls rs : List Lexeme} (h : Relation.ReflTransGen Completes ls rs) :
    ls.Sublist rs := by
  induction h with
  | refl => exact .refl ls
  | tail _ hstep ih => exact ih.trans hstep.sublist

theorem completion_perm_of_reflTransGen {ls rs : List Lexeme}
    (h : Relation.ReflTransGen Completes ls rs) :
    (completion rs ++ rs).Perm (completion ls ++ ls) := by
  induction h with
  | refl => exact .refl _
  | tail _ hstep ih => exact hstep.completion_perm.trans ih

theorem calls_eq_of_reflTransGen {ls rs : List Lexeme} (h : Relation.ReflTransGen Completes ls rs) :
    calls rs = calls ls := by
  induction h with
  | refl => rfl
  | tail _ hstep ih => exact hstep.calls_eq.trans ih

theorem leading_rewriteSigns {kind : Before} (hkind : kind ≠ .operand) (ls : List Lexeme) :
    leading kind (rewriteSigns ls) = 0 := by
  rw [← rewriteSignsInPlace_nil, leading_rewriteSignsInPlace hkind]
  rfl

/-- Over balanced brackets, the pass that writes within the list comes to an end, with the result of
the single reading. It completes one sign after the other. What it adds to the list is a zero for
every sign that stands first or behind an opening bracket, and two brackets and a zero for every
sign that stands behind a separator. The brackets balance, every call keeps its number of
separators, and no sign is left that stands first or behind an opening bracket or a separator. -/
theorem rewriteSigns_of_isBalanced {ls : List Lexeme} (h : IsBalanced ls) :
    rewriteSignsInPlace [] ls = rewriteSigns ls ∧
      Relation.ReflTransGen Completes ls (rewriteSigns ls) ∧
      ls.Sublist (rewriteSigns ls) ∧
      (rewriteSigns ls).Perm (List.replicate (leading .opening ls) zero ++
        (List.replicate (leading .separator ls) [lparen, zero, rparen]).flatten ++ ls) ∧
      IsBalanced (rewriteSigns ls) ∧
      calls (rewriteSigns ls) = calls ls ∧
      ∀ before l after, rewriteSigns ls = before ++ l :: after → l.isSign →
        ending .opening before = .operand := by
  have hrun : Relation.ReflTransGen Completes ls (rewriteSigns ls) := by
    rw [← rewriteSignsInPlace_nil]
    exact reflTransGen_rewriteSignsInPlace [] h
  have hopening : leading .opening (rewriteSigns ls) = 0 := leading_rewriteSigns (by decide) ls
  have hseparator : leading .separator (rewriteSigns ls) = 0 := leading_rewriteSigns (by decide) ls
  have hperm : (rewriteSigns ls).Perm (completion ls ++ ls) := by
    have hcompletion : completion (rewriteSigns ls) = [] := by
      rw [completion, hopening, hseparator]
      rfl
    have hperm := completion_perm_of_reflTransGen hrun
    rwa [hcompletion] at hperm
  refine ⟨rewriteSignsInPlace_nil ls, hrun, sublist_of_reflTransGen hrun, hperm,
    balanced_rewriteSigns h, calls_eq_of_reflTransGen hrun, fun before l after hls hl => ?_⟩
  cases hending : ending .opening before with
  | opening => exact absurd hending (ending_ne_of_leading_eq_zero hopening hls hl)
  | separator => exact absurd hending (ending_ne_of_leading_eq_zero hseparator hls hl)
  | operand => rfl

/-- Two signed arguments of one call, the second of which holds another. -/
theorem rewriteSigns_of_isBalanced_nested :
    let ls := [keyword .log, lparen, operator .sub, letter 'x', separator, operator .sub,
      keyword .log, lparen, number ['2'], separator, operator .add, letter 'n', rparen, rparen]
    let rs := rewriteSigns ls
    render ls = "log(-x;-log(2;+n))".toList ∧ render rs = "log(0-x;(0-log(2;(0+n))))".toList ∧
      IsBalanced ls ∧ rewriteSignsInPlace [] ls = rs ∧ ls.Sublist rs ∧
      rs.Perm ([zero, lparen, zero, rparen, lparen, zero, rparen] ++ ls) ∧ IsBalanced rs ∧
      calls rs = [(.log, some 1), (.log, some 1)] := by
  intro ls rs
  have hbalanced : IsBalanced ls := rfl
  obtain ⟨hpass, -, hsublist, hperm, hrs, hcalls, -⟩ := rewriteSigns_of_isBalanced hbalanced
  exact ⟨rfl, rfl, hbalanced, hpass, hsublist, hperm, hrs, hcalls.trans rfl⟩

end ComplexSeries.Input
