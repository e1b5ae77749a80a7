import Mathlib.Data.List.Basic
import ComplexSeries.Proofs.Input.Sign
import ComplexSeries.Proofs.Lexeme.Arguments

/-! Signs rewritten within one list. A pass over the list writes before a sign what completes it,
and at once, further on, the bracket at the end of the signed argument, which the pass comes to
later. What is left of the list need not get shorter by that, but it has one sign fewer. The list
comes out as from a single reading that remembers which brackets are owed: wherever the pass is,
what is left is what the reading has not read yet, with the owed brackets written. -/
namespace ComplexSeries.Input

open Lexeme

/-- What stands before the place behind a list, where `start` stands before the list. -/
def ending (start : Before) (before : List Lexeme) : Before :=
  (before.getLast?.map .of).getD start

/-- Writes a bracket where an argument ends, before the separator or the bracket that no inner
bracket encloses. `depth` inner brackets are open. -/
def closeArgument : (depth : ℕ) → List Lexeme → List Lexeme
  | _, [] => [rparen]
  | depth, lparen :: ls => lparen :: closeArgument (depth + 1) ls
  | 0, rparen :: ls => rparen :: rparen :: ls
  | depth + 1, rparen :: ls => rparen :: closeArgument depth ls
  | 0, separator :: ls => rparen :: separator :: ls
  | depth, l :: ls => l :: closeArgument depth ls

section

variable {depth : ℕ} {ls : List Lexeme}

theorem closeArgument_nil : closeArgument depth [] = [rparen] := by
  cases depth <;> rfl

theorem closeArgument_lparen :
    closeArgument depth (lparen :: ls) = lparen :: closeArgument (depth + 1) ls := by
  cases depth <;> rfl

theorem closeArgument_succ_rparen :
    closeArgument (depth + 1) (rparen :: ls) = rparen :: closeArgument depth ls := rfl

theorem closeArgument_succ_separator :
    closeArgument (depth + 1) (separator :: ls) = separator :: closeArgument (depth + 1) ls := rfl

theorem closeArgument_cons {l : Lexeme} (h : l.isPlain) :
    closeArgument depth (l :: ls) = l :: closeArgument depth ls := by
  cases l <;> first | (cases depth <;> rfl) | cases h

theorem length_closeArgument (depth : ℕ) (ls : List Lexeme) :
    (closeArgument depth ls).length = ls.length + 1 := by
  fun_induction closeArgument depth ls <;> simp_all

theorem countP_isSign_closeArgument (depth : ℕ) (ls : List Lexeme) :
    (closeArgument depth ls).countP isSign = ls.countP isSign := by
  fun_induction closeArgument depth ls <;> simp_all [List.countP_cons, isSign]

end

/-- `before` has been passed and is not changed any more. Behind a separator the sign is taken from
what is left and a bracket is added to it, which is less only if signs are counted as well. -/
def rewriteSignsInPlace (before : List Lexeme) : List Lexeme → List Lexeme
  | [] => before
  | l :: ls =>
    if l.isSign then
      match ending .opening before with
      | .opening => rewriteSignsInPlace (before ++ [zero, l]) ls
      | .separator => rewriteSignsInPlace (before ++ [lparen, zero, l]) (closeArgument 0 ls)
      | .operand => rewriteSignsInPlace (before ++ [l]) ls
    else rewriteSignsInPlace (before ++ [l]) ls
termination_by ls => ls.length + ls.countP isSign
decreasing_by
  all_goals simp_all only [length_closeArgument, countP_isSign_closeArgument, List.length_cons,
    List.countP_cons, if_true]
  all_goals omega

section

variable {start : Before} {before ks ls : List Lexeme} {l : Lexeme}

@[simp] theorem ending_nil : ending start [] = start := rfl

@[simp] theorem ending_cons : ending start (l :: ls) = ending (.of l) ls := by
  rw [ending, List.getLast?_cons, Option.map_some, Option.getD_some, ending, Option.getD_map]

theorem ending_append : ending start (ks ++ ls) = ending (ending start ks) ls := by
  induction ks generalizing start with
  | nil => rfl
  | cons k ks ih => rw [List.cons_append, ending_cons, ending_cons, ih]

@[simp] theorem ending_concat : ending start (before ++ [l]) = .of l := by
  rw [ending_append, ending_cons, ending_nil]

theorem rewriteSignsInPlace_opening (hl : l.isSign) (h : ending .opening before = .opening)
    (ls : List Lexeme) : rewriteSignsInPlace before (l :: ls) =
      rewriteSignsInPlace (before ++ [zero, l]) ls := by
  rw [rewriteSignsInPlace, if_pos hl, h]

theorem rewriteSignsInPlace_separator (hl : l.isSign) (h : ending .opening before = .separator)
    (ls : List Lexeme) : rewriteSignsInPlace before (l :: ls) =
      rewriteSignsInPlace (before ++ [lparen, zero, l]) (closeArgument 0 ls) := by
  rw [rewriteSignsInPlace, if_pos hl, h]

/-- What wants nothing is passed. -/
theorem rewriteSignsInPlace_cons (h : l.isSign → ending .opening before = .operand)
    (ls : List Lexeme) :
    rewriteSignsInPlace before (l :: ls) = rewriteSignsInPlace (before ++ [l]) ls := by
  rw [rewriteSignsInPlace]
  split
  · rename_i hl
    rw [h hl]
  · rfl

theorem rewriteSignsInPlace_append (h : ∀ k ∈ ks, k.isSign = false) :
    rewriteSignsInPlace before (ks ++ ls) = rewriteSignsInPlace (before ++ ks) ls := by
  induction ks generalizing before with
  | nil => rw [List.nil_append, List.append_nil]
  | cons k ks ih =>
    rw [List.forall_mem_cons] at h
    rw [List.cons_append, rewriteSignsInPlace_cons (by simp [h.1]), ih h.2, List.append_assoc,
      List.singleton_append]

end

/-! ### One reading -/

/-- Writes the brackets that are owed. `levels` tells of the argument being read, and of those
around it, whether it owes one. -/
def payOwed : (levels : List Bool) → List Lexeme → List Lexeme
  | levels, [] => levels.flatMap owed
  | levels, lparen :: ls => lparen :: payOwed (false :: levels) ls
  | levels, rparen :: ls => owed (levels.headD false) ++ rparen :: payOwed levels.tail ls
  | levels, separator :: ls =>
    owed (levels.headD false) ++ separator :: payOwed (false :: levels.tail) ls
  | levels, l :: ls => l :: payOwed levels ls

section

variable {levels outer : List Bool} {ls : List Lexeme}

theorem payOwed_cons {l : Lexeme} (h : l.isPlain) :
    payOwed levels (l :: ls) = l :: payOwed levels ls := by
  cases l <;> first | rfl | cases h

theorem payOwed_eq_self (h : ∀ b ∈ levels, b = false) : payOwed levels ls = ls := by
  have hhead : ∀ levels : List Bool, (∀ b ∈ levels, b = false) → levels.headD false = false := by
    rintro (_ | ⟨b, levels⟩) h
    · rfl
    · exact h b List.mem_cons_self
  fun_induction payOwed levels ls with
  | case1 levels =>
    rw [List.flatMap_eq_nil_iff]
    intro b hb
    rw [h b hb]
    rfl
  | case2 levels ls ih => rw [ih (by simpa using h)]
  | case3 levels ls ih =>
    rw [ih fun b hb => h b (List.mem_of_mem_tail hb), hhead levels h]
    rfl
  | case4 levels ls ih =>
    have htail : ∀ b ∈ levels.tail, b = false := fun b hb => h b (List.mem_of_mem_tail hb)
    rw [ih (List.forall_mem_cons.2 ⟨rfl, htail⟩), hhead levels h]
    rfl
  | case5 levels l ls _ _ _ ih => rw [ih h]

/-- Around the outermost argument nothing is owed. -/
theorem payOwed_concat (levels : List Bool) (ls : List Lexeme) :
    payOwed (levels ++ [false]) ls = payOwed levels ls := by
  fun_induction payOwed levels ls with
  | case1 levels => simp [payOwed, owed]
  | case2 levels ls ih => rw [payOwed, ← ih, List.cons_append]
  | case3 levels ls ih =>
    cases levels with
    | nil => rfl
    | cons level levels => rw [List.cons_append, payOwed, ← ih]; rfl
  | case4 levels ls ih =>
    cases levels with
    | nil => rfl
    | cons level levels => rw [List.cons_append, payOwed, ← ih]; rfl
  | case5 levels l ls ho hc hs ih =>
    rw [payOwed.eq_5 _ _ _ ho hc hs, ih]

theorem flatMap_owed (levels : List Bool) :
    levels.flatMap owed = List.replicate (levels.count true) rparen := by
  induction levels with
  | nil => rfl
  | cons level levels ih =>
    cases level with
    | false => rw [List.flatMap_cons, ih]; rfl
    | true => rw [List.flatMap_cons, ih, List.count_cons_self, List.replicate_succ]; rfl

theorem closeArgument_replicate (depth n : ℕ) :
    closeArgument depth (List.replicate n rparen) = List.replicate (n + 1) rparen := by
  induction n generalizing depth with
  | zero => exact closeArgument_nil
  | succ n ih =>
    cases depth with
    | zero => rfl
    | succ depth => rw [List.replicate_succ, closeArgument_succ_rparen, ih, ← List.replicate_succ]

/-- To close an argument is to let it owe a bracket. -/
theorem closeArgument_payOwed (depth : ℕ) (outer : List Bool) (ls : List Lexeme) :
    closeArgument depth (payOwed (List.replicate depth false ++ false :: outer) ls) =
      payOwed (List.replicate depth false ++ true :: outer) ls := by
  induction ls generalizing depth outer with
  | nil =>
    rw [payOwed, payOwed, flatMap_owed, flatMap_owed, closeArgument_replicate]
    simp [List.count_append, List.count_replicate]
  | cons l ls ih =>
    rcases plain_cases l with rfl | rfl | rfl | hl
    · rw [payOwed, payOwed, closeArgument_lparen]
      exact congrArg _ (ih (depth + 1) outer)
    · cases depth with
      | zero => rfl
      | succ depth => exact congrArg _ (ih depth outer)
    · cases depth with
      | zero => rfl
      | succ depth => exact congrArg _ (ih (depth + 1) outer)
    · rw [payOwed_cons hl, payOwed_cons hl, closeArgument_cons hl, ih]

end

theorem isSign_of_mem_owed {signed : Bool} {l : Lexeme} (h : l ∈ owed signed) :
    l.isSign = false := by
  cases signed with
  | false => cases h
  | true => rw [List.mem_singleton.1 h]; rfl

/-- Brackets that are owed are passed together with the lexeme that they stand before. -/
theorem rewriteSignsInPlace_owed {l : Lexeme} (hl : l.isSign = false) (before : List Lexeme)
    (signed : Bool) (ls : List Lexeme) : rewriteSignsInPlace before (owed signed ++ l :: ls) =
      rewriteSignsInPlace (before ++ (owed signed ++ [l])) ls := by
  rw [rewriteSignsInPlace_append fun _ => isSign_of_mem_owed,
    rewriteSignsInPlace_cons (by simp [hl]), List.append_assoc]

/-- At every place the rest of the list is what is unread with the brackets that are owed. -/
theorem rewriteSignsInPlace_payOwed {start : Before} (signed : Bool) (outer : List Bool)
    (before ls : List Lexeme) (hstart : ending .opening before = start)
    (hs : signed = true → start = .operand) :
    rewriteSignsInPlace before (payOwed (signed :: outer) ls) =
      before ++ rewriteSignsFrom start signed outer ls := by
  fun_induction rewriteSignsFrom start signed outer ls generalizing before with
  | case1 start signed outer =>
    have hsign : ∀ k ∈ (signed :: outer).flatMap owed, k.isSign = false := by
      intro k hk
      obtain ⟨level, -, hk⟩ := List.mem_flatMap.1 hk
      exact isSign_of_mem_owed hk
    rw [payOwed, ← List.append_nil (List.flatMap owed _), rewriteSignsInPlace_append hsign,
      rewriteSignsInPlace]
    rfl
  | case2 start signed outer ls ih =>
    rw [payOwed, rewriteSignsInPlace_cons (by simp [isSign]), ih _ ending_concat (by simp),
      List.append_assoc]
    rfl
  | case3 start signed ls ih =>
    -- Behind a bracket that closes none, the rest is read as one argument that owes nothing.
    rw [payOwed, rewriteSignsInPlace_owed rfl, List.tail_cons, ← payOwed_concat, List.nil_append,
      ih _ (by simp [ending_append, Before.of]) (fun _ => rfl)]
    simp
  | case4 start signed ls level outer ih =>
    rw [payOwed, rewriteSignsInPlace_owed rfl, List.tail_cons,
      ih _ (by simp [ending_append, Before.of]) (fun _ => rfl)]
    simp
  | case5 start signed outer ls ih =>
    rw [payOwed, rewriteSignsInPlace_owed rfl, List.tail_cons,
      ih _ (by simp [ending_append, Before.of]) (by simp)]
    simp
  | case6 signed outer l ls ho hc hsep hsign ih =>
    rw [payOwed_cons (isPlain_of_ne ho hc hsep), rewriteSignsInPlace_opening hsign hstart,
      ih _ (by simp [ending_append, Before.of_of_ne ho hsep]) (fun _ => rfl)]
    simp
  | case7 signed outer l ls ho hc hsep hsign ih =>
    obtain rfl : signed = false := by
      cases signed with
      | false => rfl
      | true => cases hs rfl
    have hclosed := closeArgument_payOwed 0 outer ls
    rw [List.replicate_zero, List.nil_append, List.nil_append] at hclosed
    rw [payOwed_cons (isPlain_of_ne ho hc hsep), rewriteSignsInPlace_separator hsign hstart,
      hclosed, ih _ (by simp [ending_append, Before.of_of_ne ho hsep]) (fun _ => rfl)]
    simp
  | case8 signed outer l ls ho hc hsep _ ih =>
    rw [payOwed_cons (isPlain_of_ne ho hc hsep), rewriteSignsInPlace_cons fun _ => hstart,
      ih _ (by simp [Before.of_of_ne ho hsep]) (fun _ => rfl)]
    simp
  | case9 start signed outer l ls ho hc hsep hsign ih =>
    rw [payOwed_cons (isPlain_of_ne ho hc hsep), rewriteSignsInPlace_cons (absurd · hsign),
      ih _ (by simp [Before.of_of_ne ho hsep]) (fun _ => rfl)]
    simp

/-- The pass that writes within the list comes to the same as the single reading. -/
theorem rewriteSignsInPlace_nil (ls : List Lexeme) :
    rewriteSignsInPlace [] ls = rewriteSigns ls := by
  have h := rewriteSignsInPlace_payOwed false [] [] ls rfl (by simp)
  rwa [payOwed_eq_self (by simp), List.nil_append] at h

end ComplexSeries.Input
