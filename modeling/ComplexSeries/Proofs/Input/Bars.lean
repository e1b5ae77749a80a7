import ComplexSeries.Input.Bars
import ComplexSeries.Proofs.Result
import ComplexSeries.Proofs.Lexeme.Checks

/-! Bars that become calls of `abs`. The pass from left to right gives what rounds give that replace
the first bar and its partner for as long as there is a bar. It opens as many calls as it closes, and
closes each in the bracket level in which it was opened, so brackets that balance still do so. Two
bars with nothing between them leave a pair of brackets that stands empty. -/
namespace ComplexSeries.Input

variable {barOpen : Bool} {outer : List Bool} {cs plain : List Char}

/-! ### One character -/

/-- The pass with the state of all levels in one list, the present one first. -/
def replaceBarsAt : (levels : List Bool) → List Char → Except ParseError (List Char)
  | [], cs => replaceBarsFrom false [] cs
  | level :: outer, cs => replaceBarsFrom level outer cs

theorem replaceBarsFrom_opening (outer : List Bool) (cs : List Char) :
    replaceBarsFrom false outer ('|' :: cs) =
      (replaceBarsFrom true outer cs).map ('a' :: 'b' :: 's' :: '(' :: ·) := rfl

theorem replaceBarsFrom_closing (outer : List Bool) (cs : List Char) :
    replaceBarsFrom true outer ('|' :: cs) = (replaceBarsFrom false outer cs).map (')' :: ·) := rfl

theorem replaceBarsFrom_lparen (barOpen : Bool) (outer : List Bool) (cs : List Char) :
    replaceBarsFrom barOpen outer ('(' :: cs) =
      (replaceBarsFrom false (barOpen :: outer) cs).map ('(' :: ·) := rfl

theorem replaceBarsFrom_rparen_of_open (outer : List Bool) (cs : List Char) :
    replaceBarsFrom true outer (')' :: cs) = .error .unmatchedBar := rfl

theorem replaceBarsFrom_rparen (outer : List Bool) (cs : List Char) :
    replaceBarsFrom false outer (')' :: cs) = (replaceBarsAt outer cs).map (')' :: ·) := by
  cases outer <;> rfl

theorem replaceBarsFrom_kept {c : Char} (hbar : c ≠ '|') (hopen : c ≠ '(') (hclose : c ≠ ')')
    (barOpen : Bool) (outer : List Bool) (cs : List Char) :
    replaceBarsFrom barOpen outer (c :: cs) = (replaceBarsFrom barOpen outer cs).map (c :: ·) := by
  rw [replaceBarsFrom.eq_def]
  simp only [hbar, hopen, hclose, if_false]

/-- Up to the first bar everything is kept. -/
theorem replaceBarsFrom_append {before : List Char} (h : '|' ∉ before) (hout : true ∉ outer) :
    ∃ outer', true ∉ outer' ∧ ∀ rest, replaceBarsFrom false outer (before ++ rest) =
      (replaceBarsFrom false outer' rest).map (before ++ ·) := by
  induction before generalizing outer with
  | nil =>
    refine ⟨outer, hout, fun rest => ?_⟩
    rw [List.nil_append]
    cases replaceBarsFrom false outer rest <;> rfl
  | cons c before ih =>
    rw [List.mem_cons, not_or] at h
    obtain ⟨next, hnext, hpass⟩ : ∃ next, true ∉ next ∧ ∀ rest,
        replaceBarsFrom false outer (c :: rest) =
          (replaceBarsFrom false next rest).map (c :: ·) := by
      by_cases hopen : c = '('
      · exact ⟨false :: outer, by simpa using hout, fun rest => hopen ▸ rfl⟩
      by_cases hclose : c = ')'
      · subst hclose
        match outer with
        | [] => exact ⟨[], hout, replaceBarsFrom_rparen []⟩
        | false :: outer => exact ⟨outer, by simpa using hout, replaceBarsFrom_rparen _⟩
        | true :: outer => exact absurd List.mem_cons_self hout
      · exact ⟨outer, hout, replaceBarsFrom_kept (Ne.symm h.1) hopen hclose false outer⟩
    obtain ⟨outer', hout', hrest⟩ := ih h.2 hnext
    refine ⟨outer', hout', fun rest => ?_⟩
    rw [List.cons_append, hpass, hrest]
    cases replaceBarsFrom false outer' rest <;> rfl

theorem replaceBars_eq_self (h : '|' ∉ cs) : replaceBars cs = .ok cs := by
  obtain ⟨outer, hout, hpass⟩ := replaceBarsFrom_append h (List.not_mem_nil (a := true))
  have hnil : replaceBarsFrom false outer [] = .ok [] := by simpa [replaceBarsFrom] using hout
  simpa [replaceBars, hnil, Except.map] using hpass []

/-! ### The pass -/

/-- A pass that succeeds, character by character. -/
inductive Pass : Bool → List Bool → List Char → List Char → Prop
  | done {outer : List Bool} : true ∉ outer → Pass false outer [] []
  | opening {outer : List Bool} {cs plain : List Char} : Pass true outer cs plain →
      Pass false outer ('|' :: cs) ('a' :: 'b' :: 's' :: '(' :: plain)
  | closing {outer : List Bool} {cs plain : List Char} : Pass false outer cs plain →
      Pass true outer ('|' :: cs) (')' :: plain)
  | lparen {barOpen : Bool} {outer : List Bool} {cs plain : List Char} :
      Pass false (barOpen :: outer) cs plain → Pass barOpen outer ('(' :: cs) ('(' :: plain)
  | rparen {level : Bool} {outer : List Bool} {cs plain : List Char} : Pass level outer cs plain →
      Pass false (level :: outer) (')' :: cs) (')' :: plain)
  | stray {cs plain : List Char} : Pass false [] cs plain →
      Pass false [] (')' :: cs) (')' :: plain)
  | kept {c : Char} {barOpen : Bool} {outer : List Bool} {cs plain : List Char} : c ≠ '|' →
      c ≠ '(' → c ≠ ')' → Pass barOpen outer cs plain → Pass barOpen outer (c :: cs) (c :: plain)

theorem Pass.of_replaceBarsFrom (h : replaceBarsFrom barOpen outer cs = .ok plain) :
    Pass barOpen outer cs plain := by
  induction cs generalizing barOpen outer plain with
  | nil =>
    unfold replaceBarsFrom at h
    split at h
    · cases h
    · next hnone =>
      cases h
      simp only [Bool.or_eq_true, not_or, List.any_eq_true, id, exists_eq_right,
        Bool.not_eq_true] at hnone
      obtain ⟨rfl, hout⟩ := hnone
      exact .done hout
  | cons c cs ih =>
    by_cases hbar : c = '|'
    · subst hbar
      cases barOpen with
      | false =>
        obtain ⟨rest, hrest, rfl⟩ := Result.map_eq_ok_iff.1 (replaceBarsFrom_opening .. ▸ h)
        exact .opening (ih hrest)
      | true =>
        obtain ⟨rest, hrest, rfl⟩ := Result.map_eq_ok_iff.1 (replaceBarsFrom_closing .. ▸ h)
        exact .closing (ih hrest)
    by_cases hopen : c = '('
    · subst hopen
      obtain ⟨rest, hrest, rfl⟩ := Result.map_eq_ok_iff.1 (replaceBarsFrom_lparen .. ▸ h)
      exact .lparen (ih hrest)
    by_cases hclose : c = ')'
    · subst hclose
      cases barOpen with
      | true =>
        rw [replaceBarsFrom_rparen_of_open] at h
        cases h
      | false =>
        obtain ⟨rest, hrest, rfl⟩ := Result.map_eq_ok_iff.1 (replaceBarsFrom_rparen .. ▸ h)
        cases outer with
        | nil => exact .stray (ih hrest)
        | cons level outer => exact .rparen (ih hrest)
    · obtain ⟨rest, hrest, rfl⟩ :=
        Result.map_eq_ok_iff.1 (replaceBarsFrom_kept hbar hopen hclose .. ▸ h)
      exact .kept hbar hopen hclose (ih hrest)

/-! ### What is replaced -/

/-- As many bars as are counted give way to the beginning of a call and to its end, and the other
characters are kept. -/
inductive Replaced : (opened closed : Nat) → List Char → List Char → Prop
  | nil : Replaced 0 0 [] []
  | opening {opened closed : Nat} {cs plain : List Char} : Replaced opened closed cs plain →
      Replaced (opened + 1) closed ('|' :: cs) ("abs(".toList ++ plain)
  | closing {opened closed : Nat} {cs plain : List Char} : Replaced opened closed cs plain →
      Replaced opened (closed + 1) ('|' :: cs) (')' :: plain)
  | kept {c : Char} {opened closed : Nat} {cs plain : List Char} : c ≠ '|' →
      Replaced opened closed cs plain → Replaced opened closed (c :: cs) (c :: plain)

theorem Replaced.count_eq {opened closed : Nat} (h : Replaced opened closed cs plain) :
    cs.count '|' = opened + closed := by
  induction h with
  | nil => rfl
  | opening _ ih => rw [List.count_cons_self, ih]; omega
  | closing _ ih => rw [List.count_cons_self, ih]; omega
  | kept hc _ ih => rw [List.count_cons_of_ne hc, ih]

/-- A character of a call, or one that was kept. -/
theorem Replaced.of_mem {opened closed : Nat} (h : Replaced opened closed cs plain) {d : Char}
    (hd : d ∈ plain) : d ∈ "abs()".toList ∨ d ∈ cs ∧ d ≠ '|' := by
  induction h with
  | nil => cases hd
  | opening _ ih =>
    rcases List.mem_append.1 hd with hd | hd
    · exact .inl (List.mem_append_left [')'] hd)
    · exact (ih hd).imp_right (And.imp_left (List.mem_cons_of_mem _))
  | closing _ ih =>
    rcases List.mem_cons.1 hd with rfl | hd
    · exact .inl (by decide)
    · exact (ih hd).imp_right (And.imp_left (List.mem_cons_of_mem _))
  | kept hc _ ih =>
    rcases List.mem_cons.1 hd with rfl | hd
    · exact .inr ⟨List.mem_cons_self, hc⟩
    · exact (ih hd).imp_right (And.imp_left (List.mem_cons_of_mem _))

/-- The pass closes what it opens, and what is open when it begins. -/
theorem Pass.replaced (h : Pass barOpen outer cs plain) :
    ∃ opened, Replaced opened (opened + (barOpen :: outer).count true) cs plain := by
  induction h with
  | @done outer hout =>
    have hcount : (false :: outer).count true = 0 :=
      List.count_eq_zero.2 (by simpa using hout)
    rw [hcount]
    exact ⟨0, .nil⟩
  | @opening outer cs plain _ ih =>
    obtain ⟨opened, hreplaced⟩ := ih
    refine ⟨opened + 1, ?_⟩
    have hcount : opened + (true :: outer).count true =
        opened + 1 + (false :: outer).count true := by
      simp only [List.count_cons_self, List.count_cons_of_ne Bool.false_ne_true]
      omega
    exact hcount ▸ .opening hreplaced
  | @closing outer cs plain _ ih =>
    obtain ⟨opened, hreplaced⟩ := ih
    rw [List.count_cons_of_ne Bool.false_ne_true] at hreplaced
    refine ⟨opened, ?_⟩
    rw [List.count_cons_self]
    exact .closing hreplaced
  | lparen _ ih | stray _ ih =>
    obtain ⟨opened, hreplaced⟩ := ih
    exact ⟨opened, .kept (by decide) hreplaced⟩
  | rparen _ ih =>
    obtain ⟨opened, hreplaced⟩ := ih
    exact ⟨opened, .kept (by decide) hreplaced⟩
  | kept hc _ _ _ ih =>
    obtain ⟨opened, hreplaced⟩ := ih
    exact ⟨opened, .kept hc hreplaced⟩

theorem exists_replaced (h : replaceBars cs = .ok plain) : ∃ k, Replaced k k cs plain :=
  (Pass.of_replaceBarsFrom h).replaced

/-! ### Brackets -/

/-- Each bar that is open is one bracket more that is open in what has been written. -/
theorem Pass.checkFrom (h : Pass barOpen outer cs plain) {justOpened : Bool}
    (hcs : Bracket.checkFrom outer.length justOpened cs = .ok ()) (justOpened' : Bool) :
    let result := Bracket.checkFrom (outer.length + (barOpen :: outer).count true) justOpened' plain
    result = .ok () ∨ result = .error .emptyBrackets := by
  have hfalse (outer : List Bool) : (false :: outer).count true = outer.count true :=
    List.count_cons_of_ne Bool.false_ne_true
  induction h generalizing justOpened justOpened' with
  | @done outer hout =>
    have hlength : outer.length = 0 := by
      by_contra hne
      rw [Bracket.checkFrom, if_neg hne] at hcs
      cases hcs
    rw [hfalse, List.length_eq_zero_iff.1 hlength]
    exact .inl rfl
  | @opening outer cs plain _ ih =>
    rw [Bracket.checkFrom_cons (by decide) (by decide)] at hcs
    have hrest := ih hcs true
    rw [List.count_cons_self, ← Nat.add_assoc] at hrest
    rw [hfalse]
    simpa [Bracket.checkFrom_cons, Bracket.checkFrom_open] using hrest
  | @closing outer cs plain _ ih =>
    rw [Bracket.checkFrom_cons (by decide) (by decide)] at hcs
    have hrest := ih hcs false
    rw [List.count_cons_self, ← Nat.add_assoc, Bracket.checkFrom_succ_close]
    rw [hfalse] at hrest
    -- The call is empty if its bar was opened just before.
    cases justOpened' with
    | true => exact .inr rfl
    | false => exact hrest
  | @lparen barOpen outer cs plain _ ih =>
    rw [Bracket.checkFrom_open] at hcs ⊢
    have hrest := ih hcs true
    rw [hfalse, List.length_cons, Nat.add_right_comm] at hrest
    exact hrest
  | @rparen level outer cs plain _ ih =>
    rw [List.length_cons, Bracket.checkFrom_succ_close] at hcs
    rw [hfalse, List.length_cons, Nat.add_right_comm, Bracket.checkFrom_succ_close]
    split at hcs
    · cases hcs
    · cases justOpened' with
      | true => exact .inr rfl
      | false => exact ih hcs false
  | stray _ ih => cases hcs
  | kept _ hopen hclose _ ih =>
    rw [Bracket.checkFrom_cons hopen hclose] at hcs ⊢
    exact ih hcs false

/-! ### Rounds -/

/-- Splits what follows a bar around the next bar of its level. `depth` brackets have been opened
since the bar. -/
def partner? : (depth : Nat) → List Char → Option (List Char × List Char)
  | _, [] => none
  | depth, c :: cs =>
    if c = '(' then (partner? (depth + 1) cs).map (Prod.map (c :: ·) id)
    else if c = ')' then
      match depth with
      | 0 => none
      | depth + 1 => (partner? depth cs).map (Prod.map (c :: ·) id)
    else if c = '|' ∧ depth = 0 then some ([], cs)
    else (partner? depth cs).map (Prod.map (c :: ·) id)

theorem partner?_eq_some {depth : Nat} {cs inner after : List Char}
    (h : partner? depth cs = some (inner, after)) : cs = inner ++ '|' :: after := by
  have hmap {c : Char} {found : Option (List Char × List Char)} {cs : List Char}
      (hfound : ∀ inner after, found = some (inner, after) → cs = inner ++ '|' :: after)
      {inner after : List Char} (h : found.map (Prod.map (c :: ·) id) = some (inner, after)) :
      c :: cs = inner ++ '|' :: after := by
    obtain ⟨⟨inner, after⟩, hp, heq⟩ := Option.map_eq_some_iff.1 h
    cases heq
    exact congrArg (c :: ·) (hfound _ _ hp)
  induction cs generalizing depth inner after with
  | nil => cases h
  | cons c cs ih =>
    unfold partner? at h
    split at h
    · exact hmap (fun _ _ => ih) h
    · split at h
      · split at h
        · cases h
        · exact hmap (fun _ _ => ih) h
      · split at h
        · next hbar =>
          cases h
          rw [hbar.1]
          rfl
        · exact hmap (fun _ _ => ih) h

/-- What the pass makes of an open bar and its partner, it makes of the call in their place. -/
theorem replaceBarsAt_of_open (levels outer : List Bool) (cs : List Char) :
    replaceBarsAt (levels ++ true :: outer) cs =
      match partner? levels.length cs with
      | none => .error .unmatchedBar
      | some (inner, after) =>
        replaceBarsAt (levels ++ false :: false :: outer) (inner ++ ')' :: after) := by
  induction cs generalizing levels with
  | nil =>
    cases levels with
    | nil => rfl
    | cons level levels => simp [replaceBarsAt, replaceBarsFrom, partner?]
  | cons c cs ih =>
    -- Whatever is open further inside, both passes do the same with a character of the inner text.
    have hstep (levels levels' : List Bool) (f : List Char → List Char)
        (hpartner : partner? levels.length (c :: cs) =
          (partner? levels'.length cs).map (Prod.map (c :: ·) id))
        (hpass : ∀ level outer cs, replaceBarsAt (levels ++ level :: outer) (c :: cs) =
          (replaceBarsAt (levels' ++ level :: outer) cs).map f) :
        replaceBarsAt (levels ++ true :: outer) (c :: cs) =
          match partner? levels.length (c :: cs) with
          | none => .error .unmatchedBar
          | some (inner, after) =>
            replaceBarsAt (levels ++ false :: false :: outer) (inner ++ ')' :: after) := by
      rw [hpass, ih, hpartner]
      rcases partner? levels'.length cs with _ | ⟨inner, after⟩
      · rfl
      · exact (hpass _ _ _).symm
    by_cases hopen : c = '('
    · subst hopen
      exact hstep levels (false :: levels) _ rfl fun _ _ _ => by cases levels <;> rfl
    by_cases hclose : c = ')'
    · subst hclose
      match levels with
      | [] => rfl
      | false :: levels => exact hstep _ levels _ rfl fun _ _ _ => replaceBarsFrom_rparen _ _
      | true :: levels =>
        -- A bar that is open further inside stops both passes here.
        have hpartner : partner? (levels.length + 1) (')' :: cs) =
          (partner? levels.length cs).map (Prod.map (')' :: ·) id) := rfl
        rw [List.length_cons, hpartner]
        rcases partner? levels.length cs with _ | ⟨inner, after⟩ <;> rfl
    by_cases hbar : c = '|'
    · subst hbar
      match levels with
      | [] => rfl
      | false :: levels => exact hstep _ (true :: levels) _ rfl fun _ _ _ => rfl
      | true :: levels => exact hstep _ (false :: levels) _ rfl fun _ _ _ => rfl
    · refine hstep levels levels (c :: ·) ?_ fun level outer cs => ?_
      · rw [partner?.eq_def]
        simp only [hopen, hclose, hbar, false_and, if_false]
      · cases levels <;> exact replaceBarsFrom_kept hbar hopen hclose _ _ _

/-- The text with the first bar and its partner made a call. -/
def callAt (cs inner after : List Char) : List Char :=
  cs.takeWhile (· ≠ '|') ++ ("abs(".toList ++ (inner ++ ')' :: after))

section

variable {rest inner after : List Char} {bar : Char} (hbar : cs.dropWhile (· ≠ '|') = bar :: rest)
include hbar

theorem takeWhile_append_bar : cs.takeWhile (· ≠ '|') ++ '|' :: rest = cs := by
  have hhead := List.head?_dropWhile_not (· ≠ '|') cs
  rw [hbar] at hhead
  obtain rfl : bar = '|' := by simpa using hhead
  rw [← hbar, List.takeWhile_append_dropWhile]

theorem count_callAt_lt (hpartner : partner? 0 rest = some (inner, after)) :
    (callAt cs inner after).count '|' < cs.count '|' := by
  have hcount := congrArg (List.count '|') (takeWhile_append_bar hbar)
  rw [partner?_eq_some hpartner] at hcount
  have hcall : "abs(".toList.count '|' = 0 := rfl
  rw [callAt, ← hcount]
  simp only [List.count_append, hcall, List.count_cons_self,
    List.count_cons_of_ne (show ')' ≠ '|' by decide)]
  omega

end

theorem not_mem_takeWhile (cs : List Char) : '|' ∉ cs.takeWhile (· ≠ '|') := fun h => by
  simpa using List.mem_takeWhile_imp h

/-- The first bar and its partner become a call, then those that are the first then, and so on. -/
def replaceBarsInRounds (cs : List Char) : Except ParseError (List Char) :=
  match hbar : cs.dropWhile (· ≠ '|') with
  | [] => .ok cs
  | _ :: rest =>
    match hpartner : partner? 0 rest with
    | none => .error .unmatchedBar
    | some (inner, after) =>
      have := count_callAt_lt hbar hpartner
      replaceBarsInRounds (callAt cs inner after)
termination_by cs.count '|'

theorem replaceBarsFrom_call (outer : List Bool) (cs : List Char) :
    replaceBarsFrom false outer ("abs(".toList ++ cs) =
      (replaceBarsFrom false (false :: outer) cs).map ("abs(".toList ++ ·) := by
  change (((replaceBarsFrom false (false :: outer) cs).map _ |>.map _) |>.map _).map _ = _
  cases replaceBarsFrom false (false :: outer) cs <;> rfl

theorem replaceBarsInRounds_eq (cs : List Char) : replaceBarsInRounds cs = replaceBars cs := by
  have hpass (cs : List Char) : ∃ outer, true ∉ outer ∧ ∀ rest,
      replaceBars (cs.takeWhile (· ≠ '|') ++ rest) =
        (replaceBarsFrom false outer rest).map (cs.takeWhile (· ≠ '|') ++ ·) :=
    replaceBarsFrom_append (not_mem_takeWhile cs) List.not_mem_nil
  fun_induction replaceBarsInRounds cs with
  | case1 cs hbar =>
    have hcs : '|' ∉ cs := fun hmem => by
      simpa using List.dropWhile_eq_nil_iff.1 hbar _ hmem
    exact (replaceBars_eq_self hcs).symm
  | case2 cs bar rest hbar hpartner =>
    obtain ⟨outer, -, hpass⟩ := hpass cs
    have hopen : replaceBarsFrom true outer rest = .error .unmatchedBar := by
      have := replaceBarsAt_of_open [] outer rest
      rwa [List.length_nil, hpartner] at this
    have hcs := hpass ('|' :: rest)
    rw [takeWhile_append_bar hbar, replaceBarsFrom_opening, hopen] at hcs
    exact hcs.symm
  | case3 cs bar rest hbar inner after hpartner _ ih =>
    obtain ⟨outer, -, hpass⟩ := hpass cs
    have hopen : replaceBarsFrom true outer rest =
        replaceBarsFrom false (false :: outer) (inner ++ ')' :: after) := by
      have := replaceBarsAt_of_open [] outer rest
      rwa [List.length_nil, hpartner] at this
    have hcs := hpass ('|' :: rest)
    rw [takeWhile_append_bar hbar, replaceBarsFrom_opening, hopen] at hcs
    rw [ih, callAt, hpass, replaceBarsFrom_call, hcs]
    rfl

/-- The rounds come to an end, and they do what the pass does. On a text with balanced brackets each
round trades a bar for the beginning of a call and another for its end, until there are no bars left
or one of them has no partner; and the brackets still balance. -/
theorem replaceBars_of_check {cs : List Char} (h : Bracket.check cs = .ok ()) :
    replaceBarsInRounds cs = replaceBars cs ∧
      ∀ plain, replaceBars cs = .ok plain →
        '|' ∉ plain ∧ (∃ k, cs.count '|' = 2 * k ∧ Replaced k k cs plain) ∧
        (Bracket.check plain = .ok () ∨ Bracket.check plain = .error .emptyBrackets) := by
  refine ⟨replaceBarsInRounds_eq cs, fun plain hplain => ?_⟩
  obtain ⟨k, hreplaced⟩ := exists_replaced hplain
  have hbar : '|' ∉ plain := fun hmem => by
    rcases hreplaced.of_mem hmem with hcall | hkept
    · exact absurd hcall (by decide)
    · exact hkept.2 rfl
  have hcount : cs.count '|' = 2 * k := by rw [hreplaced.count_eq, Nat.two_mul]
  exact ⟨hbar, ⟨k, hcount, hreplaced⟩, (Pass.of_replaceBarsFrom hplain).checkFrom h false⟩

/-- The bars around `n` stand in brackets of their own, the last two have nothing between them. -/
theorem replaceBars_of_check_nested :
    let cs := "|(x-|n|)|*||".toList
    let plain := "abs((x-abs(n)))*abs()".toList
    Bracket.check cs = .ok () ∧ replaceBars cs = .ok plain ∧ replaceBarsInRounds cs = .ok plain ∧
      (∃ k, cs.count '|' = 2 * k ∧ Replaced k k cs plain) ∧
      Bracket.check plain = .error .emptyBrackets := by
  intro cs plain
  have hcheck : Bracket.check cs = .ok () := by rfl
  have hplain : replaceBars cs = .ok plain := by rfl
  obtain ⟨hrounds, hall⟩ := replaceBars_of_check hcheck
  obtain ⟨-, hreplaced, -⟩ := hall plain hplain
  exact ⟨hcheck, hplain, hrounds.trans hplain, hreplaced, by rfl⟩

end ComplexSeries.Input
