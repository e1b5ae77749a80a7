import ComplexSeries.Scalar.Double
import ComplexSeries.Proofs.Expr.Reader

/-! Reading with levels to spare. A reader that has as many levels as another, or more, does what the
other does until that one runs out of levels. So a limit can turn a formula away, but it changes
neither the tree that is read nor the reason for which a formula is refused. Whatever else stops a
reader is found in the lexemes that it was given. -/
namespace ComplexSeries

/-- The causes that concern the characters of a text, and not what they are lexemes of. -/
def ParseError.isLexical : ParseError → Bool
  | emptyInput | unbalancedBrackets | emptyBrackets | consecutiveOperators _ | unmatchedBar
  | malformedNumber _ | disallowedCharacter _ => true
  | _ => false

namespace Expr

open Lexeme

variable {R : Type} {α β : Type} {limit limit' : Nat}

/-! ### Two results -/

/-- The result of a reader, and of one with levels to spare. The levels are only a gate: the first has
run out of them, or both return the same, of which `P` holds, or both fail for the same cause, of
which `C` holds. -/
inductive Gated (limit : Nat) (C : ParseError → Prop) (P : α → Prop) :
    Except ParseError α → Except ParseError α → Prop
  | tooDeep (t : Except ParseError α) : Gated limit C P (.error (.nestingTooDeep limit)) t
  | ok {a : α} : P a → Gated limit C P (.ok a) (.ok a)
  | error {cause : ParseError} : C cause → Gated limit C P (.error cause) (.error cause)

namespace Gated

variable {C C' : ParseError → Prop} {P P' : α → Prop} {Q : β → Prop} {t t' : Except ParseError α}

theorem bind {f f' : α → Except ParseError β} (h : Gated limit C P t t')
    (hf : ∀ a, P a → Gated limit C Q (f a) (f' a)) : Gated limit C Q (t >>= f) (t' >>= f') := by
  cases h with
  | tooDeep => exact .tooDeep _
  | ok ha => exact hf _ ha
  | error hcause => exact .error hcause

theorem mono (h : Gated limit C P t t') (hC : ∀ cause, C cause → C' cause) (hP : ∀ a, P a → P' a) :
    Gated limit C' P' t t' := by
  cases h with
  | tooDeep => exact .tooDeep _
  | ok ha => exact .ok (hP _ ha)
  | error hcause => exact .error (hC _ hcause)

/-- What has not run out of levels is the same with levels to spare. -/
theorem outcome (h : Gated limit C P t t') :
    (∀ a, t = .ok a → P a ∧ t' = .ok a) ∧
      ∀ cause, t = .error cause → (∀ k, cause ≠ .nestingTooDeep k) → t' = .error cause := by
  cases h with
  | tooDeep =>
    refine ⟨fun a ha => (nomatch ha), fun cause hcause hgate => ?_⟩
    exact absurd (Except.error.inj hcause).symm (hgate limit)
  | ok hP => exact ⟨fun a ha => ⟨Except.ok.inj ha ▸ hP, ha⟩, fun cause hcause => (nomatch hcause)⟩
  | error => exact ⟨fun a ha => (nomatch ha), fun cause hcause _ => hcause⟩

end Gated

/-! ### Two readers -/

variable [Scalar R] {ks ls : List Lexeme}

/-- A cause that a reader of these lexemes can meet. A number is malformed, or a bracket is not closed,
only if there is such a number, or such a bracket, among them. -/
def FoundIn (R : Type) [Scalar R] (ls : List Lexeme) : ParseError → Prop
  | .malformedNumber digits => number digits ∈ ls ∧ Scalar.read? (R := R) digits = none
  | .unbalancedBrackets => ∃ ks, lparen :: ks <:+ ls ∧ arguments? ks = none
  | cause => cause.isLexical = false

theorem FoundIn.mono {cause : ParseError} (h : FoundIn R ks cause) (hsuffix : ks <:+ ls) :
    FoundIn R ls cause := by
  cases cause with
  | malformedNumber digits => exact ⟨hsuffix.mem h.1, h.2⟩
  | unbalancedBrackets =>
    obtain ⟨js, hjs, hnone⟩ := h
    exact ⟨js, hjs.trans hsuffix, hnone⟩
  | _ => exact h

/-- The second reader has levels to spare. What both leave over is the end of what they were given. -/
def GatedReader (limit : Nat) (r r' : Reader R) : Prop :=
  ∀ scope ls, Gated limit (FoundIn R ls) (·.2 <:+ ls) (r scope ls) (r' scope ls)

namespace GatedReader

variable {r r' : Reader R}

/-- Reading what an earlier reader left over. -/
theorem after (h : GatedReader limit r r') (hks : ks <:+ ls) (scope : List Char) :
    Gated limit (FoundIn R ls) (·.2 <:+ ls) (r scope ks) (r' scope ks) :=
  (h scope ks).mono (fun _ hcause => hcause.mono hks) fun _ hrest => hrest.trans hks

end GatedReader

theorem gated_tooDeep (r : Reader R) : GatedReader limit (tooDeep limit) r := fun _ _ => .tooDeep _

theorem gated_expect (l : Lexeme) (hks : ks <:+ ls) :
    Gated limit (FoundIn R ls) (· <:+ ls) (expect l ks) (expect l ks) := by
  cases ks with
  | nil => exact .error rfl
  | cons k ks =>
    rw [expect]
    split
    · exact .ok ((List.suffix_cons k ks).trans hks)
    · exact .error rfl

theorem gated_openCall (k : Keyword) (ls : List Lexeme) :
    Gated limit (FoundIn R ls) (·.1 <:+ ls) (openCall k ls) (openCall k ls) := by
  unfold openCall
  split
  · next rest =>
    split
    · next hnone => exact .error ⟨rest, List.suffix_rfl, hnone⟩
    · split
      · exact .ok (List.suffix_cons _ _)
      · exact .error rfl
  · exact .error rfl

theorem gated_ofIndex (scope : List Char) (args : List (List Lexeme)) :
    Gated limit (FoundIn R ls) (fun _ => True) (ofIndex scope args) (ofIndex scope args) := by
  unfold ofIndex
  split
  · split
    · exact .error rfl
    · exact .ok trivial
  · exact .error rfl

theorem gated_ofNumber (digits : List Char) (ls : List Lexeme) :
    Gated limit (FoundIn R (number digits :: ls)) (fun _ => True) (ofNumber (R := R) digits)
      (ofNumber digits) := by
  unfold ofNumber
  split
  · next hnone => exact .error ⟨List.mem_cons_self, hnone⟩
  · split
    · exact .ok trivial
    · exact .error rfl

theorem gated_ofLetter (scope : List Char) (c : Char) :
    Gated limit (FoundIn R ls) (fun _ => True) (ofLetter (R := R) scope c) (ofLetter scope c) := by
  unfold ofLetter
  split
  · exact .ok trivial
  · split
    · exact .ok trivial
    · exact .error rfl

section Chains

variable {operand operand' : Reader R} {selects : Operator → Bool} {allowance allowance' : Nat}

omit [Scalar R] in
/-- A chain goes on if it selects the operator that follows. -/
theorem link_or_stop (selects : Operator → Bool) (ls : List Lexeme) :
    (∃ o rest, ls = operator o :: rest ∧ selects o = true) ∨
      ∀ o, ls.head? = some (operator o) → selects o = false := by
  by_cases hlink : ∃ o rest, ls = operator o :: rest ∧ selects o = true
  · exact .inl hlink
  · refine .inr fun o ho => Bool.eq_false_iff.2 fun hselects => hlink ?_
    exact ⟨o, ls.tail, List.eq_cons_of_mem_head? ho, hselects⟩

theorem gated_chainFrom (h : GatedReader limit operand operand') (hle : allowance ≤ allowance')
    (lhs : Expr R) :
    GatedReader limit (chainFrom limit selects operand allowance lhs)
      (chainFrom limit' selects operand' allowance' lhs) := by
  induction allowance generalizing allowance' lhs with
  | zero =>
    intro scope ls
    obtain ⟨o, rest, rfl, ho⟩ | hstop := link_or_stop selects ls
    · rw [chainFrom, if_pos ho]
      exact .tooDeep _
    · rw [chainFrom_eq_ok hstop, chainFrom_eq_ok hstop]
      exact .ok List.suffix_rfl
  | succ allowance ih =>
    obtain ⟨allowance', rfl, hbelow⟩ := exists_below hle
    intro scope ls
    obtain ⟨o, rest, rfl, ho⟩ | hstop := link_or_stop selects ls
    · rw [chainFrom, chainFrom, if_pos ho, if_pos ho]
      refine (h.after (List.suffix_cons _ _) scope).bind fun rhs hrhs => ?_
      exact (ih hbelow _).after hrhs scope
    · rw [chainFrom_eq_ok hstop, chainFrom_eq_ok hstop]
      exact .ok List.suffix_rfl

theorem gated_chain (h : GatedReader limit operand operand') (hle : allowance ≤ allowance') :
    GatedReader limit (chain limit selects allowance operand)
      (chain limit' selects allowance' operand') := by
  intro scope ls
  refine (h scope ls).bind fun ⟨lhs, rest⟩ hrest => ?_
  exact (gated_chainFrom h hle lhs).after hrest scope

end Chains

theorem gated_powerOf {atom atom' exponent exponent' : Reader R}
    (hatom : GatedReader limit atom atom') (hexponent : GatedReader limit exponent exponent') :
    GatedReader limit (powerOf atom exponent) (powerOf atom' exponent') := by
  intro scope ls
  refine (hatom scope ls).bind fun ⟨base, rest⟩ hrest => ?_
  dsimp only
  split
  · next after =>
    refine (hexponent.after ((List.suffix_cons _ after).trans hrest) scope).bind fun p hp => ?_
    exact .ok hp
  · exact .ok hrest

section Calls

variable {sum sum' : Reader R} (h : GatedReader limit sum sum')
include h

theorem gated_functionOf (f : Function) :
    GatedReader limit (functionOf sum f) (functionOf sum' f) := by
  intro scope ls
  refine (gated_openCall _ ls).bind fun opened hopened => ?_
  refine (h.after hopened scope).bind fun arg harg => ?_
  refine (gated_expect _ harg).bind fun rest hrest => ?_
  exact .ok hrest

theorem gated_logOf : GatedReader limit (logOf sum) (logOf sum') := by
  intro scope ls
  refine (gated_openCall _ ls).bind fun opened hopened => ?_
  refine (h.after hopened scope).bind fun value hvalue => ?_
  refine (gated_expect _ hvalue).bind fun middle hmiddle => ?_
  refine (h.after hmiddle scope).bind fun base hbase => ?_
  refine (gated_expect _ hbase).bind fun rest hrest => ?_
  exact .ok hrest

theorem gated_aggregateOf (a : Aggregate) :
    GatedReader limit (aggregateOf sum a) (aggregateOf sum' a) := by
  intro scope ls
  refine (gated_openCall _ ls).bind fun opened hopened => ?_
  refine (h.after hopened scope).bind fun lower hlower => ?_
  refine (gated_expect _ hlower).bind fun afterLower hafterLower => ?_
  refine (h.after hafterLower scope).bind fun upper hupper => ?_
  refine (gated_expect _ hupper).bind fun afterUpper hafterUpper => ?_
  refine (gated_ofIndex scope opened.2).bind fun index _ => ?_
  refine (h.after hafterUpper (index :: scope)).bind fun body hbody => ?_
  refine (gated_expect _ hbody).bind fun afterBody hafterBody => ?_
  refine (gated_expect _ hafterBody).bind fun afterIndex hafterIndex => ?_
  refine (gated_expect _ hafterIndex).bind fun rest hrest => ?_
  exact .ok hrest

theorem gated_atomOf : GatedReader limit (atomOf sum) (atomOf sum') := by
  intro scope ls
  cases ls with
  | nil => exact .error rfl
  | cons l ls =>
    have hls : ls <:+ l :: ls := List.suffix_cons l ls
    cases l with
    | number digits => exact (gated_ofNumber digits ls).bind fun _ _ => .ok hls
    | letter c => exact (gated_ofLetter scope c).bind fun _ _ => .ok hls
    | keyword k =>
      cases k with
      | constant c => exact .ok hls
      | function f => exact (gated_functionOf h f).after hls scope
      | log => exact (gated_logOf h).after hls scope
      | aggregate a => exact (gated_aggregateOf h a).after hls scope
    | lparen =>
      refine (h.after hls scope).bind fun inner hinner => ?_
      refine (gated_expect _ hinner).bind fun rest hrest => ?_
      exact .ok hrest
    | operator | rparen | separator | degree | percent => exact .error rfl

end Calls

variable {levels levels' : Nat}

theorem gated_sumOf {power power' : Reader R} (h : GatedReader limit power power')
    (hle : levels ≤ levels') :
    GatedReader limit (sumOf limit levels power) (sumOf limit' levels' power') :=
  gated_chain (gated_chain h hle) hle

theorem gated_power (hle : levels ≤ levels') :
    GatedReader limit (power (R := R) limit levels) (power limit' levels') := by
  induction levels generalizing levels' with
  | zero =>
    rw [power_eq limit' levels']
    exact gated_powerOf (gated_atomOf (gated_tooDeep _)) (gated_tooDeep _)
  | succ levels ih =>
    obtain ⟨levels', rfl, hbelow⟩ := exists_below hle
    exact gated_powerOf (gated_atomOf (gated_sumOf (ih hbelow) hbelow)) (ih hbelow)

theorem gated_sum (hle : levels ≤ levels') :
    GatedReader limit (sum (R := R) limit levels) (sum limit' levels') := by
  cases levels with
  | zero => exact gated_tooDeep _
  | succ levels =>
    obtain ⟨levels', rfl, hbelow⟩ := exists_below hle
    exact gated_sumOf (gated_power hbelow) hbelow

/-! ### Whole lists -/

theorem gated_ofLexemes (hle : limit ≤ limit') (hne : ls ≠ []) :
    Gated limit (FoundIn R ls) (fun e : Expr R => e.depth ≤ limit) (ofLexemes limit ls)
      (ofLexemes limit' ls) := by
  have hls : ls.isEmpty = false := by simpa using hne
  unfold ofLexemes
  rw [hls]
  refine (gated_sum hle [] ls).bind fun ⟨e, rest⟩ _ => ?_
  cases rest with
  | cons l rest => exact .error rfl
  | nil =>
    by_cases hdepth : limit < e.depth
    · simp only [hdepth, if_true]
      exact .tooDeep _
    · have hdepth' : ¬limit' < e.depth := by omega
      simp only [hdepth, hdepth', if_false]
      exact .ok (Nat.le_of_not_lt hdepth)

theorem gated_parse (hle : limit ≤ limit') (cs : List Char) :
    Gated limit (fun _ => True) (fun e : Expr R => e.depth ≤ limit) (parse limit cs)
      (parse limit' cs) := by
  unfold parse
  cases scan cs with
  | error cause => exact .error trivial
  | ok ls =>
    cases ls with
    | nil => exact .error trivial
    | cons l ls =>
      have hread := gated_ofLexemes (R := R) hle (List.cons_ne_nil l ls)
      exact hread.mono (fun _ _ => trivial) fun _ hdepth => hdepth

theorem depth_le_of_read {s : String} {e : Expr R} (h : read limit s = .ok e) : e.depth ≤ limit :=
  ((gated_parse le_rfl s.toList).outcome.1 e h).1

/-- A greater limit reads the same tree, which is no deeper than the lesser, and refuses a text for the
same cause, unless that was the lesser limit. -/
theorem read_of_le (hle : limit ≤ limit') (s : String) :
    (∀ e : Expr R, read limit s = .ok e → e.depth ≤ limit ∧ read limit' s = .ok e) ∧
      ∀ cause, read (R := R) limit s = .error cause → (∀ k, cause ≠ .nestingTooDeep k) →
        read (R := R) limit' s = .error cause :=
  (gated_parse hle s.toList).outcome

/-- Three levels are too few for `2^(x*x)`. A fourth reads it, and shows what is wrong with `2^(x*)`. -/
theorem read_of_le_power :
    let e : Expr Float := .binary .pow (.const (.ofReal 2)) (.binary .mul (.var 'x') (.var 'x'))
    read (R := Float) 3 "2^(x*x)" = .error (.nestingTooDeep 3) ∧
      (4 ≤ 100 ∧ read 4 "2^(x*x)" = .ok e ∧ e.depth ≤ 4 ∧ read 100 "2^(x*x)" = .ok e) ∧
      read (R := Float) 3 "2^(x*)" = .error (.nestingTooDeep 3) ∧
      read (R := Float) 4 "2^(x*)" = .error (.unexpectedLexeme .rparen) ∧
      read (R := Float) 100 "2^(x*)" = .error (.unexpectedLexeme .rparen) := by
  intro e
  have hscan : Lexeme.scan "2^(x*x)".toList = .ok [.number ['2'], .operator .pow, .lparen,
      .letter 'x', .operator .mul, .letter 'x', .rparen] := by rfl
  have hscan' : Lexeme.scan "2^(x*)".toList = .ok [.number ['2'], .operator .pow, .lparen,
      .letter 'x', .operator .mul, .rparen] := by rfl
  have hread : read 4 "2^(x*x)" = .ok e :=
    read_of_scan hscan (ofLexemes_of_sum (List.cons_ne_nil _ _) rfl (by decide))
  have hread' : read (R := Float) 4 "2^(x*)" = .error (.unexpectedLexeme .rparen) := by
    rw [read, parse, hscan']
    rfl
  have hle : 4 ≤ 100 := by decide
  obtain ⟨hdepth, hmore⟩ := (read_of_le hle "2^(x*x)").1 e hread
  refine ⟨by rw [read, parse, hscan]; rfl, ⟨hle, hread, hdepth, hmore⟩,
    by rw [read, parse, hscan']; rfl, hread', ?_⟩
  exact (read_of_le hle "2^(x*)").2 _ hread' fun _ => by simp

end Expr

end ComplexSeries
