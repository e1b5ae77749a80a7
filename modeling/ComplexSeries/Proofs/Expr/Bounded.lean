import Mathlib.Tactic.Ring
import ComplexSeries.Proofs.Expr.Levels

/-! How high trees grow while a list is read, whether or not it is accepted in the end. A chain adds a
level for each of its operators, and it has no more operators than levels are left. A sum is a chain of
chains of powers; a power may be of a call, and the call hold a sum with a level less. So a level more
adds two for the power and the call, and two for each level that was left before: the bound is a square,
whatever the length of the list. -/
namespace ComplexSeries.Expr

open Lexeme

variable {R : Type} [Scalar R] {most most' limit levels : Nat} {scope : List Char}
  {ls rest : List Lexeme} {e : Expr R}

/-- No tree that the reader returns is higher than that. -/
def Bounded (most : Nat) (r : Reader R) : Prop :=
  ∀ ⦃scope ls e rest⦄, r scope ls = .ok (e, rest) → e.height ≤ most

section

omit [Scalar R]

theorem Bounded.mono {r : Reader R} (h : Bounded most r) (hle : most ≤ most') : Bounded most' r :=
  fun _ _ _ _ hread => (h hread).trans hle

theorem bounded_tooDeep (most limit : Nat) : Bounded most (tooDeep (R := R) limit) :=
  fun _ _ _ _ hread => nomatch hread

section Chains

variable {operand : Reader R} {selects : Operator → Bool}

/-- Each link puts one more node on top of what has been read. -/
theorem height_le_of_chainFrom (h : Bounded most operand) {allowance : Nat} {lhs : Expr R}
    (hread : chainFrom limit selects operand allowance lhs scope ls = .ok (e, rest)) :
    e.height ≤ max lhs.height most + allowance := by
  induction allowance generalizing lhs ls with
  | zero =>
    obtain ⟨o, after, rfl, ho⟩ | hstop := link_or_stop selects ls
    · rw [chainFrom, if_pos ho] at hread
      cases hread
    · rw [chainFrom_eq_ok hstop] at hread
      cases hread
      exact Nat.le_max_left _ _
  | succ allowance ih =>
    obtain ⟨o, after, rfl, ho⟩ | hstop := link_or_stop selects ls
    · rw [chainFrom, if_pos ho] at hread
      simp only [Result.bind_eq_ok_iff, Prod.exists] at hread
      obtain ⟨rhs, after, hrhs, hread⟩ := hread
      have hlink : (binary o lhs rhs).height = max lhs.height rhs.height + 1 := rfl
      have hright := h hrhs
      have htree := ih hread
      omega
    · rw [chainFrom_eq_ok hstop] at hread
      cases hread
      omega

theorem bounded_chain (h : Bounded most operand) (limit : Nat) (selects : Operator → Bool)
    (allowance : Nat) : Bounded (most + allowance) (chain limit selects allowance operand) := by
  intro scope ls e rest hread
  simp only [chain, Result.bind_eq_ok_iff, Prod.exists] at hread
  obtain ⟨lhs, after, hlhs, hread⟩ := hread
  have hleft := h hlhs
  have htree := height_le_of_chainFrom h hread
  omega

end Chains

theorem bounded_sumOf {power : Reader R} (h : Bounded most power) (limit levels : Nat) :
    Bounded (most + levels + levels) (sumOf limit levels power) :=
  bounded_chain (bounded_chain h _ _ _) _ _ _

theorem bounded_powerOf {atom exponent : Reader R} (hatom : Bounded most atom)
    (hexponent : Bounded most exponent) : Bounded (most + 1) (powerOf atom exponent) := by
  intro scope ls e rest hread
  simp only [powerOf, Result.bind_eq_ok_iff, Prod.exists] at hread
  obtain ⟨base, after, hbase, hread⟩ := hread
  have hbase := hatom hbase
  split at hread
  · simp only [Result.bind_eq_ok_iff, Prod.exists] at hread
    obtain ⟨power, after, hpower, hread⟩ := hread
    have hpower := hexponent hpower
    cases hread
    simp only [height]
    omega
  · cases hread
    omega

/-- Without a level left for the exponent, a power is its base. -/
theorem bounded_powerOf_tooDeep {atom : Reader R} (hatom : Bounded most atom) :
    Bounded most (powerOf atom (tooDeep limit)) := by
  intro scope ls e rest hread
  simp only [powerOf, Result.bind_eq_ok_iff, Prod.exists] at hread
  obtain ⟨base, after, hbase, hread⟩ := hread
  split at hread
  · cases hread
  · cases hread
    exact hatom hbase

section Calls

variable {sum : Reader R} (h : Bounded most sum)
include h

theorem bounded_functionOf (f : Function) : Bounded (most + 1) (functionOf sum f) := by
  intro scope ls e rest hread
  simp only [functionOf, Result.bind_eq_ok_iff, Prod.exists, Result.pure_eq_ok_iff,
    Prod.mk.injEq] at hread
  obtain ⟨opened, args, -, arg, after, harg, after', -, rfl, rfl⟩ := hread
  exact Nat.succ_le_succ (h harg)

theorem bounded_logOf : Bounded (most + 1) (logOf sum) := by
  intro scope ls e rest hread
  simp only [logOf, Result.bind_eq_ok_iff, Prod.exists, Result.pure_eq_ok_iff,
    Prod.mk.injEq] at hread
  obtain ⟨opened, args, -, value, l₁, hvalue, l₂, -, base, l₃, hbase, l₄, -, rfl, rfl⟩ := hread
  exact Nat.succ_le_succ (Nat.max_le.2 ⟨h hvalue, h hbase⟩)

theorem bounded_aggregateOf (a : Aggregate) : Bounded (most + 1) (aggregateOf sum a) := by
  intro scope ls e rest hread
  simp only [aggregateOf, Result.bind_eq_ok_iff, Prod.exists, Result.pure_eq_ok_iff,
    Prod.mk.injEq] at hread
  obtain ⟨opened, args, -, lower, l₁, hlower, l₂, -, upper, l₃, hupper, l₄, -, index, -, body, l₅,
    hbody, l₆, -, l₇, -, l₈, -, rfl, rfl⟩ := hread
  exact Nat.succ_le_succ (Nat.max_le.2 ⟨h hlower, Nat.max_le.2 ⟨h hupper, h hbody⟩⟩)

end Calls

end

/-- A bracket leaves its contents as they are, a call puts one node on top of its arguments. -/
theorem bounded_atomOf {sum : Reader R} (h : Bounded most sum) :
    Bounded (most + 1) (atomOf sum) := by
  intro scope ls e rest hread
  cases ls with
  | nil => cases hread
  | cons l ls =>
    cases l with
    | number digits =>
      obtain ⟨e, hnumber, hread⟩ := Result.map_eq_ok_iff.1 hread
      obtain ⟨a, -, -, rfl⟩ := ofNumber_eq_ok_iff.1 hnumber
      cases hread
      exact Nat.le_add_left 1 most
    | letter c =>
      obtain ⟨e, hletter, hread⟩ := Result.map_eq_ok_iff.1 hread
      cases hread
      rcases ofLetter_eq_ok_iff.1 hletter with ⟨-, rfl⟩ | ⟨-, rfl, rfl⟩
      · exact Nat.le_add_left 1 most
      · exact Nat.le_add_left 1 most
    | keyword k =>
      cases k with
      | constant c =>
        cases hread
        exact Nat.le_add_left 1 most
      | function f => exact bounded_functionOf h f hread
      | log => exact bounded_logOf h hread
      | aggregate a => exact bounded_aggregateOf h a hread
    | lparen =>
      obtain ⟨⟨inner, after⟩, hinner, hread⟩ := Result.bind_eq_ok_iff.1 hread
      obtain ⟨after', -, hread⟩ := Result.bind_eq_ok_iff.1 hread
      cases hread
      exact (h hinner).trans (Nat.le_succ most)
    | operator | rparen | separator | degree | percent => cases hread

/-- The recursion is on the levels that are left, whatever the limit was. -/
theorem bounded_power (limit levels : Nat) :
    Bounded (levels * levels + levels + 1) (power (R := R) limit levels) := by
  induction levels with
  | zero =>
    -- neither a sum nor an exponent can be read here, so the power is a leaf
    exact bounded_powerOf_tooDeep (bounded_atomOf (bounded_tooDeep 0 limit))
  | succ levels ih =>
    have hatom := bounded_atomOf (bounded_sumOf ih limit levels)
    have hexponent : Bounded (levels * levels + levels + 1 + levels + levels + 1)
        (power (R := R) limit levels) := ih.mono (by omega)
    apply (bounded_powerOf hatom hexponent).mono
    apply le_of_eq
    ring

theorem bounded_sum (limit levels : Nat) :
    Bounded (levels * levels + levels - 1) (sum (R := R) limit levels) := by
  cases levels with
  | zero => exact bounded_tooDeep _ limit
  | succ levels =>
    apply (bounded_sumOf (bounded_power limit levels) limit levels).mono
    have hsquare : (levels + 1) * (levels + 1) + (levels + 1) =
        levels * levels + levels + 1 + levels + levels + 1 := by ring
    omega

/-! ### Sums on the way to a tree -/

/-- A power inside which sums are read by what `watch` makes of their readers. -/
def powerWith (watch : Reader R → Reader R) (limit : Nat) : (levels : Nat) → Reader R
  | 0 => powerOf (atomOf (watch (tooDeep limit))) (tooDeep limit)
  | levels + 1 =>
    powerOf (atomOf (watch (sumOf limit levels (powerWith watch limit levels))))
      (powerWith watch limit levels)

def sumWith (watch : Reader R → Reader R) (limit : Nat) : (levels : Nat) → Reader R
  | 0 => watch (tooDeep limit)
  | levels + 1 => watch (sumOf limit levels (powerWith watch limit levels))

/-- The tree of a whole list, with `watch` around every sum that is read on the way, the whole list's
included. -/
def ofLexemesWith (watch : Reader R → Reader R) (limit : Nat) (ls : List Lexeme) :
    Except ParseError (Expr R) :=
  if ls.isEmpty then .error .emptyInput
  else do
    let (e, rest) ← sumWith watch limit limit [] ls
    match rest with
    | l :: _ => .error (.unexpectedLexeme l)
    | [] => if limit < e.depth then .error (.nestingTooDeep limit) else .ok e

section Watch

variable {watch : Reader R → Reader R}

theorem powerWith_eq (h : ∀ below ≤ levels, watch (sum limit below) = sum limit below) :
    powerWith watch limit levels = power limit levels := by
  induction levels with
  | zero =>
    show powerOf (atomOf (watch (sum limit 0))) (tooDeep limit) = power limit 0
    rw [h 0 le_rfl]
    rfl
  | succ levels ih =>
    have hpower := ih fun below hle => h below (Nat.le_succ_of_le hle)
    rw [powerWith, hpower]
    show powerOf (atomOf (watch (sum limit (levels + 1)))) _ = power limit (levels + 1)
    rw [h (levels + 1) le_rfl]
    rfl

/-- Where the sums inside are left as they are, it is the sum itself that is watched. -/
theorem sumWith_eq (h : ∀ below < levels, watch (sum limit below) = sum limit below) :
    sumWith watch limit levels = watch (sum limit levels) := by
  cases levels with
  | zero => rfl
  | succ levels =>
    rw [sumWith, powerWith_eq fun below hle => h below (Nat.lt_succ_of_le hle)]
    rfl

theorem ofLexemesWith_eq (h : ∀ levels ≤ limit, watch (sum limit levels) = sum limit levels)
    (ls : List Lexeme) : ofLexemesWith watch limit ls = ofLexemes limit ls := by
  rw [ofLexemesWith, sumWith_eq fun below hlt => h below hlt.le, h limit le_rfl]
  rfl

end Watch

/-- Fails with `alarm` where the reader returns a tree deeper than `bound`. -/
def guarded (alarm : ParseError) (bound : Nat) (r : Reader R) : Reader R := fun scope ls => do
  let (e, rest) ← r scope ls
  if bound < e.depth then .error alarm else .ok (e, rest)

omit [Scalar R] in
/-- The alarm does not go off where every tree is within the bound. -/
theorem guarded_eq {r : Reader R} (h : Bounded most r) (alarm : ParseError) :
    guarded alarm most r = r := by
  funext scope ls
  cases hread : r scope ls with
  | error cause => simp only [guarded, hread]; rfl
  | ok p =>
    have hdepth : ¬most < p.1.depth := by
      rw [depth_eq_height]
      exact Nat.not_lt.2 (h hread)
    rw [guarded, hread]
    exact if_neg hdepth

theorem bounded_sum_of_le (hle : levels ≤ limit) :
    Bounded (limit * limit + limit - 1) (sum (R := R) limit levels) := by
  apply (bounded_sum limit levels).mono
  have hsquare := Nat.mul_le_mul hle hle
  omega

/-- No sum that is read under a limit has a tree deeper than a bound that depends on the limit alone. So
the alarm that a deeper tree would set off, inside the list or at its end, is never heard, whether the
list is accepted or refused. -/
theorem sums_bounded_while_read (limit : Nat) (ls : List Lexeme) :
    (∀ levels ≤ limit, ∀ scope ks (e : Expr R) rest, sum limit levels scope ks = .ok (e, rest) →
        e.depth ≤ limit * limit + limit - 1) ∧
      ∀ alarm, ofLexemesWith (R := R) (guarded alarm (limit * limit + limit - 1)) limit ls =
        ofLexemes limit ls := by
  refine ⟨fun levels hle scope ks e rest hread => ?_, fun alarm => ?_⟩
  · rw [depth_eq_height]
    exact bounded_sum_of_le hle hread
  · exact ofLexemesWith_eq (fun levels hle => guarded_eq (bounded_sum_of_le hle) alarm) ls

/-- Under the limit 2, `sin(x)^x*x+x` reaches the bound, and is refused. A lower bound would set off the
alarm. -/
theorem sums_bounded_while_read_two :
    let ls : List Lexeme := [keyword (.function .sin), lparen, letter 'x', rparen, operator .pow,
      letter 'x', operator .mul, letter 'x', operator .add, letter 'x']
    let e : Expr Float := .binary .add (.binary .mul (.binary .pow (.call .sin (.var 'x')) (.var 'x'))
      (.var 'x')) (.var 'x')
    (sum 2 2 [] ls = .ok (e, []) ∧ e.depth = 2 * 2 + 2 - 1 ∧ e.depth ≤ 2 * 2 + 2 - 1) ∧
      (∀ alarm, ofLexemesWith (R := Float) (guarded alarm (2 * 2 + 2 - 1)) 2 ls =
        .error (.nestingTooDeep 2)) ∧
      ∀ alarm, ofLexemesWith (R := Float) (guarded alarm 4) 2 ls = .error alarm := by
  intro ls e
  have hread : sum 2 2 [] ls = .ok (e, []) := by rfl
  have hdepth : e.depth = 2 * 2 + 2 - 1 := e.depth_eq_height
  have hbound := sums_bounded_while_read (R := Float) 2 ls
  refine ⟨⟨hread, hdepth, hbound.1 2 le_rfl [] ls e [] hread⟩, fun alarm => ?_, fun alarm => ?_⟩
  · rw [hbound.2 alarm, ofLexemes, hread]
    show (if 2 < e.depth then _ else _) = _
    rw [hdepth]
    rfl
  · have hinside : ∀ below < 2, guarded alarm 4 (sum (R := Float) 2 below) = sum 2 below := by
      intro below hlt
      apply guarded_eq
      apply (bounded_sum 2 below).mono
      have hsquare := Nat.mul_le_mul (Nat.le_of_lt_succ hlt) (Nat.le_of_lt_succ hlt)
      omega
    rw [ofLexemesWith, sumWith_eq hinside, guarded, hread]
    show ((if 4 < e.depth then _ else _) >>= _) = _
    rw [hdepth]
    rfl

end ComplexSeries.Expr
