import ComplexSeries.Scalar.Double
import ComplexSeries.Proofs.Expr.Grammar
import ComplexSeries.Proofs.Expr.Height
import ComplexSeries.Proofs.Expr.Scope

/-! The reader accepts what the grammar derives, and builds the tree of the derivation. What is read
is derived, by recursion on the levels that are left; what is derived is read, by induction on the
derivation, where enough levels are left. Since reading has one result, a list has one tree. -/
namespace ComplexSeries.Expr

open Lexeme

variable {R : Type} [Scalar R] {limit : Nat} {scope : List Char} {ks ls rest : List Lexeme}
  {e : Expr R}

theorem expect_eq_ok_iff {l : Lexeme} : expect l ls = .ok rest ↔ ls = l :: rest := by
  cases ls with
  | nil => simp [expect]
  | cons k ls =>
    rw [expect]
    split
    · next h => subst h; simp [eq_comm]
    · next h => simp [h]

theorem ofNumber_eq_ok_iff {digits : List Char} :
    ofNumber digits = .ok e ↔
      ∃ a, Scalar.read? digits = some a ∧ Scalar.isFinite a = true ∧ e = .const (.ofReal a) := by
  rw [ofNumber]
  cases Scalar.read? (R := R) digits with
  | none => simp
  | some a =>
    simp only [Option.some.injEq, exists_eq_left']
    by_cases ha : Scalar.isFinite a
    · simp [ha, eq_comm]
    · simp [ha]

theorem ofLetter_eq_ok_iff {c : Char} :
    ofLetter scope c = .ok e ↔
      isBound scope c = true ∧ e = .var c ∨
        isBound scope c = false ∧ c = 'i' ∧ e = .const .imaginaryUnit := by
  rw [ofLetter]
  cases isBound scope c with
  | true => simp [eq_comm]
  | false => by_cases hc : c = 'i' <;> simp [hc, eq_comm]

theorem exists_of_openCall {k : Keyword} {args : List (List Lexeme)}
    (h : openCall k ls = .ok (rest, args)) : ls = lparen :: rest := by
  unfold openCall at h
  split at h
  · split at h
    · cases h
    · split at h
      · cases h; rfl
      · cases h
  · cases h

theorem isBound_of_ofIndex {args : List (List Lexeme)} {index : Char}
    (h : ofIndex scope args = .ok index) : isBound scope index = false := by
  unfold ofIndex at h
  split at h
  · split at h
    · cases h
    · next hc => cases h; exact Bool.eq_false_iff.2 hc
  · cases h

/-! ### What is read is derived -/

/-- The lexemes up to `rest` are an expression of the level. -/
def Derives (l : Level) (scope : List Char) (ls rest : List Lexeme) (e : Expr R) : Prop :=
  ∃ ks, ls = ks ++ rest ∧ Nonempty (Derivation l scope ks e)

/-- What a reader takes is derived at its level. -/
def Sound (l : Level) (r : Reader R) : Prop :=
  ∀ ⦃scope ls e rest⦄, r scope ls = .ok (e, rest) → Derives l scope ls rest e

theorem sound_tooDeep (l : Level) (limit : Nat) : Sound l (tooDeep (R := R) limit) :=
  fun _ _ _ _ h => nomatch h

/-- One level of a chain: an operand begins it, and each link adds another. -/
structure Links (wide narrow : Level) (selects : Operator → Bool) : Prop where
  start {R : Type} [Scalar R] {scope : List Char} {ks : List Lexeme} {e : Expr R} :
    Derivation narrow scope ks e → Nonempty (Derivation wide scope ks e)
  link {R : Type} [Scalar R] {scope : List Char} {ks ls : List Lexeme} {a b : Expr R}
    {o : Operator} : selects o = true → Derivation wide scope ks a → Derivation narrow scope ls b →
      Nonempty (Derivation wide scope (ks ++ operator o :: ls) (.binary o a b))

theorem links_factor : Links .product .power isFactorOperator :=
  ⟨fun d => ⟨.product d⟩, fun h d d' => ⟨.factor h d d'⟩⟩

theorem links_term : Links .sum .product Operator.isSign :=
  ⟨fun d => ⟨.sum d⟩, fun h d d' => ⟨.term h d d'⟩⟩

section

variable {wide narrow : Level} {selects : Operator → Bool} {operand : Reader R}

theorem derives_of_chainFrom (hlinks : Links wide narrow selects) (hoperand : Sound narrow operand)
    {allowance : Nat} {lhs : Expr R} (d : Derivation wide scope ks lhs)
    (h : chainFrom limit selects operand allowance lhs scope ls = .ok (e, rest)) :
    Derives wide scope (ks ++ ls) rest e := by
  have stop {lhs : Expr R} {ks ls : List Lexeme} (d : Derivation wide scope ks lhs)
      (h : (.ok (lhs, ls) : Except ParseError _) = .ok (e, rest)) :
      Derives wide scope (ks ++ ls) rest e := by
    cases h
    exact ⟨ks, rfl, ⟨d⟩⟩
  induction allowance generalizing lhs ks ls with
  | zero =>
    unfold chainFrom at h
    split at h
    · split at h
      · cases h
      · exact stop d h
    · exact stop d h
  | succ allowance ih =>
    unfold chainFrom at h
    split at h
    · next o ls =>
      split at h
      · next ho =>
        simp only [Result.bind_eq_ok_iff, Prod.exists] at h
        obtain ⟨rhs, after, hrhs, h⟩ := h
        obtain ⟨js, rfl, ⟨d'⟩⟩ := hoperand hrhs
        obtain ⟨d''⟩ := hlinks.link ho d d'
        obtain ⟨is, his, hd⟩ := ih d'' h
        exact ⟨is, by rw [← his]; simp, hd⟩
      · exact stop d h
    · exact stop d h

theorem sound_chain (hlinks : Links wide narrow selects) (hoperand : Sound narrow operand)
    (limit allowance : Nat) : Sound wide (chain limit selects allowance operand) := by
  intro scope ls e rest h
  simp only [chain, Result.bind_eq_ok_iff, Prod.exists] at h
  obtain ⟨lhs, after, hlhs, h⟩ := h
  obtain ⟨js, rfl, ⟨d⟩⟩ := hoperand hlhs
  obtain ⟨d'⟩ := hlinks.start d
  exact derives_of_chainFrom hlinks hoperand d' h

end

theorem sound_sumOf {power : Reader R} (h : Sound .power power) (limit levels : Nat) :
    Sound .sum (sumOf limit levels power) :=
  sound_chain links_term (sound_chain links_factor h _ _) _ _

theorem sound_powerOf {atom exponent : Reader R} (hatom : Sound .atom atom)
    (hexponent : Sound .power exponent) : Sound .power (powerOf atom exponent) := by
  intro scope ls e rest h
  simp only [powerOf, Result.bind_eq_ok_iff, Prod.exists] at h
  obtain ⟨base, after, hbase, h⟩ := h
  obtain ⟨ks, rfl, ⟨d⟩⟩ := hatom hbase
  split at h
  · simp only [Result.bind_eq_ok_iff, Prod.exists] at h
    obtain ⟨power, after, hpower, h⟩ := h
    obtain ⟨js, rfl, ⟨d'⟩⟩ := hexponent hpower
    cases h
    exact ⟨_, by simp, ⟨.pow d d'⟩⟩
  · cases h
    exact ⟨ks, rfl, ⟨.power d⟩⟩

section

variable {sum : Reader R} (hsum : Sound .sum sum)
include hsum

theorem derives_of_functionOf {f : Function} (h : functionOf sum f scope ls = .ok (e, rest)) :
    Derives .atom scope (keyword (.function f) :: ls) rest e := by
  simp only [functionOf, Result.bind_eq_ok_iff, Prod.exists, expect_eq_ok_iff,
    Result.pure_eq_ok_iff, Prod.mk.injEq] at h
  obtain ⟨ls', args, hopen, arg, after, harg, after', rfl, rfl, rfl⟩ := h
  rw [exists_of_openCall hopen]
  obtain ⟨ks, rfl, ⟨d⟩⟩ := hsum harg
  exact ⟨_, by simp, ⟨.call f d⟩⟩

theorem derives_of_logOf (h : logOf sum scope ls = .ok (e, rest)) :
    Derives .atom scope (keyword .log :: ls) rest e := by
  simp only [logOf, Result.bind_eq_ok_iff, Prod.exists, expect_eq_ok_iff,
    Result.pure_eq_ok_iff, Prod.mk.injEq] at h
  obtain ⟨ls', args, hopen, value, l₁, hvalue, l₂, rfl, base, l₃, hbase, l₄, rfl, rfl, rfl⟩ := h
  rw [exists_of_openCall hopen]
  obtain ⟨ks, rfl, ⟨d⟩⟩ := hsum hvalue
  obtain ⟨js, rfl, ⟨d'⟩⟩ := hsum hbase
  exact ⟨_, by simp, ⟨.log d d'⟩⟩

theorem derives_of_aggregateOf {k : Aggregate} (h : aggregateOf sum k scope ls = .ok (e, rest)) :
    Derives .atom scope (keyword (.aggregate k) :: ls) rest e := by
  simp only [aggregateOf, Result.bind_eq_ok_iff, Prod.exists, expect_eq_ok_iff,
    Result.pure_eq_ok_iff, Prod.mk.injEq] at h
  obtain ⟨ls', args, hopen, lower, l₁, hlower, l₂, rfl, upper, l₃, hupper, l₄, rfl, index, hindex,
    body, l₅, hbody, l₆, rfl, l₇, rfl, l₈, rfl, rfl, rfl⟩ := h
  rw [exists_of_openCall hopen]
  obtain ⟨ks, rfl, ⟨d⟩⟩ := hsum hlower
  obtain ⟨js, rfl, ⟨d'⟩⟩ := hsum hupper
  obtain ⟨is, rfl, ⟨d''⟩⟩ := hsum hbody
  exact ⟨_, by simp, ⟨.aggregate k d d' (isBound_of_ofIndex hindex) d''⟩⟩

/-- An operand is told by its first lexeme. -/
theorem sound_atomOf : Sound .atom (atomOf sum) := by
  intro scope ls e rest h
  cases ls with
  | nil => cases h
  | cons l ls =>
    cases l with
    | number digits =>
      obtain ⟨e, hnumber, h⟩ := Result.map_eq_ok_iff.1 h
      obtain ⟨a, hread, hfinite, rfl⟩ := ofNumber_eq_ok_iff.1 hnumber
      cases h
      exact ⟨[number digits], rfl, ⟨.number hread hfinite⟩⟩
    | letter c =>
      obtain ⟨e, hletter, h⟩ := Result.map_eq_ok_iff.1 h
      cases h
      rcases ofLetter_eq_ok_iff.1 hletter with ⟨hc, rfl⟩ | ⟨hc, rfl, rfl⟩
      · exact ⟨[letter c], rfl, ⟨.bound hc⟩⟩
      · exact ⟨[letter 'i'], rfl, ⟨.unit hc⟩⟩
    | keyword k =>
      cases k with
      | constant c =>
        cases Except.ok.inj h
        exact ⟨[keyword (.constant c)], rfl, ⟨.constant c⟩⟩
      | function f => exact derives_of_functionOf hsum h
      | log => exact derives_of_logOf hsum h
      | aggregate a => exact derives_of_aggregateOf hsum h
    | lparen =>
      obtain ⟨⟨inner, after⟩, hinner, h⟩ := Result.bind_eq_ok_iff.1 h
      obtain ⟨after', hclose, h⟩ := Result.bind_eq_ok_iff.1 h
      cases h
      obtain rfl := expect_eq_ok_iff.1 hclose
      obtain ⟨ks, rfl, ⟨d⟩⟩ := hsum hinner
      exact ⟨_, by simp, ⟨.parens d⟩⟩
    | operator | rparen | separator | degree | percent => cases h

end

theorem power_eq (limit levels : Nat) : power (R := R) limit levels =
    powerOf (atomOf (sum limit levels)) (levels.casesOn (tooDeep limit) (power limit)) := by
  cases levels <;> rfl

theorem sound_power (limit levels : Nat) : Sound .power (power (R := R) limit levels) := by
  induction levels with
  | zero => exact sound_powerOf (sound_atomOf (sound_tooDeep _ _)) (sound_tooDeep _ _)
  | succ levels ih => exact sound_powerOf (sound_atomOf (sound_sumOf ih _ _)) ih

theorem sound_sum (limit levels : Nat) : Sound .sum (sum (R := R) limit levels) := by
  cases levels with
  | zero => exact sound_tooDeep _ _
  | succ levels => exact sound_sumOf (sound_power limit levels) _ _

/-! ### What is derived is read -/

/-- An expression of the level ends here: no operator that binds tighter follows. -/
def Level.Ends (l : Level) (ls : List Lexeme) : Prop :=
  ∀ o, ls.head? = some (operator o) →
    match l with
    | .atom => True
    | .power | .product => o ≠ .pow
    | .sum => o ≠ .pow ∧ isFactorOperator o = false

/-- No operator follows at all. -/
def Stops (ls : List Lexeme) : Prop := ∀ o, ls.head? ≠ some (operator o)

theorem Stops.ends (h : Stops ls) (l : Level) : l.Ends ls := fun o ho => absurd ho (h o)

theorem stops_nil : Stops [] := by simp [Stops]

theorem stops_rparen (ls : List Lexeme) : Stops (rparen :: ls) := by simp [Stops]

theorem stops_separator (ls : List Lexeme) : Stops (separator :: ls) := by simp [Stops]

theorem ends_product_operator {o : Operator} (ho : isFactorOperator o = true)
    (ls : List Lexeme) : Level.product.Ends (operator o :: ls) := by
  intro o' h
  cases h
  rintro rfl
  cases ho

theorem ends_sum_operator {o : Operator} (ho : o.isSign = true) (ls : List Lexeme) :
    Level.sum.Ends (operator o :: ls) := by
  intro o' h
  cases h
  cases o <;> simp_all [Operator.isSign, isFactorOperator]

section

omit [Scalar R]

variable {selects : Operator → Bool} {operand : Reader R} {allowance : Nat} {lhs rhs : Expr R}

theorem chainFrom_eq_ok (h : ∀ o, ls.head? = some (operator o) → selects o = false) :
    chainFrom limit selects operand allowance lhs scope ls = .ok (lhs, ls) := by
  unfold chainFrom
  split
  · next o rest => rw [h o rfl]; rfl
  · rfl

theorem chainFrom_link {o : Operator} (ho : selects o = true)
    (h : operand scope ls = .ok (rhs, rest)) :
    chainFrom limit selects operand (allowance + 1) lhs scope (operator o :: ls) =
      chainFrom limit selects operand allowance (.binary o lhs rhs) scope rest := by
  rw [chainFrom, if_pos ho]
  dsimp only
  rw [h]
  rfl

theorem chain_eq (h : operand scope ls = .ok (lhs, rest)) :
    chain limit selects allowance operand scope ls =
      chainFrom limit selects operand allowance lhs scope rest := by
  rw [chain, h]
  rfl

theorem powerOf_eq_ok {atom exponent : Reader R} (h : atom scope ls = .ok (e, rest))
    (hends : Level.power.Ends rest) : powerOf atom exponent scope ls = .ok (e, rest) := by
  rw [powerOf, h]
  cases rest with
  | nil => rfl
  | cons l rest =>
    cases l with
    | operator o =>
      cases o with
      | pow => exact absurd rfl (hends .pow rfl)
      | _ => rfl
    | _ => rfl

theorem powerOf_pow {atom exponent : Reader R} {a b : Expr R}
    (hatom : atom scope ls = .ok (a, operator .pow :: ks))
    (hexponent : exponent scope ks = .ok (b, rest)) :
    powerOf atom exponent scope ls = .ok (.binary .pow a b, rest) := by
  rw [powerOf, hatom]
  change (exponent scope ks >>= _) = _
  rw [hexponent]
  rfl

end

section

omit [Scalar R]

variable {sum : Reader R}

/-- The reader takes the whole list wherever no operator follows it. -/
def Takes (sum : Reader R) (scope : List Char) (ks : List Lexeme) (e : Expr R) : Prop :=
  ∀ rest, Stops rest → sum scope (ks ++ rest) = .ok (e, rest)

theorem openCall_lparen {k : Keyword} {args : List (List Lexeme)} (h : arguments? ls = some args)
    (harity : args.length = k.arity) : openCall k (lparen :: ls) = .ok (ls, args) := by
  rw [openCall, h]
  exact if_pos harity

theorem ofIndex_eq_ok {index : Char} (h : isBound scope index = false)
    (args : List (List Lexeme)) : ofIndex scope (args ++ [[letter index]]) = .ok index := by
  rw [ofIndex, List.getLast?_append, List.getLast?_singleton]
  simp [h]

theorem functionOf_eq_ok {f : Function} {a : Expr R} (ha : Takes sum scope ks a)
    (hks : Joins 0 ks) (rest : List Lexeme) :
    functionOf sum f scope (lparen :: (ks ++ rparen :: rest)) = .ok (.call f a, rest) := by
  have hargs : arguments? (ks ++ rparen :: rest) = some [ks] := hks.arguments?_close rest
  have hopen : openCall (.function f) _ = _ := openCall_lparen hargs rfl
  simp only [functionOf, Result.bind_eq_ok_iff, Prod.exists, expect_eq_ok_iff,
    Result.pure_eq_ok_iff, Prod.mk.injEq]
  exact ⟨_, _, hopen, a, _, ha _ (stops_rparen rest), rest, rfl, rfl, rfl⟩

theorem logOf_eq_ok {js : List Lexeme} {a b : Expr R} (ha : Takes sum scope ks a)
    (hb : Takes sum scope js b) (hks : Joins 0 ks) (hjs : Joins 0 js) (rest : List Lexeme) :
    logOf sum scope (lparen :: (ks ++ separator :: (js ++ rparen :: rest))) =
      .ok (.log a b, rest) := by
  have hargs : arguments? (ks ++ separator :: (js ++ rparen :: rest)) = some [ks, js] := by
    rw [hks.arguments?_separator, hjs.arguments?_close]
    rfl
  have hopen : openCall .log _ = _ := openCall_lparen hargs rfl
  simp only [logOf, Result.bind_eq_ok_iff, Prod.exists, expect_eq_ok_iff,
    Result.pure_eq_ok_iff, Prod.mk.injEq]
  exact ⟨_, _, hopen, a, _, ha _ (stops_separator _), _, rfl, b, _, hb _ (stops_rparen rest), rest,
    rfl, rfl, rfl⟩

/-- The search for the index ends where the reader of the body does. -/
theorem aggregateOf_eq_ok {k : Aggregate} {js is : List Lexeme} {lower upper body : Expr R}
    {index : Char} (hlower : Takes sum scope ks lower) (hupper : Takes sum scope js upper)
    (hindex : isBound scope index = false) (hbody : Takes sum (index :: scope) is body)
    (hks : Joins 0 ks) (hjs : Joins 0 js) (his : Joins 0 is) (rest : List Lexeme) :
    aggregateOf sum k scope (lparen :: (ks ++ separator :: (js ++ separator ::
      (is ++ separator :: letter index :: rparen :: rest)))) =
      .ok (.aggregate k lower upper body index, rest) := by
  have hlast : arguments? (letter index :: rparen :: rest) = some [[letter index]] :=
    (joins_nil.cons rfl : Joins 0 [letter index]).arguments?_close rest
  have hargs : arguments? (ks ++ separator :: (js ++ separator ::
      (is ++ separator :: letter index :: rparen :: rest))) = some [ks, js, is, [letter index]] := by
    rw [hks.arguments?_separator, hjs.arguments?_separator, his.arguments?_separator, hlast]
    rfl
  have hopen : openCall (.aggregate k) _ = _ := openCall_lparen hargs rfl
  simp only [aggregateOf, Result.bind_eq_ok_iff, Prod.exists, expect_eq_ok_iff,
    Result.pure_eq_ok_iff, Prod.mk.injEq]
  exact ⟨_, _, hopen, lower, _, hlower _ (stops_separator _), _, rfl, upper, _,
    hupper _ (stops_separator _), _, rfl, index, ofIndex_eq_ok hindex [ks, js, is], body, _,
    hbody _ (stops_separator _), _, rfl, _, rfl, rest, rfl, rfl, rfl⟩

end

/-- How the readers take a derived list where `levels` are left. Sums and products may go on after
it, with an allowance that is short by what has been `used`. -/
def Reads (limit levels used : Nat) :
    Level → List Char → List Lexeme → Expr R → Prop
  | .atom, scope, ks, e =>
    ∀ rest, atomOf (sum limit levels) scope (ks ++ rest) = .ok (e, rest)
  | .power, scope, ks, e =>
    ∀ rest, Level.power.Ends rest → power limit levels scope (ks ++ rest) = .ok (e, rest)
  | .product, scope, ks, e =>
    ∃ left, levels ≤ left + used ∧ ∀ rest, Level.product.Ends rest →
      chain limit isFactorOperator levels (power limit levels) scope (ks ++ rest) =
        chainFrom limit isFactorOperator (power limit levels) left e scope rest
  | .sum, scope, ks, e =>
    ∃ left, levels ≤ left + used ∧ ∀ rest, Level.sum.Ends rest →
      sumOf limit levels (power limit levels) scope (ks ++ rest) =
        chainFrom limit Operator.isSign
          (chain limit isFactorOperator levels (power limit levels)) left e scope rest

variable {levels used : Nat}

theorem Reads.product (h : Reads limit levels used .product scope ks e)
    (hends : Level.sum.Ends rest) :
    chain limit isFactorOperator levels (power limit levels) scope (ks ++ rest) =
      .ok (e, rest) := by
  obtain ⟨left, -, hread⟩ := h
  rw [hread rest fun o ho => (hends o ho).1]
  exact chainFrom_eq_ok fun o ho => (hends o ho).2

theorem Reads.sum (h : Reads limit levels used .sum scope ks e) :
    Takes (sum limit (levels + 1)) scope ks e := by
  intro rest hstops
  obtain ⟨left, -, hread⟩ := h
  exact (hread rest (hstops.ends _)).trans (chainFrom_eq_ok fun o ho => absurd ho (hstops o))

/-- A bracket, an argument or an exponent leaves a level less for what is in it. -/
theorem exists_below {n levels : Nat} (h : n + 1 ≤ levels) :
    ∃ below, levels = below + 1 ∧ n ≤ below :=
  ⟨levels - 1, by omega, by omega⟩

/-- Every lexeme is read, and the tree is no higher than the limit. -/
theorem ofLexemes_of_sum (hne : ls ≠ []) (h : sum limit limit [] ls = .ok (e, []))
    (hheight : e.height ≤ limit) : ofLexemes limit ls = .ok e := by
  rw [ofLexemes, if_neg (by simp [hne]), h]
  exact if_neg (Nat.not_lt.2 (e.depth_eq_height ▸ hheight))

theorem read_of_scan {s : String} (hscan : scan s.toList = .ok ls)
    (h : ofLexemes limit ls = .ok e) : read limit s = .ok e :=
  Result.bind_eq_ok_iff.2 ⟨ls, hscan, h⟩

namespace Derivation

variable {l : Level}

theorem reads (d : Derivation l scope ks e) (limit : Nat) {levels : Nat} (h : d.levels ≤ levels) :
    Reads limit levels d.levels l scope ks e := by
  induction d generalizing levels with
  | @number scope digits a hread hfinite =>
    intro rest
    change (ofNumber digits).map (·, rest) = _
    rw [ofNumber_eq_ok_iff.2 ⟨_, hread, hfinite, rfl⟩]
    rfl
  | constant c => exact fun rest => rfl
  | @bound scope c hc =>
    intro rest
    change (ofLetter scope c).map (·, rest) = _
    rw [ofLetter_eq_ok_iff.2 (.inl ⟨hc, rfl⟩)]
    rfl
  | @unit scope hi =>
    intro rest
    change (ofLetter scope 'i').map (·, rest) = _
    rw [ofLetter_eq_ok_iff.2 (.inr ⟨hi, rfl, rfl⟩)]
    rfl
  | @parens scope ks e d ih =>
    intro rest
    obtain ⟨below, rfl, hd⟩ := exists_below h
    have he : Takes (Expr.sum limit (below + 1)) scope ks e := (ih hd).sum
    rw [List.cons_append, List.cons_append, List.append_assoc, List.singleton_append]
    change (Expr.sum limit (below + 1) scope (ks ++ rparen :: rest) >>= _) = _
    rw [he _ (stops_rparen rest)]
    rfl
  | @call scope ks a f d ih =>
    intro rest
    obtain ⟨below, rfl, hd⟩ := exists_below h
    have ha : Takes (Expr.sum limit (below + 1)) scope ks a := (ih hd).sum
    simp only [List.cons_append, List.append_assoc, List.nil_append]
    exact functionOf_eq_ok ha (d.joins 0) rest
  | @log scope ks js a b d d' ih ih' =>
    intro rest
    obtain ⟨below, rfl, hle⟩ := exists_below h
    obtain ⟨hd, hd'⟩ : d.levels ≤ below ∧ d'.levels ≤ below := Nat.max_le.1 hle
    have ha : Takes (Expr.sum limit (below + 1)) scope ks a := (ih hd).sum
    have hb : Takes (Expr.sum limit (below + 1)) scope js b := (ih' hd').sum
    simp only [List.cons_append, List.append_assoc, List.nil_append]
    exact logOf_eq_ok ha hb (d.joins 0) (d'.joins 0) rest
  | @aggregate scope ks js is lower upper body index k d d' hindex d'' ih ih' ih'' =>
    intro rest
    obtain ⟨below, rfl, hle⟩ := exists_below h
    obtain ⟨hd, hd', hd''⟩ : d.levels ≤ below ∧ d'.levels ≤ below ∧ d''.levels ≤ below := by
      simpa only [Nat.max_le] using hle
    have hlower : Takes (Expr.sum limit (below + 1)) scope ks lower := (ih hd).sum
    have hupper : Takes (Expr.sum limit (below + 1)) scope js upper := (ih' hd').sum
    have hbody : Takes (Expr.sum limit (below + 1)) (index :: scope) is body := (ih'' hd'').sum
    simp only [List.cons_append, List.append_assoc, List.nil_append]
    exact aggregateOf_eq_ok hlower hupper hindex hbody (d.joins 0) (d'.joins 0) (d''.joins 0) rest
  | power d ih =>
    intro rest hends
    rw [power_eq]
    exact powerOf_eq_ok (ih h rest) hends
  | @pow scope ks js a b d d' ih ih' =>
    intro rest hends
    obtain ⟨hd, hlt⟩ : d.levels ≤ levels ∧ d'.levels + 1 ≤ levels := Nat.max_le.1 h
    obtain ⟨below, rfl, hd'⟩ := exists_below hlt
    have hbase := ih hd (operator .pow :: (js ++ rest))
    have hexponent : Expr.power limit below scope (js ++ rest) = .ok (b, rest) := ih' hd' rest hends
    rw [List.append_assoc, List.cons_append]
    exact powerOf_pow hbase hexponent
  | product d ih =>
    exact ⟨levels, Nat.le_add_right _ _, fun rest hends => chain_eq (ih h rest hends)⟩
  | @factor scope ks js a b o ho d d' ih ih' =>
    obtain ⟨hlt, hd'⟩ : d.levels + 1 ≤ levels ∧ d'.levels ≤ levels := Nat.max_le.1 h
    obtain ⟨left, hleft, hread⟩ := ih (Nat.le_of_succ_le hlt)
    -- one of the links that are left is spent on this operator
    obtain ⟨left, rfl, -⟩ : ∃ below, left = below + 1 ∧ 0 ≤ below := exists_below (by omega)
    refine ⟨left, by simp only [Derivation.levels]; omega, fun rest hends => ?_⟩
    rw [List.append_assoc, List.cons_append, hread _ (ends_product_operator ho _)]
    exact chainFrom_link ho (ih' hd' rest hends)
  | sum d ih =>
    exact ⟨levels, Nat.le_add_right _ _, fun rest hends => chain_eq ((ih h).product hends)⟩
  | @term scope ks js a b o ho d d' ih ih' =>
    obtain ⟨hlt, hd'⟩ : d.levels + 1 ≤ levels ∧ d'.levels ≤ levels := Nat.max_le.1 h
    obtain ⟨left, hleft, hread⟩ := ih (Nat.le_of_succ_le hlt)
    obtain ⟨left, rfl, -⟩ : ∃ below, left = below + 1 ∧ 0 ≤ below := exists_below (by omega)
    refine ⟨left, by simp only [Derivation.levels]; omega, fun rest hends => ?_⟩
    rw [List.append_assoc, List.cons_append, hread _ (ends_sum_operator ho _)]
    exact chainFrom_link ho ((ih' hd').product hends)

theorem ofLexemes_eq (d : Derivation .sum [] ls e) {limit : Nat} (hlevels : d.levels < limit)
    (hdepth : e.depth ≤ limit) : ofLexemes limit ls = .ok e := by
  obtain ⟨below, rfl, hle⟩ := exists_below hlevels
  have hread : Expr.sum (below + 1) (below + 1) [] (ls ++ []) = .ok (e, []) :=
    (d.reads (below + 1) hle).sum [] stops_nil
  rw [List.append_nil] at hread
  exact ofLexemes_of_sum d.ne_nil hread (e.depth_eq_height ▸ hdepth)

end Derivation

theorem exists_derivation_of_ofLexemes (h : ofLexemes limit ls = .ok e) :
    Nonempty (Derivation .sum [] ls e) := by
  unfold ofLexemes at h
  split at h
  · cases h
  · simp only [Result.bind_eq_ok_iff, Prod.exists] at h
    obtain ⟨e', rest, hsum, h⟩ := h
    obtain ⟨ks, rfl, d⟩ := sound_sum limit limit hsum
    split at h
    · cases h
    · split at h
      · cases h
      · cases h
        rwa [List.append_nil]

/-- A list of lexemes is read as a tree, given levels enough, if and only if the tree is one it
derives; and it derives one tree at most. -/
theorem exists_ofLexemes_eq_ok_iff_derivation (ls : List Lexeme) :
    (∀ e : Expr R, (∃ limit, ofLexemes limit ls = .ok e) ↔ Nonempty (Derivation .sum [] ls e)) ∧
      ∀ e e' : Expr R, Nonempty (Derivation .sum [] ls e) → Nonempty (Derivation .sum [] ls e') →
        e = e' := by
  refine ⟨fun e => ⟨fun ⟨_, h⟩ => exists_derivation_of_ofLexemes h, fun ⟨d⟩ => ?_⟩,
    fun e e' ⟨d⟩ ⟨d'⟩ => ?_⟩
  · exact ⟨max (d.levels + 1) e.depth, d.ofLexemes_eq (by omega) (by omega)⟩
  · let limit := max (max (d.levels + 1) e.depth) (max (d'.levels + 1) e'.depth)
    have h : ofLexemes limit ls = .ok e := d.ofLexemes_eq (by omega) (by omega)
    have h' : ofLexemes limit ls = .ok e' := d'.ofLexemes_eq (by omega) (by omega)
    exact Except.ok.inj (h.symm.trans h')

/-- The bounds of `sum(i;i;2*i^i^n;i)` read `i` as the imaginary unit, the body as its index. -/
theorem exists_ofLexemes_eq_ok_iff_derivation_index :
    let bounds : List Lexeme := [letter 'i', separator, letter 'i', separator]
    let body : List Lexeme := [number ['2'], operator .mul, letter 'i', operator .pow, letter 'i',
      operator .pow, letter 'n']
    let ls := keyword (.aggregate .sum) :: lparen :: (bounds ++ body) ++
      [separator, letter 'i', rparen]
    let power : Expr Float := .binary .pow (.var 'i') (.binary .pow (.var 'i') (.var 'n'))
    let e : Expr Float := .aggregate .sum (.const .imaginaryUnit) (.const .imaginaryUnit)
      (.binary .mul (.const (.ofReal 2)) power) 'i'
    Nonempty (Derivation .sum [] ls e) ∧ ∀ e', Nonempty (Derivation .sum [] ls e') → e = e' := by
  intro bounds body ls power e
  have h : ofLexemes 5 ls = .ok e := ofLexemes_of_sum (List.cons_ne_nil _ _) rfl (by decide)
  have hd := ((exists_ofLexemes_eq_ok_iff_derivation ls).1 e).1 ⟨5, h⟩
  exact ⟨hd, fun e' hd' => (exists_ofLexemes_eq_ok_iff_derivation ls).2 e e' hd hd'⟩

end ComplexSeries.Expr
