import Mathlib.Data.Int.Notation
import Mathlib.Data.List.Basic
import ComplexSeries.IndexRange
import ComplexSeries.Scalar.Double
import ComplexSeries.Proofs.Result

/-! Which terms of a sum or product are run. A term may fail and may change a state, so it matters
how often it is run, and in what order: once for each index of the range, in ascending order, until
one fails. A term that keeps a list of its calls in the state is one of those considered here, so
nothing else is run either. -/
namespace ComplexSeries.IndexRange

variable {R ε σ α : Type} {term : ℤ → ExceptT ε (StateM σ) α}

/-- Run for the indices of the list, one after the other and each in the state that the one before
has left, the term has the values of the list. -/
inductive Calls (term : ℤ → ExceptT ε (StateM σ) α) : σ → List ℤ → List α → σ → Prop
  | nil {s : σ} : Calls term s [] [] s
  | cons {s next after : σ} {k : ℤ} {ks : List ℤ} {value : α} {values : List α} :
      (term k).run.run s = (.ok value, next) → Calls term next ks values after →
      Calls term s (k :: ks) (value :: values) after

/-- As many indices as are counted, from `k` on. -/
def indicesFrom : (count : ℕ) → (k : ℤ) → List ℤ
  | 0, _ => []
  | count + 1, k => k :: indicesFrom count (k + 1)

/-- The indices from the first to the last. -/
def indices (first last : ℤ) : List ℤ := indicesFrom (last - first + 1).toNat first

/-! ### Indices -/

theorem mem_indicesFrom {count : ℕ} {j k : ℤ} :
    j ∈ indicesFrom count k ↔ k ≤ j ∧ j < k + count := by
  induction count generalizing k with
  | zero => simp [indicesFrom]
  | succ count ih =>
    rw [indicesFrom, List.mem_cons, ih]
    omega

theorem pairwise_indicesFrom (count : ℕ) (k : ℤ) : (indicesFrom count k).Pairwise (· < ·) := by
  induction count generalizing k with
  | zero => exact .nil
  | succ count ih =>
    refine .cons (fun j hj => ?_) (ih (k + 1))
    have := (mem_indicesFrom.1 hj).1
    omega

theorem mem_indices {first last k : ℤ} : k ∈ indices first last ↔ first ≤ k ∧ k ≤ last := by
  rw [indices, mem_indicesFrom]
  omega

/-- Every bound of a range that is not empty is an index. -/
theorem limits_of_between [Scalar R] {lower upper : Complex R} {first last : ℤ}
    (h : between lower upper = .inclusive first last) :
    (-Complex.indexLimit ≤ first ∧ first < Complex.indexLimit) ∧
      (-Complex.indexLimit ≤ last ∧ last < Complex.indexLimit) := by
  have hindex {z : Complex R} {k : ℤ} (hk : z.integer? = some k) :
      -Complex.indexLimit ≤ k ∧ k < Complex.indexLimit := by
    unfold Complex.integer? at hk
    split at hk
    · obtain ⟨n, -, hn⟩ := Option.bind_eq_some_iff.1 hk
      unfold Complex.indexOf? at hn
      split at hn
      · next hlimits =>
        simp only [Bool.and_eq_true, decide_eq_true_eq] at hlimits
        have hpos : 0 < Complex.indexLimit := by decide
        rw [Option.some.injEq] at hn
        omega
      · cases hn
    · cases hk
  unfold between at h
  split at h
  · split at h
    · cases h
    · split at h
      · next hfirst hlast =>
        cases h
        exact ⟨hindex hfirst, hindex hlast⟩
      · cases h
  · cases h

/-! ### Runs -/

/-- Either the term has a value for every index, or there is a first one for which it fails. -/
theorem exists_calls (term : ℤ → ExceptT ε (StateM σ) α) (ks : List ℤ) (s : σ) :
    (∃ values after, Calls term s ks values after) ∨
      ∃ called k rest values reached cause after, ks = called ++ k :: rest ∧
        Calls term s called values reached ∧ (term k).run.run reached = (.error cause, after) := by
  induction ks generalizing s with
  | nil => exact .inl ⟨[], s, .nil⟩
  | cons k ks ih =>
    rcases hk : (term k).run.run s with ⟨cause | value, next⟩
    · exact .inr ⟨[], k, ks, [], s, cause, next, rfl, .nil, hk⟩
    · rcases ih next with ⟨values, after, hcalls⟩ |
        ⟨called, j, rest, values, reached, cause, after, rfl, hcalls, hfails⟩
      · exact .inl ⟨value :: values, after, .cons hk hcalls⟩
      · exact .inr ⟨k :: called, j, rest, value :: values, reached, cause, after, rfl,
          .cons hk hcalls, hfails⟩

section

variable {term : ℤ → ExceptT ε (StateM σ) (Complex R)} {combine : Complex R → Complex R → Complex R}
  {count : ℕ} {k : ℤ} {s after : σ} {values : List (Complex R)}

theorem run_foldFrom_of_calls (h : Calls term s (indicesFrom count k) values after)
    (total : Complex R) :
    (foldFrom combine term count k total).run.run s =
      (.ok (values.foldl combine total), after) := by
  induction count generalizing k s values total with
  | zero => cases h; rfl
  | succ count ih =>
    cases h with
    | cons hk hrest =>
      rw [foldFrom, Result.run_bind, hk]
      exact ih hrest _

theorem run_foldFrom_of_fails {called rest : List ℤ} {j : ℤ} {reached : σ} {cause : ε}
    (hks : indicesFrom count k = called ++ j :: rest) (h : Calls term s called values reached)
    (hfails : (term j).run.run reached = (.error cause, after)) (total : Complex R) :
    (foldFrom combine term count k total).run.run s = (.error cause, after) := by
  induction count generalizing called k s values total with
  | zero => simp [indicesFrom] at hks
  | succ count ih =>
    rw [foldFrom, Result.run_bind]
    cases h with
    | nil =>
      obtain ⟨rfl, -⟩ := List.cons.inj hks
      rw [hfails]
    | cons hk hrest =>
      obtain ⟨rfl, htail⟩ := List.cons.inj hks
      rw [hk]
      exact ih htail hrest _

end

/-- The terms of an inclusive range are run for its indices in ascending order. If all of them have
values, these are added, or multiplied, from the first to the last. If one fails, no other is run
after it, and its cause is the answer. For an empty or invalid range nothing is run. -/
theorem sum_and_product_visit [Scalar R] (lower upper : Complex R)
    (term : ℤ → ExceptT ε (StateM σ) (Complex R)) (s : σ) :
    (∀ first last, between lower upper = .inclusive first last →
      (-Complex.indexLimit ≤ first ∧ last < Complex.indexLimit) ∧
      ((indices first last).Pairwise (· < ·) ∧
        ∀ k, k ∈ indices first last ↔ first ≤ k ∧ k ≤ last) ∧
      ((∃ values after, Calls term s (indices first last) values after ∧
          (sum lower upper term).run.run s = (.ok (values.foldl (· + ·) (.ofInt 0)), after) ∧
          (product lower upper term).run.run s = (.ok (values.foldl (· * ·) (.ofInt 1)), after)) ∨
        ∃ called k rest values reached cause after, indices first last = called ++ k :: rest ∧
          Calls term s called values reached ∧
          (term k).run.run reached = (.error cause, after) ∧
          (sum lower upper term).run.run s = (.error cause, after) ∧
          (product lower upper term).run.run s = (.error cause, after))) ∧
    (between lower upper = .empty →
      sum lower upper term = pure (.ofInt 0) ∧ product lower upper term = pure (.ofInt 1)) ∧
    (between lower upper = .invalid →
      sum lower upper term = pure .undefined ∧ product lower upper term = pure .undefined) := by
  refine ⟨fun first last h => ?_, fun h => ?_, fun h => ?_⟩
  · obtain ⟨⟨hfirst, -⟩, -, hlast⟩ := limits_of_between h
    refine ⟨⟨hfirst, hlast⟩, ⟨pairwise_indicesFrom _ _, fun k => mem_indices⟩, ?_⟩
    rw [sum, product, h]
    rcases exists_calls term (indices first last) s with ⟨values, after, hcalls⟩ |
      ⟨called, k, rest, values, reached, cause, after, hks, hcalls, hfails⟩
    · exact .inl ⟨values, after, hcalls, run_foldFrom_of_calls hcalls _,
        run_foldFrom_of_calls hcalls _⟩
    · exact .inr ⟨called, k, rest, values, reached, cause, after, hks, hcalls, hfails,
        run_foldFrom_of_fails hks hcalls hfails _, run_foldFrom_of_fails hks hcalls hfails _⟩
  · rw [sum, product, h]
    exact ⟨rfl, rfl⟩
  · rw [sum, product, h]
    exact ⟨rfl, rfl⟩

/-- A term that notes its calls and fails at three, from one to four; and the last index of all. -/
theorem sum_and_product_visit_noted :
    let one : Complex Float := .ofReal 1
    let four : Complex Float := .ofReal 4
    let limit : Complex Float := .ofReal 9223372036854775808
    let last : ℤ := 9223372036854775807
    let term : ℤ → ExceptT String (StateM (List ℤ)) (Complex Float) := fun k => do
      modify (· ++ [k])
      if k = 3 then throw "three" else return .ofInt k
    between one four = .inclusive 1 4 ∧
      (sum one four term).run.run [] = (.error "three", [1, 2, 3]) ∧
      (∃ called k rest values reached after, indices 1 4 = called ++ k :: rest ∧
        Calls term [] called values reached ∧
        (term k).run.run reached = (.error "three", after)) ∧
      between four one = .empty ∧ product four one term = pure (.ofInt 1) ∧
      between limit limit = .inclusive last last ∧ ∃ values, Calls term [] [last] values [last] ∧
        (product limit limit term).run.run [] =
          (.ok (values.foldl (· * ·) (.ofInt 1)), [last]) := by
  intro one four limit last term
  have hrange : between one four = .inclusive 1 4 := by decide +kernel
  have hempty : between four one = .empty := by decide +kernel
  have hlimit : between limit limit = .inclusive last last := by decide +kernel
  have hsum : (sum one four term).run.run [] = (.error "three", [1, 2, 3]) := by
    rw [sum, hrange]
    rfl
  have hproduct := ((sum_and_product_visit four one term []).2.1 hempty).2
  refine ⟨hrange, hsum, ?_, hempty, hproduct, hlimit, ?_⟩
  · rcases ((sum_and_product_visit one four term []).1 1 4 hrange).2.2 with
      ⟨values, after, -, hok, -⟩ |
      ⟨called, k, rest, values, reached, cause, after, hks, hcalls, hfails, herror, -⟩
    · cases hsum.symm.trans hok
    · cases hsum.symm.trans herror
      exact ⟨called, k, rest, values, reached, _, hks, hcalls, hfails⟩
  · have hproduct : (product limit limit term).run.run [] =
        (.ok (.ofInt 1 * .ofInt last), [last]) := by
      rw [product, hlimit]
      rfl
    rcases ((sum_and_product_visit limit limit term []).1 _ _ hlimit).2.2 with
      ⟨values, after, hcalls, -, hok⟩ |
      ⟨called, k, rest, values, reached, cause, after, hks, hcalls, hfails, -, herror⟩
    · obtain ⟨-, rfl⟩ := Prod.mk.inj (hproduct.symm.trans hok)
      exact ⟨values, hcalls, hok⟩
    · cases hproduct.symm.trans herror

end ComplexSeries.IndexRange
