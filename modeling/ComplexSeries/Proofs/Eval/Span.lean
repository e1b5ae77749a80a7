import ComplexSeries.Scalar.Double
import ComplexSeries.Proofs.Result
import ComplexSeries.Proofs.Eval.Grows

/-! Where an operand ends. The walk finds the end by taking the operand, the count by counting off
operands without a look at their meaning. The body of an aggregate is taken any number of times, even
none, but its end is always counted off. So wherever the walk comes to a value, both have come to the
same end, in any list of tokens. -/
namespace ComplexSeries

namespace Eval

section

variable {R α β : Type}

/-- Whatever the run returns, from any memory, is as `P` says. -/
def Run.Returns (t : Run R α) (P : α → Prop) : Prop :=
  ∀ memory a after, t.run.run memory = (.ok a, after) → P a

theorem Run.returns_pure {P : α → Prop} {a : α} (h : P a) : Run.Returns (pure a : Run R α) P := by
  intro memory b after hrun
  cases hrun
  exact h

theorem Run.returns_throw (P : α → Prop) (cause : EvalError) :
    Run.Returns (throw cause : Run R α) P := by
  intro memory a after hrun
  cases hrun

theorem Run.Returns.bind {t : Run R α} {f : α → Run R β} {P : α → Prop} {Q : β → Prop}
    (ht : t.Returns P) (hf : ∀ a, P a → (f a).Returns Q) : Run.Returns (t >>= f) Q := by
  intro memory b after hrun
  rw [Result.run_bind] at hrun
  rcases hfirst : t.run.run memory with ⟨cause | a, between⟩ <;> rw [hfirst] at hrun
  · cases hrun
  · exact hf a (ht memory a between hfirst) between b after hrun

/-- As far as only the last part of a chain matters. -/
theorem Run.returns_bind {t : Run R α} {f : α → Run R β} {Q : β → Prop}
    (hf : ∀ a, (f a).Returns Q) : Run.Returns (t >>= f) Q :=
  Run.Returns.bind (P := fun _ => True) (fun _ _ _ _ => trivial) fun a _ => hf a

end

variable {R : Type}

/-- Counting off `count` operands leaves `rest`. -/
def Leaves (count : Nat) (ts rest : List (Token R)) : Prop :=
  ∃ span, Token.split? count ts = some (span, rest)

theorem Leaves.add {count more : Nat} {ts rest after : List (Token R)} (h : Leaves count ts rest)
    (hmore : Leaves more rest after) : Leaves (count + more) ts after := by
  obtain ⟨span, hspan⟩ := h
  obtain ⟨next, hnext⟩ := hmore
  exact ⟨span ++ next, Token.split?_add hspan hnext⟩

theorem Leaves.cons {t : Token R} {ts rest : List (Token R)} (h : Leaves t.arity ts rest) :
    Leaves 1 (t :: ts) rest := by
  obtain ⟨span, hspan⟩ := h
  refine ⟨t :: span, ?_⟩
  rw [Token.split?_succ_cons, Nat.zero_add, hspan]
  rfl

theorem leaves_zero (ts : List (Token R)) : Leaves 0 ts ts := ⟨[], by rw [Token.split?]⟩

variable [Scalar R] {meaning : Interpretation R} {settings : Settings R} {walk : Walker R}

/-- The body is counted off, so it makes no difference whether it is ever evaluated. -/
theorem returns_walkAggregate (hwalk : ∀ env ts, (walk env ts).Returns fun p => Leaves 1 ts p.2)
    (a : Aggregate) (env : Env R) (ts : List (Token R)) :
    (walkAggregate settings walk a env ts).Returns fun p => Leaves 4 ts p.2 := by
  unfold walkAggregate
  refine (hwalk env ts).bind fun first hfirst => (hwalk env first.2).bind fun last hlast => ?_
  dsimp only
  split
  · exact Run.returns_throw _ _
  · exact Run.returns_throw _ _
  · next body index after hbody =>
    have hbody : Leaves 1 last.2 (.binder index :: after) := ⟨body, hbody⟩
    have hbinder : Leaves 1 (.binder index :: after) after := Leaves.cons (leaves_zero after)
    have hend : Leaves 4 ts after := ((hfirst.add hlast).add hbody).add hbinder
    cases a <;> exact Run.returns_bind fun _ => Run.returns_pure hend
  · exact Run.returns_throw _ _

theorem returns_step (hwalk : ∀ env ts, (walk env ts).Returns fun p => Leaves 1 ts p.2)
    (env : Env R) (ts : List (Token R)) :
    (step meaning settings walk env ts).Returns fun p => Leaves 1 ts p.2 := by
  unfold step
  split
  · exact Run.returns_throw _ _
  · exact Run.returns_pure (Leaves.cons (leaves_zero _))
  · split
    · exact Run.returns_pure (Leaves.cons (leaves_zero _))
    · exact Run.returns_throw _ _
  · exact Run.returns_throw _ _
  · next f rest =>
    exact (hwalk env rest).bind fun arg harg => Run.returns_pure (Leaves.cons harg)
  · next o rest =>
    refine (hwalk env rest).bind fun lhs hlhs => (hwalk env lhs.2).bind fun rhs hrhs => ?_
    exact Run.returns_pure (Leaves.cons (hlhs.add hrhs))
  · next rest =>
    refine (hwalk env rest).bind fun value hvalue => (hwalk env value.2).bind fun base hbase => ?_
    exact Run.returns_pure (Leaves.cons (hvalue.add hbase))
  · next a rest =>
    intro memory p after hrun
    exact Leaves.cons (returns_walkAggregate hwalk a env rest memory p after hrun)

theorem returns_walk (levels : Nat) (env : Env R) (ts : List (Token R)) :
    (Eval.walk meaning settings levels env ts).Returns fun p => Leaves 1 ts p.2 := by
  induction levels generalizing env ts with
  | zero => exact Run.returns_throw _ _
  | succ levels ih => exact returns_step ih env ts

end Eval

section

variable {R : Type} [Scalar R]

open Eval

omit [Scalar R] in
theorem Token.spanEnd?_of_leaves {ts rest : List (Token R)} {start : Nat}
    (h : Leaves 1 (ts.drop start) rest) :
    ∃ stop, spanEnd? ts start = some stop ∧ ts.drop stop = rest ∧ start < stop ∧
      stop ≤ ts.length := by
  obtain ⟨span, hspan⟩ := h
  have happend : span ++ rest = ts.drop start := append_of_split? hspan
  have hpos : 0 < span.length := length_pos_of_split? hspan
  have hlength : span.length + rest.length = ts.length - start := by
    rw [← List.length_append, happend, List.length_drop]
  refine ⟨start + span.length, ?_, ?_, by omega, by omega⟩
  · rw [spanEnd?, hspan]
    rfl
  · rw [← List.drop_drop, ← happend, List.drop_left]

/-- Wherever the walk takes a value from a list of tokens, well formed or not, it goes on where the
count finds the end of the operand; and the count finds the end of a tree wherever its tokens stand. -/
theorem spanEnd?_of_walk_and_tokens :
    (∀ (meaning : Interpretation R) (settings : Settings R) (levels : Nat) (env : Env R)
        (ts : List (Token R)) (start : Nat) (memory after : Integral.Memory R) (value : Complex R)
        (rest : List (Token R)),
      (walk meaning settings levels env (ts.drop start)).run.run memory =
          (.ok (value, rest), after) →
        ∃ stop, Token.spanEnd? ts start = some stop ∧ ts.drop stop = rest ∧ start < stop ∧
          stop ≤ ts.length) ∧
      ∀ (e : Expr R) (before after : List (Token R)),
        Token.spanEnd? (before ++ e.tokens ++ after) before.length =
          some (before.length + e.tokens.length) :=
  ⟨fun _ _ levels env _ _ memory after _ _ h =>
    Token.spanEnd?_of_leaves (returns_walk levels env _ memory _ after h),
    Token.spanEnd?_append_tokens⟩

/-- The sum is over nothing, so the stray binder in place of its body is counted but never met. -/
theorem spanEnd?_of_walk_and_tokens_stray :
    let ts : List (Token Float) := [.binder 'b', .operation (.aggregate .sum), .literal (.ofInt 5),
      .literal (.ofInt 3), .binder 'q', .binder 'k', .var 'y']
    (walk .standard (Settings.standard Float) 2 [] (ts.drop 1)).run.run [] =
        (.ok (.ofInt 0, [.var 'y']), []) ∧
      ∃ stop, Token.spanEnd? ts 1 = some stop ∧ ts.drop stop = [.var 'y'] ∧ 1 < stop ∧
        stop ≤ ts.length := by
  intro ts
  have hrun : (walk .standard (Settings.standard Float) 2 [] (ts.drop 1)).run.run [] =
      (.ok (.ofInt 0, [.var 'y']), []) := by rfl
  exact ⟨hrun, spanEnd?_of_walk_and_tokens.1 _ _ 2 [] ts 1 [] [] _ _ hrun⟩

end

end ComplexSeries
