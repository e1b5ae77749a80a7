import ComplexSeries.Scalar.Double
import ComplexSeries.Evaluator
import ComplexSeries.Proofs.Result
import ComplexSeries.Proofs.Eval.Grows

/-! An evaluator that is kept between calls answers as a new one does. Reading an operand does to the
memory what the walk does, and every way out of it, also out of the middle of a sum, a product or an
integral, leaves the depth and the bound variables as they were. So the next call begins as the first
one did. -/
namespace ComplexSeries

open Eval (Env Interpretation Run Walker)
open Integral (Memory Request Plan)

namespace Evaluator

variable {R α β : Type} {env : Env R} {depth : Nat}

theorem Call.run_thenAlways (t : Call R α) (f : Evaluator R → Evaluator R) (e : Evaluator R) :
    (t.thenAlways f).run.run e = ((t.run.run e).1, f (t.run.run e).2) := rfl

/-- Too far inside, the level that was counted is given back at once. -/
theorem Call.run_inside (limit : Nat) (t : Call R α) (e : Evaluator R) :
    (t.inside limit).run.run e =
      if limit ≤ e.depth then (.error (.depthExceeded limit), e.enter.leave)
      else (t.thenAlways leave).run.run e.enter := by
  have hchange : (change enter).run.run e = (.ok ⟨⟩, e.enter) := rfl
  have hask : (ask depth).run.run e.enter = (.ok (e.depth + 1), e.enter) := rfl
  unfold inside
  rw [Result.run_bind, hchange]
  dsimp only
  rw [Result.run_bind, hask]
  simp only [Nat.lt_succ_iff]
  split <;> rfl

/-- The call does to the memory what the run does, and leaves the rest of the evaluator alone. -/
def Performs (env : Env R) (depth : Nat) (t : Call R α) (run : Run R α) : Prop :=
  ∀ memory, t.run.run ⟨env, depth, memory⟩ =
    ((run.run.run memory).1, ⟨env, depth, (run.run.run memory).2⟩)

namespace Performs

theorem pure (a : α) : Performs env depth (Pure.pure a) (Pure.pure a) := fun _ => rfl

theorem throw (cause : EvalError) :
    Performs env depth (MonadExcept.throw cause : Call R α) (MonadExcept.throw cause) := fun _ => rfl

theorem fault (f : TokenFault) :
    Performs env depth (Call.fault f : Call R α) (Eval.fault f) := throw (.malformed f)

theorem bind {t : Call R α} {run : Run R α} {f : α → Call R β} {g : α → Run R β}
    (ht : Performs env depth t run) (hf : ∀ a, Performs env depth (f a) (g a)) :
    Performs env depth (t >>= f) (run >>= g) := by
  intro memory
  rw [Result.run_bind, Result.run_bind, ht memory]
  rcases run.run.run memory with ⟨_ | a, after⟩
  · rfl
  · exact hf a after

theorem ask_env {f : Env R → Call R β} {g : Run R β} (h : Performs env depth (f env) g) :
    Performs env depth (Call.ask Evaluator.env >>= f) g := h

/-- What is changed before the call is changed back after it, whether it fails or not. -/
theorem around {env' : Env R} {depth' : Nat} {t : Call R α} {run : Run R α}
    {before after : Evaluator R → Evaluator R}
    (hbefore : ∀ memory, before ⟨env, depth, memory⟩ = ⟨env', depth', memory⟩)
    (hafter : ∀ memory, after ⟨env', depth', memory⟩ = ⟨env, depth, memory⟩)
    (h : Performs env' depth' t run) :
    Performs env depth (do Call.change before; t.thenAlways after) run := by
  intro memory
  have hchange : (Call.change before).run.run ⟨env, depth, memory⟩ =
      (.ok ⟨⟩, ⟨env', depth', memory⟩) := congrArg (Except.ok PUnit.unit, ·) (hbefore memory)
  rw [Result.run_bind, hchange]
  dsimp only
  rw [Call.run_thenAlways, h memory, hafter]

theorem bound {read : Reader R} {name : Char} {z : Complex R} {ts : List (Token R)}
    {run : Run R (Complex R × List (Token R))}
    (h : Performs ((name, z) :: env) depth (read ts) run) :
    Performs env depth (Evaluator.bound read name z ts) (do
      let (value, _) ← run
      return value) := by
  have hread : Performs env depth (do Call.change (push name z); (read ts).thenAlways pop) run :=
    around (fun _ => rfl) (fun _ => rfl) h
  have hwhole := hread.bind fun p => Performs.pure p.1
  rwa [bind_assoc] at hwhole

theorem inside_of_le {limit : Nat} {t : Call R α} (h : limit ≤ depth) :
    Performs env depth (t.inside limit) (MonadExcept.throw (.depthExceeded limit)) := by
  intro memory
  rw [Call.run_inside, if_pos h]
  rfl

theorem inside_of_lt {limit : Nat} {t : Call R α} {run : Run R α} (hlt : depth < limit)
    (h : Performs env (depth + 1) t run) : Performs env depth (t.inside limit) run := by
  intro memory
  rw [Call.run_inside, if_neg (Nat.not_le_of_lt hlt)]
  have haround : Performs env depth (do Call.change enter; t.thenAlways leave) run :=
    around (fun _ => rfl) (fun _ => rfl) h
  exact haround memory

end Performs

/-- A call together with the run that it performs. -/
structure Tandem (env : Env R) (depth : Nat) (α : Type) where
  call : Call R α
  run : Run R α
  performs : Performs env depth call run

namespace Tandem

instance : Monad (Tandem env depth) where
  pure a := ⟨pure a, pure a, .pure a⟩
  bind t f := ⟨t.call >>= fun a => (f a).call, t.run >>= fun a => (f a).run,
    t.performs.bind fun a => (f a).performs⟩

instance : MonadLiftT (Tandem env depth) (Call R) := ⟨Tandem.call⟩

instance : MonadLiftT (Tandem env depth) (Run R) := ⟨Tandem.run⟩

instance : LawfulMonadLiftT (Tandem env depth) (Call R) where
  monadLift_pure _ := rfl
  monadLift_bind _ _ := rfl

instance : LawfulMonadLiftT (Tandem env depth) (Run R) where
  monadLift_pure _ := rfl
  monadLift_bind _ _ := rfl

end Tandem

/-- Whatever is chained from calls in the same way as from the runs that they perform. -/
theorem Performs.of_tandem {t : Tandem env depth α} {call : Call R α} {run : Run R α}
    (hcall : (liftM t : Call R α) = call) (hrun : (liftM t : Run R α) = run) :
    Performs env depth call run := by
  subst hcall hrun
  exact t.performs

variable [Scalar R] {settings : Settings R} {meaning : Interpretation R}

namespace Performs

section

variable {term : Int → Call R (Complex R)} {termRun : Int → Run R (Complex R)}

theorem sum (h : ∀ k, Performs env depth (term k) (termRun k)) (lower upper : Complex R) :
    Performs env depth (IndexRange.sum lower upper term) (IndexRange.sum lower upper termRun) :=
  of_tandem (t := IndexRange.sum lower upper fun k => ⟨term k, termRun k, h k⟩)
    (IndexRange.liftM_sum _ _ _) (IndexRange.liftM_sum _ _ _)

theorem product (h : ∀ k, Performs env depth (term k) (termRun k)) (lower upper : Complex R) :
    Performs env depth (IndexRange.product lower upper term)
      (IndexRange.product lower upper termRun) :=
  of_tandem (t := IndexRange.product lower upper fun k => ⟨term k, termRun k, h k⟩)
    (IndexRange.liftM_product _ _ _) (IndexRange.liftM_product _ _ _)

end

section

variable {sample : R → Call R (Complex R)} {sampleRun : R → Run R (Complex R)}

theorem planValue (h : ∀ t, Performs env depth (sample t) (sampleRun t)) (request : Request R)
    (p : Plan R) : Performs env depth (p.value sample request) (p.value sampleRun request) :=
  of_tandem (t := p.value (fun t => ⟨sample t, sampleRun t, h t⟩) request)
    (Plan.liftM_value _ _ _) (Plan.liftM_value _ _ _)

theorem remember (h : ∀ t, Performs env depth (sample t) (sampleRun t)) (request : Request R) :
    Performs env depth (Eval.remember settings sample request)
      (Eval.remember settings sampleRun request) := by
  rw [Eval.remember_eq, Eval.remember_eq]
  have hget : Performs env depth (getThe (Memory R)) (getThe (Memory R)) := fun _ => rfl
  have hkeep (value : Complex R) : Performs env depth
      (modifyThe (Memory R) (· ++ [⟨request, value⟩]))
      (modifyThe (Memory R) (· ++ [⟨request, value⟩])) := fun _ => rfl
  refine hget.bind fun memory => (planValue h request _).bind fun value => ?_
  dsimp only
  split
  · exact (hkeep value).bind fun _ => .pure value
  · exact .pure value

theorem integral (h : ∀ t, Performs env depth (sample t) (sampleRun t)) (lower upper : Complex R)
    (request : R → R → Request R) :
    Performs env depth (Eval.integral settings sample lower upper request)
      (Eval.integral settings sampleRun lower upper request) :=
  of_tandem
    (t := Integral.directed (fun a b => ⟨Eval.remember settings sample (request a b),
      Eval.remember settings sampleRun (request a b), remember h _⟩) lower upper)
    (Integral.liftM_directed _ _ _) (Integral.liftM_directed _ _ _)

end

/-! ### Operands -/

section

variable {read : Reader R} {walk : Walker R}

theorem aggregate (hread : ∀ env ts, Performs env depth (read ts) (walk env ts)) (a : Aggregate)
    (ts : List (Token R)) :
    Performs env depth (Evaluator.aggregate settings read a ts)
      (Eval.walkAggregate settings walk a env ts) := by
  unfold Evaluator.aggregate Eval.walkAggregate
  refine (hread env ts).bind fun lower => (hread env lower.2).bind fun upper => ?_
  dsimp only
  rcases Token.split? 1 upper.2 with _ | ⟨body, _ | ⟨_ | _ | _ | index, after⟩⟩
  case some.cons.binder =>
    have hsample (z : Complex R) := bound (z := z) (hread ((index, z) :: env) upper.2)
    cases a with
    | sum => exact (sum (fun k => hsample (Complex.ofInt k)) _ _).bind fun _ => .pure _
    | product => exact (product (fun k => hsample (Complex.ofInt k)) _ _).bind fun _ => .pure _
    | integral =>
      exact ask_env ((integral (fun t => hsample (Complex.ofReal t)) _ _ _).bind fun _ => .pure _)
  all_goals exact fault _

theorem token (hread : ∀ env ts, Performs env depth (read ts) (walk env ts)) (ts : List (Token R)) :
    Performs env depth (Evaluator.token meaning settings read ts)
      (Eval.step meaning settings walk env ts) := by
  match ts with
  | [] => exact fault _
  | .literal z :: rest => exact .pure _
  | .var name :: rest =>
    refine ask_env ?_
    unfold Eval.step
    dsimp only
    cases env.find? name with
    | none => exact fault _
    | some z => exact .pure _
  | .binder index :: _ => exact fault _
  | .operation (.call f) :: rest => exact (hread _ _).bind fun _ => .pure _
  | .operation (.binary o) :: rest =>
    exact (hread _ _).bind fun _ => (hread _ _).bind fun _ => .pure _
  | .operation .log :: rest => exact (hread _ _).bind fun _ => (hread _ _).bind fun _ => .pure _
  | .operation (.aggregate a) :: rest => exact aggregate hread a rest

end

/-- Where `depth` operands are being read, the walk has that much fewer levels left. -/
theorem operand {fuel : Nat} (hfuel : settings.maxDepth < depth + fuel) (ts : List (Token R)) :
    Performs env depth (Evaluator.operand meaning settings fuel ts)
      (Eval.walk meaning settings (settings.maxDepth - depth) env ts) := by
  induction fuel generalizing env depth ts with
  | zero =>
    rw [show settings.maxDepth - depth = 0 by omega]
    exact .throw _
  | succ fuel ih =>
    -- There is fuel left when the limit is met, so it is the limit that ends the reading.
    rcases Nat.lt_or_ge depth settings.maxDepth with hlt | hle
    · rw [show settings.maxDepth - depth = settings.maxDepth - (depth + 1) + 1 by omega]
      exact inside_of_lt hlt (token (fun env ts => ih (by omega) ts) ts)
    · rw [show settings.maxDepth - depth = 0 by omega]
      exact inside_of_le hle

end Performs

/-! ### Calls in a row -/

/-- Between calls no operand is being read. The variables of the last call are still bound then, but
the next call binds its own. -/
theorem run_evaluate (meaning : Interpretation R) (settings : Settings R) (ts : List (Token R))
    (x n : Complex R) (env : Env R) (memory : Memory R) :
    ∃ env', (evaluate meaning settings ts x n).run.run ⟨env, 0, memory⟩ =
      (((evaluateWith meaning settings ts x n).run.run memory).1,
        ⟨env', 0, ((evaluateWith meaning settings ts x n).run.run memory).2⟩) := by
  cases ts with
  | nil => exact ⟨env, rfl⟩
  | cons t ts =>
    have hread : Performs (Eval.startEnv x n) 0
        (operand meaning settings (settings.maxDepth + 1) (t :: ts))
        (Eval.walk meaning settings settings.maxDepth (Eval.startEnv x n) (t :: ts)) :=
      Performs.operand (by omega) (t :: ts)
    have hend (p : Complex R × List (Token R)) : Performs (Eval.startEnv x n) 0
        (do if !p.2.isEmpty then Call.fault (.trailing p.2.length)
            return p.1)
        (do if !p.2.isEmpty then Eval.fault (.trailing p.2.length)
            return p.1) := by
      dsimp only
      split
      · exact (Performs.fault _).bind fun _ => .pure p.1
      · exact .pure p.1
    exact ⟨Eval.startEnv x n, hread.bind hend memory⟩

/-- The answers at one point after the other, each with the memory after it. Before each call
something may be done to the evaluator. -/
def answers (meaning : Interpretation R) (settings : Settings R) (ts : List (Token R))
    (before : Evaluator R → Evaluator R) :
    Evaluator R → List (Complex R × Complex R) → List (Except EvalError (Complex R) × Memory R)
  | _, [] => []
  | e, (x, n) :: points =>
    let (result, after) := (evaluate meaning settings ts x n).run.run (before e)
    (result, after.memory) :: answers meaning settings ts before after points

/-- A new evaluator with the same memory. -/
def renewed (e : Evaluator R) : Evaluator R := new e.memory

/-- The values at one point after the other, each with the memory after it. -/
def values (meaning : Interpretation R) (settings : Settings R) (ts : List (Token R)) :
    Memory R → List (Complex R × Complex R) → List (Except EvalError (Complex R) × Memory R)
  | _, [] => []
  | memory, (x, n) :: points =>
    let answer := (evaluateWith meaning settings ts x n).run.run memory
    answer :: values meaning settings ts answer.2 points

theorem answers_eq_values (meaning : Interpretation R) (settings : Settings R) (ts : List (Token R))
    {before : Evaluator R → Evaluator R}
    (h : ∀ env memory, ∃ env', before ⟨env, 0, memory⟩ = ⟨env', 0, memory⟩)
    (env : Env R) (memory : Memory R) (points : List (Complex R × Complex R)) :
    answers meaning settings ts before ⟨env, 0, memory⟩ points =
      values meaning settings ts memory points := by
  induction points generalizing env memory with
  | nil => rfl
  | cons point points ih =>
    obtain ⟨x, n⟩ := point
    obtain ⟨env', henv'⟩ := h env memory
    obtain ⟨later, hrun⟩ := run_evaluate meaning settings ts x n env' memory
    rw [answers, henv', hrun]
    exact congrArg (_ :: ·) (ih later _)

/-- One evaluator, kept through any calls, some of which may have failed anywhere inside, gives the
answers and leaves the memories that new evaluators do, and those are the values. -/
theorem answers_kept_eq_renewed (meaning : Interpretation R) (settings : Settings R)
    (ts : List (Token R)) (memory : Memory R) (points : List (Complex R × Complex R)) :
    answers meaning settings ts id (new memory) points =
        answers meaning settings ts renewed (new memory) points ∧
      answers meaning settings ts renewed (new memory) points =
        values meaning settings ts memory points := by
  have hkept : answers meaning settings ts id (new memory) points = _ :=
    answers_eq_values meaning settings ts (fun env _ => ⟨env, rfl⟩) [] memory points
  have hrenewed : answers meaning settings ts renewed (new memory) points = _ :=
    answers_eq_values meaning settings ts (fun _ _ => ⟨[], rfl⟩) [] memory points
  exact ⟨hkept.trans hrenewed.symm, hrenewed⟩

/-- The first call exceeds the depth in the body of the sum, the second finds an empty sum. -/
example :
    let settings := { Settings.standard Float with maxDepth := 2 }
    let ts : List (Token Float) := [.operation (.aggregate .sum), .literal (.ofInt 1), .var 'x',
      .operation (.call .sin), .var 'k', .binder 'k']
    (answers .standard settings ts id (new []) [(.ofInt 1, .ofInt 0), (.ofInt 0, .ofInt 0)]).map
      (·.1.toOption) = [none, some (.ofInt 0)] := by
  decide +kernel

end Evaluator

end ComplexSeries
