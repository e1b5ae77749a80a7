import ComplexSeries.Proofs.Result
import ComplexSeries.Proofs.Eval.Grows

/-! Runs that record every request for an integral, with the variables as they were and the memory as
it was found, and every integral that is stored. The run itself is the one that records nothing. -/
namespace ComplexSeries

open Eval (Env Run)
open Integral (Memory Request Entry Plan plan)

variable {R : Type}

inductive Event (R : Type) where
  /-- The memory is the one that the request is answered from. -/
  | asked (env : Env R) (request : Request R) (memory : Memory R)
  | stored (env : Env R) (entry : Entry R)
deriving DecidableEq

namespace Event

/-- The variables when it happened. -/
def env : Event R → Env R
  | asked env _ _ | stored env _ => env

/-- The integral that it is about. -/
def request : Event R → Request R
  | asked _ request _ => request
  | stored _ entry => entry.toRequest

def entry? : Event R → Option (Entry R)
  | asked _ _ _ => none
  | stored _ entry => some entry

end Event

/-- What has been stored, in order. -/
def entries (events : List (Event R)) : Memory R := events.filterMap Event.entry?

@[simp] theorem entries_append (events later : List (Event R)) :
    entries (events ++ later) = entries events ++ entries later := List.filterMap_append

/-- What a run did, whether it ended well or not. -/
structure Record (R α : Type) where
  result : Except EvalError α
  events : List (Event R)
  after : Memory R

def Recorded (R α : Type) : Type := Memory R → Record R α

namespace Recorded

instance : Monad (Recorded R) where
  pure a := fun memory => ⟨.ok a, [], memory⟩
  bind t f := fun memory =>
    let first := t memory
    match first.result with
    | .ok a =>
      let second := f a first.after
      ⟨second.result, first.events ++ second.events, second.after⟩
    | .error cause => ⟨.error cause, first.events, first.after⟩

def fail {α : Type} (cause : EvalError) : Recorded R α := fun memory => ⟨.error cause, [], memory⟩

/-- Makes a request and looks at the memory. -/
def look (env : Env R) (request : Request R) : Recorded R (Memory R) := fun memory =>
  ⟨.ok memory, [.asked env request memory], memory⟩

def store (env : Env R) (entry : Entry R) : Recorded R PUnit := fun memory =>
  ⟨.ok ⟨⟩, [.stored env entry], memory ++ [entry]⟩

def forget {α : Type} (t : Recorded R α) : Run R α :=
  ExceptT.mk fun memory => ((t memory).result, (t memory).after)

instance : MonadLift (Recorded R) (Run R) := ⟨forget⟩

theorem bind_eq {α β : Type} (t : Recorded R α) (f : α → Recorded R β) (memory : Memory R) :
    (t >>= f) memory =
      match (t memory).result with
      | .ok a =>
        let second := f a (t memory).after
        ⟨second.result, (t memory).events ++ second.events, second.after⟩
      | .error cause => ⟨.error cause, (t memory).events, (t memory).after⟩ := rfl

theorem run_forget {α : Type} (t : Recorded R α) (memory : Memory R) :
    t.forget.run.run memory = ((t memory).result, (t memory).after) := rfl

instance : LawfulMonadLift (Recorded R) (Run R) where
  monadLift_pure _ := rfl
  monadLift_bind t f := by
    refine ExceptT.ext (StateT.ext fun memory => ?_)
    change (t >>= f).forget.run.run memory = (t.forget >>= fun a => (f a).forget).run.run memory
    rw [Result.run_bind, run_forget, run_forget, bind_eq]
    rcases t memory with ⟨_ | a, events, after⟩ <;> rfl

section

variable [Scalar R] {settings : Settings R}

/-- Answers a request as planned and records it. -/
def ask (settings : Settings R) (env : Env R) (sample : R → Recorded R (Complex R))
    (request : Request R) : Recorded R (Complex R) := do
  let memory ← look env request
  let p := plan settings memory request
  let value ← p.value sample request
  if p.stores then store env ⟨request, value⟩
  return value

theorem liftM_ask (env : Env R) (sample : R → Recorded R (Complex R)) (request : Request R) :
    (liftM (ask settings env sample request) : Run R (Complex R)) =
      Eval.remember settings (fun t => liftM (sample t)) request := by
  have hlook : (liftM (look env request) : Run R (Memory R)) = get := rfl
  have hstore (value : Complex R) : (liftM (store env ⟨request, value⟩) : Run R PUnit) =
      modify (· ++ [⟨request, value⟩]) := rfl
  rw [Eval.remember_eq]
  unfold ask
  rw [liftM_bind, hlook]
  refine bind_congr fun memory => ?_
  dsimp only
  rw [liftM_bind, Plan.liftM_value]
  refine bind_congr fun value => ?_
  split
  · rw [liftM_bind, hstore, liftM_pure]
  · exact liftM_pure value

end

/-! ### Records that account for the memory -/

/-- Each request finds the memory of the start with what has been stored since. -/
def Replays (memory : Memory R) : List (Event R) → Prop
  | [] => True
  | .asked _ _ found :: later => found = memory ∧ Replays memory later
  | .stored _ entry :: later => Replays (memory ++ [entry]) later

theorem replays_append {memory : Memory R} {events later : List (Event R)} :
    Replays memory (events ++ later) ↔
      Replays memory events ∧ Replays (memory ++ entries events) later := by
  induction events generalizing memory with
  | nil =>
    have hnil : memory ++ entries ([] : List (Event R)) = memory := List.append_nil memory
    rw [List.nil_append, hnil]
    exact (and_iff_right trivial).symm
  | cons event events ih =>
    cases event with
    | asked env request found => exact (and_congr_right' ih).trans and_assoc.symm
    | stored env entry =>
      have hcons : memory ++ entries (.stored env entry :: events) =
          memory ++ [entry] ++ entries events := List.append_cons memory entry (entries events)
      rw [hcons]
      exact ih

theorem Replays.found_eq {memory found : Memory R} {before later : List (Event R)} {env : Env R}
    {request : Request R} (h : Replays memory (before ++ .asked env request found :: later)) :
    found = memory ++ entries before :=
  (replays_append.1 h).2.1

variable {Q : Env R → Request R → Prop}

/-- The events tell what was stored, what was found, and only such requests as `Q` says. -/
structure Accounts (Q : Env R → Request R → Prop) (memory : Memory R) (events : List (Event R))
    (after : Memory R) : Prop where
  after_eq : after = memory ++ entries events
  replays : Replays memory events
  allowed : ∀ event ∈ events, Q event.env event.request

theorem Accounts.nil (memory : Memory R) : Accounts Q memory [] memory where
  after_eq := (List.append_nil memory).symm
  replays := trivial
  allowed _ h := nomatch h

theorem Accounts.append {memory between after : Memory R} {events later : List (Event R)}
    (h : Accounts Q memory events between) (hlater : Accounts Q between later after) :
    Accounts Q memory (events ++ later) after where
  after_eq := by
    rw [hlater.after_eq, h.after_eq, entries_append, List.append_assoc]
  replays := replays_append.2 ⟨h.replays, h.after_eq ▸ hlater.replays⟩
  allowed event hevent := (List.mem_append.1 hevent).elim (h.allowed event) (hlater.allowed event)

theorem Accounts.mono {Q' : Env R → Request R → Prop} {memory after : Memory R}
    {events : List (Event R)} (h : Accounts Q memory events after)
    (hQ : ∀ env request, Q env request → Q' env request) : Accounts Q' memory events after where
  after_eq := h.after_eq
  replays := h.replays
  allowed event hevent := hQ _ _ (h.allowed event hevent)

def Accountable (Q : Env R → Request R → Prop) {α : Type} (t : Recorded R α) : Prop :=
  ∀ memory, Accounts Q memory (t memory).events (t memory).after

theorem compositional_accountable (Q : Env R → Request R → Prop) :
    Compositional fun α (t : Recorded R α) => Accountable Q t where
  pure _ memory := .nil memory
  bind {_ _ t f} ht hf memory := by
    have hfirst := ht memory
    rw [bind_eq]
    cases (t memory).result with
    | error cause => exact hfirst
    | ok a => exact hfirst.append (hf a _)

theorem accountable_fail {α : Type} (cause : EvalError) :
    Accountable Q (fail cause : Recorded R α) := fun memory => .nil memory

theorem accountable_look {env : Env R} {request : Request R} (h : Q env request) :
    Accountable Q (look env request) := fun memory =>
  { after_eq := (List.append_nil memory).symm
    replays := ⟨rfl, trivial⟩
    allowed := List.forall_mem_singleton.2 h }

theorem accountable_store {env : Env R} {entry : Entry R} (h : Q env entry.toRequest) :
    Accountable Q (store env entry) := fun _ =>
  { after_eq := rfl
    replays := trivial
    allowed := List.forall_mem_singleton.2 h }

theorem accountable_ask [Scalar R] {settings : Settings R} {env : Env R}
    {sample : R → Recorded R (Complex R)} {request : Request R} (h : Q env request)
    (hsample : ∀ t, Accountable Q (sample t)) :
    Accountable Q (ask settings env sample request) := by
  have hQ := compositional_accountable Q
  refine hQ.bind (accountable_look h) fun memory => ?_
  refine hQ.bind (hQ.planValue hsample request _) fun value => ?_
  dsimp only
  split
  · exact hQ.bind (accountable_store h) fun _ => hQ.pure value
  · exact hQ.pure value

end Recorded

end ComplexSeries
