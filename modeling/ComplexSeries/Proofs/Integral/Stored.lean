import ComplexSeries.Proofs.Integral.Recorded
import ComplexSeries.Proofs.Integral.Repeats

/-! A stored integral is found again. It was stored since nothing near was, and the integrals that were
stored while it was sampled are integrals of something else. So it is the nearest from then on. -/
namespace ComplexSeries

open Integral (Memory Request Entry Learns plan compositional_learns)
open Recorded (Accountable)
open Scalar (LawfulOrder)

variable {R : Type} {memory after : Memory R} {request : Request R} {value : Complex R}

/-- What is stored was asked for. -/
theorem Recorded.learns_of_accountable {good : Request R → Prop} {α : Type} {t : Recorded R α}
    (h : Accountable (fun _ => good) t) :
    Learns (fun entry => good entry.toRequest) t.forget.run := by
  intro memory
  have haccounts := h memory
  refine ⟨entries (t memory).events, haccounts.after_eq, fun entry hentry => ?_⟩
  obtain ⟨event, hevent, hentry⟩ := List.mem_filterMap.1 hentry
  cases event with
  | asked env request found => cases hentry
  | stored env stored =>
    obtain rfl := Option.some.inj hentry
    exact haccounts.allowed _ hevent

variable [Scalar R] {settings : Settings R} {sample : R → Eval.Run R (Complex R)}

/-- The answer is stored last, after all that was learnt from the samples. -/
theorem Eval.exists_learnt_of_remember {good : Entry R → Prop} (hgood : ∀ t, Learns good (sample t).run)
    (hstores : (plan settings memory request).stores = true)
    (hrun : (remember settings sample request).run.run memory = (.ok value, after)) :
    ∃ learnt, after = memory ++ (learnt ++ [⟨request, value⟩]) ∧ ∀ entry ∈ learnt, good entry := by
  obtain ⟨learnt, hlearnt, hall⟩ := (compositional_learns good).run.planValue hgood request
    (plan settings memory request) memory
  have hget : (get : Run R (Memory R)).run.run memory = (.ok memory, memory) := rfl
  rw [remember_eq, Result.run_bind, hget] at hrun
  dsimp only at hrun
  rw [Result.run_bind] at hrun
  cases hvalue : ((plan settings memory request).value sample request).run.run memory with
  | mk result between =>
    rw [hvalue] at hrun hlearnt
    obtain rfl : between = memory ++ learnt := hlearnt
    cases result with
    | error cause => cases hrun
    | ok found =>
      rw [hstores] at hrun
      cases hrun
      exact ⟨learnt, List.append_assoc _ _ _, hall⟩

/-- The answer to a request, once stored, is the one that the request gets. -/
theorem Integral.plan_of_remember [LawfulOrder R] (hordered : request.Ordered) (hproper : Proper memory)
    (hfits : (⟨request, value⟩ : Entry R).fits request = true)
    (hshort : ∀ t, Learns (fun entry => entry.body.length < request.body.length) (sample t).run)
    (hstores : (plan settings memory request).stores = true)
    (hrun : (Eval.remember settings sample request).run.run memory = (.ok value, after))
    {later : Memory R} (hlater : after <+: later) (settings' : Settings R) :
    plan settings' later request = .known value := by
  obtain ⟨learnt, rfl, hlearnt⟩ := Eval.exists_learnt_of_remember hshort hstores hrun
  obtain ⟨rest, rfl⟩ := hlater
  exact Traced.plan_append_stored hordered hproper hlearnt hstores hfits rest settings'

end ComplexSeries
