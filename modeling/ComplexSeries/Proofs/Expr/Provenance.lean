import ComplexSeries.Scalar.Double
import ComplexSeries.Proofs.Expr.Recorded

/-! Where the answers to integrals come from. A tree is evaluated at one point after the other, and
each evaluation finds what the ones before have stored. An integral is only ever answered from one of
the same body and index that was stored while the variables of the body had equal values. -/
namespace ComplexSeries

open Eval (Env startEnv)
open Integral (Memory Request Entry Plan plan closest?)
open Recorded (Accounts)

variable {R : Type} [Scalar R]

/-- A point at which a tree is evaluated, and the settings that hold then. -/
structure Visit (R : Type) where
  settings : Settings R
  x : Complex R
  n : Complex R

namespace Visit

/-- The memory that is left when the tokens have been evaluated at all points. -/
def memoryAfter (ts : List (Token R)) (visits : List (Visit R)) (memory : Memory R) : Memory R :=
  visits.foldl (fun memory visit =>
    ((evaluate visit.settings ts visit.x visit.n).run.run memory).2) memory

def record (visit : Visit R) (e : Expr R) (memory : Memory R) : Record R (Complex R) :=
  e.recorded .standard visit.settings visit.settings.maxDepth (startEnv visit.x visit.n) memory

end Visit

namespace Expr

/-- What happens when a tree is evaluated at all points. -/
def history (e : Expr R) : List (Visit R) → Memory R → List (Event R)
  | [], _ => []
  | visit :: later, memory =>
    let record := visit.record e memory
    record.events ++ e.history later record.after

/-- The entry was stored on one of the visits, for an integral of the tree with the same index and
body, while every variable of the request had a value equal to the one it has now. -/
def Supplies (root : Expr R) (visits : List (Visit R)) (history : List (Event R))
    (request : Request R) (entry : Entry R) : Prop :=
  ∃ visit ∈ visits, ∃ env, .stored env entry ∈ history ∧
    root.Asks visit.x visit.n env entry.toRequest ∧ entry.index = request.index ∧
      (entry.body == request.body) = true ∧
        ∀ c z, (c, z) ∈ request.bindings → ∃ w, env.find? c = some w ∧ (w == z) = true

variable {e : Expr R}

theorem run_evaluate (e : Expr R) (visit : Visit R) (memory : Memory R) :
    (evaluate visit.settings e.tokens visit.x visit.n).run.run memory =
      ((visit.record e memory).result, (visit.record e memory).after) :=
  evaluateWith_recorded e visit.x visit.n memory

theorem accounts_record (hvalid : e.validate = .ok ()) (visit : Visit R) (memory : Memory R) :
    Accounts (e.Asks visit.x visit.n) memory (visit.record e memory).events
      (visit.record e memory).after :=
  accountable_recorded hvalid _ .root (.start visit.x visit.n) memory

theorem accounts_history (hvalid : e.validate = .ok ()) (visits : List (Visit R))
    (memory : Memory R) :
    Accounts (fun env request => ∃ visit ∈ visits, e.Asks visit.x visit.n env request) memory
      (e.history visits memory) (Visit.memoryAfter e.tokens visits memory) := by
  induction visits generalizing memory with
  | nil => exact .nil memory
  | cons visit later ih =>
    have hfirst := (accounts_record hvalid visit memory).mono
      fun env request h => (⟨visit, List.mem_cons_self, h⟩ :
        ∃ v ∈ visit :: later, e.Asks v.x v.n env request)
    have hlater := (ih (visit.record e memory).after).mono
      fun env request ⟨v, hv, h⟩ => (⟨v, List.mem_cons_of_mem visit hv, h⟩ :
        ∃ v ∈ visit :: later, e.Asks v.x v.n env request)
    rw [Visit.memoryAfter, List.foldl_cons, run_evaluate]
    exact hfirst.append hlater

theorem supplies_of_closest? {visits : List (Visit R)} {events : List (Event R)}
    (h : ∀ event ∈ events, ∃ visit ∈ visits, e.Asks visit.x visit.n event.env event.request)
    {request : Request R} {entry : Entry R}
    (hclosest : closest? (entries events) request = some entry) :
    e.Supplies visits events request entry := by
  obtain ⟨hmem, hfits⟩ := Integral.closest?_eq_some hclosest
  obtain ⟨hindex, hbindings, hbody⟩ := Integral.Entry.fits_iff.1 hfits
  obtain ⟨event, hevent, hentry⟩ := List.mem_filterMap.1 hmem
  cases event with
  | asked env request found => cases hentry
  | stored env stored =>
    obtain rfl := Option.some.inj hentry
    obtain ⟨visit, hvisit, hasks⟩ := h _ hevent
    refine ⟨visit, hvisit, env, hevent, hasks, beq_iff_eq.1 hindex, hbody, fun c z hz => ?_⟩
    obtain ⟨⟨d, w⟩, hw, heq⟩ := exists_beq_of_mem hbindings hz
    obtain ⟨hname, hvalue⟩ := Bool.and_eq_true_iff.1 heq
    obtain rfl : d = c := beq_iff_eq.1 hname
    exact ⟨w, hasks.current d w hw, hvalue⟩

/-- Every request tells the free variables of its body with their values, and is answered from nothing
but an integral of the same body and index that was stored while these variables had equal values. The
events tell all that is stored. -/
theorem supplies_of_asked (hvalid : e.validate = .ok ()) (visits : List (Visit R))
    (visit : Visit R) :
    let memory := Visit.memoryAfter e.tokens visits []
    let record := visit.record e memory
    (evaluate visit.settings e.tokens visit.x visit.n).run.run memory =
        (record.result, memory ++ entries record.events) ∧
      ∀ before env request found later,
        record.events = before ++ .asked env request found :: later →
          let earlier := e.history visits [] ++ before
          found = entries earlier ∧ e.Asks visit.x visit.n env request ∧
            ∀ base, (plan visit.settings found request).base? = some base →
              ∃ entry, closest? found request = some entry ∧ entry.value = base ∧
                e.Supplies (visits ++ [visit]) earlier request entry := by
  intro memory record
  have hhistory := accounts_history hvalid visits []
  have hrecord := accounts_record hvalid visit memory
  refine ⟨?_, fun before env request found later hsplit => ?_⟩
  · rw [run_evaluate, hrecord.after_eq]
  intro earlier
  rw [hsplit] at hrecord
  have hfound : found = entries earlier := by
    rw [hrecord.replays.found_eq, entries_append]
    exact congrArg (· ++ entries before) hhistory.after_eq
  have hearlier : ∀ event ∈ earlier,
      ∃ v ∈ visits ++ [visit], e.Asks v.x v.n event.env event.request := by
    refine List.forall_mem_append.2 ⟨fun event hevent => ?_, fun event hevent => ?_⟩
    · obtain ⟨v, hv, hasks⟩ := hhistory.allowed event hevent
      exact ⟨v, List.mem_append_left _ hv, hasks⟩
    · exact ⟨visit, List.mem_concat_self, hrecord.allowed event (List.mem_append_left _ hevent)⟩
  refine ⟨hfound, hrecord.allowed _ (List.mem_append_right _ List.mem_cons_self), ?_⟩
  intro base hbase
  rw [Integral.base?_plan] at hbase
  obtain ⟨entry, hclosest, hvalue⟩ := Option.map_eq_some_iff.1 hbase
  exact ⟨entry, hclosest, hvalue, supplies_of_closest? hearlier (hfound ▸ hclosest)⟩

/-- The integral up to 11 is answered from the one up to 10, stored while `k` had the same value. -/
theorem supplies_of_asked_sum :
    let body : Expr Float := .binary .mul (.var 'k') (.var 't')
    let e : Expr Float := .aggregate .sum (.ofInt 1) (.ofInt 1)
      (.aggregate .integral (.ofInt 0) (.var 'x') body 't') 'k'
    let settings : Settings Float := ⟨1, 1, 1, 5, false, none⟩
    let visit (x : Int) : Visit Float := ⟨settings, .ofInt x, .ofInt 0⟩
    let env : Env Float := ('k', .ofInt 1) :: startEnv (.ofInt 11) (.ofInt 0)
    let request (upper : Float) : Request Float := ⟨body.tokens, 't', [('k', .ofInt 1)], 0, upper⟩
    let entry : Entry Float := ⟨request 10, .ofInt 0⟩
    let earlier := e.history [visit 10] [] ++ []
    e.validate = .ok () ∧ Visit.memoryAfter e.tokens [visit 10] [] = [entry] ∧
      (evaluate settings e.tokens (.ofInt 11) (.ofInt 0)).run.run [entry] =
        (((visit 11).record e [entry]).result, [entry]) ∧
      ((visit 11).record e [entry]).events = [.asked env (request 11) [entry]] ∧
      (plan settings [entry] (request 11)).base? = some entry.value ∧
      [entry] = entries earlier ∧ e.Asks (.ofInt 11) (.ofInt 0) env (request 11) ∧
      ∃ found, closest? [entry] (request 11) = some found ∧ found.value = entry.value ∧
        e.Supplies [visit 10, visit 11] earlier (request 11) found := by
  intro body e settings visit env request entry earlier
  have hvalid : e.validate = .ok () := by decide +kernel
  have hmemory : Visit.memoryAfter e.tokens [visit 10] [] = [entry] := by decide +kernel
  have hevents : ((visit 11).record e [entry]).events = [.asked env (request 11) [entry]] := by
    decide +kernel
  have hbase : (plan settings [entry] (request 11)).base? = some entry.value := by decide +kernel
  obtain ⟨hrun, hasked⟩ := supplies_of_asked hvalid [visit 10] (visit 11)
  rw [hmemory, hevents] at hrun hasked
  obtain ⟨hfound, hasks, hanswer⟩ := hasked [] env (request 11) [entry] [] rfl
  exact ⟨hvalid, hmemory, hrun, hevents, hbase, hfound, hasks, hanswer entry.value hbase⟩

end Expr

end ComplexSeries
