import ComplexSeries.Eval
import ComplexSeries.Proofs.Integral.Nearest
import ComplexSeries.Proofs.Token.Split
import ComplexSeries.Proofs.Variable

/-! What is asked for when a walk meets an integral, whatever list of tokens it walks over. The body is
one operand of the list. The bindings name what the body reads from outside, so not the index. The
bounds are finite and differ, and the one that is found to be less comes first. -/
namespace ComplexSeries

open Scalar (LawfulOrder)

variable {R : Type}

theorem Complex.isFinite_of_real? [Scalar R] {z : Complex R} {a : R} (h : z.real? = some a) :
    Scalar.isFinite a = true := by
  unfold Complex.real? at h
  split at h
  · next hreal =>
    cases h
    exact (Bool.and_eq_true_iff.1 hreal).2
  · cases h

namespace Integral

/-- The body is one operand, and the bindings name other variables than the index, each once and in
order. -/
structure Request.Whole (request : Request R) : Prop where
  spanEnd?_body : Token.spanEnd? request.body 0 = some request.body.length
  ascending : (request.bindings.map (·.1)).Pairwise (· < ·)
  index_not_mem : request.index ∉ request.bindings.map (·.1)

/-- Bounds in the order in which a value is asked for. In general nothing follows about which of them
is less if neither is found to be. -/
structure Forwards [Scalar R] (lower upper : R) : Prop where
  lower_finite : Scalar.isFinite lower = true
  upper_finite : Scalar.isFinite upper = true
  lt_or_not_lt : lower < upper ∨ (lower == upper) = false ∧ ¬upper < lower

theorem Forwards.lt [Scalar R] [LawfulOrder R] {lower upper : R} (h : Forwards lower upper) :
    lower < upper :=
  h.lt_or_not_lt.elim id fun hle =>
    LawfulOrder.lt_of_not_lt h.lower_finite h.upper_finite hle.1 hle.2

theorem Forwards.ordered [Scalar R] [LawfulOrder R] {request : Request R}
    (h : Forwards request.lower request.upper) : request.Ordered :=
  ⟨h.lower_finite, h.upper_finite, h.lt⟩

/-- An entry as walks store it. -/
structure Entry.WellFormed [Scalar R] (entry : Entry R) : Prop
    extends entry.toRequest.Ordered, entry.toRequest.Whole

end Integral

namespace Eval

theorem pairwise_bindings (env : Env R) (index : Char) (body : List (Token R)) :
    ((bindings env index body).map (·.1)).Pairwise (· < ·) := by
  have hname (c d : Char) (h : ((env.find? c).map (c, ·)).map (·.1) = some d) : c = d := by
    cases hc : env.find? c with
    | none =>
      rw [hc] at h
      cases h
    | some z =>
      rw [hc] at h
      exact Option.some.inj h
  rw [bindings, List.map_filterMap]
  refine (pairwise_sortNames _).filterMap _ fun c c' hlt d hd d' hd' => ?_
  rwa [← hname c d hd, ← hname c' d' hd']

theorem ne_of_mem_bindings {env : Env R} {index c : Char} {body : List (Token R)} {z : Complex R}
    (h : (c, z) ∈ bindings env index body) : c ≠ index := by
  obtain ⟨name, hname, h⟩ := List.mem_filterMap.1 h
  obtain ⟨w, -, heq⟩ := Option.map_eq_some_iff.1 h
  obtain ⟨rfl, rfl⟩ := Prod.mk.inj heq
  obtain ⟨t, -, ht⟩ := List.mem_filterMap.1 (mem_sortNames.1 hname)
  split at ht
  · split at ht
    · cases ht
    · next hne => exact Option.some.inj ht ▸ hne
  · cases ht

theorem whole_of_split? {ts body rest : List (Token R)} (h : Token.split? 1 ts = some (body, rest))
    (env : Env R) (index : Char) (lower upper : R) :
    (⟨body, index, bindings env index body, lower, upper⟩ : Integral.Request R).Whole := by
  refine ⟨Token.spanEnd?_span h, pairwise_bindings env index body, fun hindex => ?_⟩
  obtain ⟨⟨c, z⟩, hmem, rfl⟩ := List.mem_map.1 hindex
  exact ne_of_mem_bindings hmem rfl

end Eval

end ComplexSeries
