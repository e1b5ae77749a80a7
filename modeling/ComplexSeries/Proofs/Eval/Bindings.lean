import ComplexSeries.Proofs.Expr.Scope
import ComplexSeries.Proofs.Expr.Value

/-! What an integral is remembered by. The tokens of a body name the indices of inner aggregates as
well, but those have no value while the body is not being evaluated: an index may not carry a name
that is bound already. So the bindings are the values of the names that occur freely. -/
namespace ComplexSeries

open Eval (Env startEnv)

variable {R : Type}

/-- Exactly the names that may be read have a value. -/
def Eval.Env.Binds (env : Env R) (scope : List Char) : Prop :=
  ∀ c, (env.find? c).isSome = Expr.isBound scope c

theorem Eval.binds_startEnv (x n : Complex R) : (startEnv x n).Binds [] := by
  intro c
  rcases eq_or_ne 'n' c with rfl | hn
  · rfl
  rcases eq_or_ne 'x' c with rfl | hx
  · rfl
  have hfind : (startEnv x n).find? c = none := by
    rw [startEnv, Env.find?_cons, if_neg hn, Env.find?_cons, if_neg hx]
    rfl
  rw [hfind]
  simp [Expr.isBound, isVariable, hn.symm, hx.symm]

theorem Eval.Env.Binds.cons {env : Env R} {scope : List Char} (h : env.Binds scope) (index : Char)
    (z : Complex R) : Env.Binds ((index, z) :: env) (index :: scope) := by
  intro c
  rw [Bool.eq_iff_iff, Expr.isBound_cons, ← h c, find?_cons]
  split
  · next hc => simp [hc]
  · next hc => simp [Ne.symm hc]

/-- The environment of a point, extended by values for the indices of a scope. -/
def Eval.Env.Extends (env : Env R) (x n : Complex R) (scope : List Char) : Prop :=
  ∃ inner, env = inner ++ startEnv x n ∧ inner.map (·.1) = scope

namespace Eval.Env.Extends

variable {env : Env R} {x n : Complex R} {scope : List Char}

theorem start (x n : Complex R) : Env.Extends (startEnv x n) x n [] := ⟨[], rfl, rfl⟩

theorem cons (h : env.Extends x n scope) (index : Char) (z : Complex R) :
    Env.Extends ((index, z) :: env) x n (index :: scope) := by
  obtain ⟨inner, rfl, rfl⟩ := h
  exact ⟨(index, z) :: inner, rfl, rfl⟩

theorem binds (h : env.Extends x n scope) : env.Binds scope := by
  obtain ⟨inner, rfl, rfl⟩ := h
  induction inner with
  | nil => exact binds_startEnv x n
  | cons p inner ih => exact ih.cons p.1 p.2

end Eval.Env.Extends

namespace Expr

variable [Scalar R] {scope : List Char}

/-- A name that is bound already occurs in the tokens where it occurs freely. -/
theorem mem_tokens_iff {e : Expr R} (h : e.checkScope scope = .ok ()) {c : Char}
    (hc : isBound scope c = true) : Token.var c ∈ e.tokens ↔ c ∈ e.occurrences := by
  induction e generalizing scope with
  | const | constant => simp [tokens, occurrences]
  | var name => simp [tokens, occurrences]
  | binary o a b iha ihb =>
    rw [checkScope_binary_iff] at h
    simp [tokens, occurrences, iha h.1 hc, ihb h.2 hc]
  | log a b iha ihb =>
    rw [checkScope_log_iff] at h
    simp [tokens, occurrences, iha h.1 hc, ihb h.2 hc]
  | call f a ih => simp [tokens, occurrences, ih h hc]
  | aggregate k lower upper body index ihl ihu ihb =>
    obtain ⟨hl, hu, hi, hb⟩ := checkScope_aggregate_iff.1 h
    have hne : c ≠ index := by rintro rfl; rw [hc] at hi; cases hi
    have hbody := ihb hb ((isBound_cons index c scope).2 (.inr hc))
    simp [tokens, occurrences, ihl hl hc, ihu hu hc, hbody, hne]

theorem bindings_tokens {env : Env R} (henv : env.Binds scope) {index : Char} {body : Expr R}
    (h : body.checkScope (index :: scope) = .ok ()) :
    Eval.bindings env index body.tokens = outerBindings env index body := by
  refine filterMap_sortNames_congr fun c hc => ?_
  rw [Option.isSome_map, henv c] at hc
  have hbody := mem_tokens_iff h ((isBound_cons index c scope).2 (.inr hc))
  simp only [List.mem_filterMap, List.mem_filter, bne_iff_ne, ← hbody]
  constructor
  · rintro ⟨t, ht, htc⟩
    split at htc
    · split at htc
      · cases htc
      · next name hne => cases htc; exact ⟨ht, hne⟩
    · cases htc
  · rintro ⟨ht, hne⟩
    exact ⟨.var c, ht, if_neg hne⟩

omit [Scalar R] in
theorem find?_of_mem_outerBindings {env : Env R} {index c : Char} {body : Expr R} {z : Complex R}
    (h : (c, z) ∈ outerBindings env index body) : env.find? c = some z := by
  obtain ⟨name, -, hname⟩ := List.mem_filterMap.1 h
  obtain ⟨w, hw, heq⟩ := Option.map_eq_some_iff.1 hname
  obtain ⟨rfl, rfl⟩ := Prod.mk.inj heq
  exact hw

/-- Each free variable of the body has a value, apart from the index. -/
theorem map_fst_outerBindings {env : Env R} {index : Char}
    {body : Expr R} (henv : env.Binds scope) (h : body.checkScope (index :: scope) = .ok ()) :
    (outerBindings env index body).map (·.1) = body.freeVariables.filter (· != index) := by
  have hvalue : ∀ c ∈ body.freeVariables.filter (· != index), (env.find? c).isSome := by
    intro c hc
    obtain ⟨hfree, hne⟩ := List.mem_filter.1 hc
    have hbound := isBound_of_mem_occurrences h (mem_sortNames.1 hfree)
    rw [henv c]
    exact ((isBound_cons index c scope).1 hbound).resolve_left (bne_iff_ne.1 hne)
  rw [outerBindings, sortNames_filter, ← freeVariables, List.map_filterMap]
  refine (List.filterMap_congr fun c hc => ?_).trans List.filterMap_some
  obtain ⟨z, hz⟩ := Option.isSome_iff_exists.1 (hvalue c hc)
  rw [hz]
  rfl

end Expr

end ComplexSeries
