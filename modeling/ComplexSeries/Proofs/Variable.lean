import Mathlib.Data.List.Sort
import Mathlib.Order.Defs.LinearOrder
import Mathlib.Data.String.Basic
import ComplexSeries.Variable

/-! Sorted names stand in strictly ascending order, so a list of sorted names is determined by its
members. -/
namespace ComplexSeries

theorem pairwise_insertName {c : Char} {ds : List Char} (h : ds.Pairwise (· < ·)) :
    (insertName c ds).Pairwise (· < ·) := by
  induction ds with
  | nil => simp [insertName]
  | cons d ds ih =>
    rw [List.pairwise_cons] at h
    unfold insertName
    split
    · next hcd =>
      refine List.pairwise_cons.2 ⟨fun a ha => ?_, List.pairwise_cons.2 h⟩
      rcases List.mem_cons.1 ha with rfl | ha
      · exact hcd
      · exact hcd.trans (h.1 a ha)
    · next hcd =>
      split
      · exact List.pairwise_cons.2 h
      · next hne =>
        refine List.pairwise_cons.2 ⟨fun a ha => ?_, ih h.2⟩
        rcases mem_insertName.1 ha with rfl | ha
        · exact lt_of_le_of_ne (not_lt.1 hcd) (Ne.symm hne)
        · exact h.1 a ha

theorem pairwise_sortNames (names : List Char) : (sortNames names).Pairwise (· < ·) := by
  induction names with
  | nil => exact .nil
  | cons c names ih => exact pairwise_insertName ih

/-- Names that the function drops make no difference. -/
theorem filterMap_sortNames_congr {α : Type} {f : Char → Option α} {names names' : List Char}
    (h : ∀ c, (f c).isSome → (c ∈ names ↔ c ∈ names')) :
    (sortNames names).filterMap f = (sortNames names').filterMap f := by
  have hfilter : (sortNames names).filter (fun c => (f c).isSome) =
      (sortNames names').filter (fun c => (f c).isSome) := by
    refine List.Pairwise.eq_of_mem_iff (r := (· < ·))
      ((pairwise_sortNames names).filter _) ((pairwise_sortNames names').filter _) fun c => ?_
    simp only [List.mem_filter, mem_sortNames]
    exact and_congr_left fun hc => h c hc
  have hdrop : ∀ cs : List Char, cs.filterMap f = (cs.filter fun c => (f c).isSome).filterMap f := by
    intro cs
    rw [List.filterMap_filter]
    congr 1
    funext c
    cases f c <;> rfl
  rw [hdrop, hfilter, ← hdrop]

theorem sortNames_filter (names : List Char) (keep : Char → Bool) :
    sortNames (names.filter keep) = (sortNames names).filter keep := by
  refine List.Pairwise.eq_of_mem_iff (r := (· < ·)) (pairwise_sortNames _)
    ((pairwise_sortNames names).filter _) fun c => ?_
  simp only [mem_sortNames, List.mem_filter]

end ComplexSeries
