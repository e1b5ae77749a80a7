import Mathlib.Data.List.MinMax
import ComplexSeries.Proofs.Double.TotalOrder
import ComplexSeries.Proofs.Integral.Nearest

/-! How a request is planned. Of the stored integrals that fit, the nearest is used, and the first of
those that are as near; integrals that do not fit make no difference. The two pieces at its ends, each
taken in its direction, make up what it lacks of the request, wherever the two intervals lie. -/
namespace ComplexSeries.Integral

section

variable {R : Type} [Scalar R] {settings : Settings R} {M : Memory R} {request : Request R}
  {entry : Entry R} {lower upper : Segment R}

/-! ### The first of the nearest -/

/-- The first element of a list with the least rank. -/
def FirstLeast {α κ : Type} [LinearOrder κ] (rank : α → κ) (as : List α) (a : α) : Prop :=
  ∃ before after, as = before ++ a :: after ∧ (∀ b ∈ before, rank a < rank b) ∧
    ∀ b ∈ after, rank a ≤ rank b

theorem firstLeast_of_argmin {α κ : Type} [LinearOrder κ] {rank : α → κ} {as : List α} {a : α}
    (h : as.argmin rank = some a) : FirstLeast rank as a := by
  induction as with
  | nil => cases h
  | cons b bs ih =>
    rw [List.argmin_cons] at h
    cases hbs : bs.argmin rank with
    | none =>
      rw [hbs] at h
      obtain rfl : b = a := Option.some.inj h
      obtain rfl := List.argmin_eq_none.1 hbs
      exact ⟨[], [], rfl, by simp, by simp⟩
    | some c =>
      rw [hbs] at h
      dsimp only at h
      split at h
      · next hlt =>
        obtain rfl : c = a := Option.some.inj h
        obtain ⟨before, after, rfl, hbefore, hafter⟩ := ih hbs
        exact ⟨b :: before, after, rfl, List.forall_mem_cons.2 ⟨hlt, hbefore⟩, hafter⟩
      · next hle =>
        obtain rfl : b = a := Option.some.inj h
        refine ⟨[], bs, rfl, by simp, fun d hd => ?_⟩
        exact (not_lt.1 hle).trans (List.le_of_mem_argmin hd hbs)

theorem closest?_eq_argmin {κ : Type} [LinearOrder κ] {rank : R → κ}
    (h : ∀ entry other : Entry R,
      Scalar.nearer (entry.distance request) (other.distance request) = true ↔
        rank (entry.distance request) < rank (other.distance request)) :
    closest? M request =
      (M.filter (·.fits request)).argmin fun entry => rank (entry.distance request) := by
  unfold closest? List.argmin
  congr 1
  funext best entry
  cases best with
  | none => rfl
  | some best => exact if_congr (h entry best) rfl rfl

/-! ### What is not there -/

theorem closest?_filter_fits (M : Memory R) (request : Request R) :
    closest? (M.filter (·.fits request)) request = closest? M request := by
  rw [closest?, List.filter_filter]
  simp only [Bool.and_self]
  rfl

theorem plan_filter_fits (settings : Settings R) (M : Memory R) (request : Request R) :
    plan settings (M.filter (·.fits request)) request = plan settings M request :=
  plan_congr (closest?_filter_fits M request)

theorem plan_of_none (h : closest? M request = none) :
    plan settings M request = .cold settings.integralSteps := by
  rw [plan, h]

theorem plan_of_not_lt (hc : closest? M request = some entry)
    (h : ¬entry.distance request < entry.width) :
    plan settings M request = .extend entry.value
      ⟨request.lower, entry.lower, segmentPieces settings entry request (entry.lowerGap request)⟩
      ⟨entry.upper, request.upper, segmentPieces settings entry request (entry.upperGap request)⟩
      (decide (entry.width < entry.distance request)) := by
  rw [plan, hc]
  exact if_neg h

/-! ### The pieces at the ends -/

theorem segmentPieces_mem (hmax : 1 ≤ settings.maxDeltaSteps) (entry : Entry R)
    (request : Request R) (gap : R) :
    segmentPieces settings entry request gap ∈ Set.Icc 1 settings.maxDeltaSteps := by
  unfold segmentPieces
  dsimp only
  split
  · exact ⟨by omega, by omega⟩
  · exact ⟨hmax, le_rfl⟩

/-- The segments complete the stored interval to the requested one, each in some pieces but not in more
than the limit. Whatever is additive over intervals comes out the same. -/
structure Tiles (settings : Settings R) (entry : Entry R) (request : Request R)
    (lower upper : Segment R) : Prop where
  lower_pieces : lower.pieces ∈ Set.Icc 1 settings.maxDeltaSteps
  upper_pieces : upper.pieces ∈ Set.Icc 1 settings.maxDeltaSteps
  additive : ∀ {G : Type*} [AddCommGroup G] (area : R → R → G),
    (∀ a b c, area a b + area b c = area a c) →
      area entry.lower entry.upper + area lower.start lower.stop + area upper.start upper.stop =
        area request.lower request.upper

theorem tiles_segments (hmax : 1 ≤ settings.maxDeltaSteps) (entry : Entry R) (request : Request R) :
    Tiles settings entry request
      ⟨request.lower, entry.lower, segmentPieces settings entry request (entry.lowerGap request)⟩
      ⟨entry.upper, request.upper, segmentPieces settings entry request (entry.upperGap request)⟩ where
  lower_pieces := segmentPieces_mem hmax entry request _
  upper_pieces := segmentPieces_mem hmax entry request _
  additive area harea :=
    calc
      _ = area request.lower entry.lower + area entry.lower entry.upper +
          area entry.upper request.upper := congrArg (· + _) (add_comm _ _)
      _ = area request.lower entry.upper + area entry.upper request.upper := by rw [harea]
      _ = area request.lower request.upper := harea _ _ _

end

/-! ### Plans for double precision numbers -/

open Double (totalRank)

theorem nearer_distance_iff (request : Request Float) (entry other : Entry Float) :
    Scalar.nearer (entry.distance request) (other.distance request) = true ↔
      totalRank (entry.distance request) < totalRank (other.distance request) :=
  Double.nearer_iff (Double.unsigned_add_abs _ _) (Double.unsigned_add_abs _ _)

/-- A request is planned from the nearest stored integral that fits, the first of those in the total
order of their distances, and from nothing else. Its value is the answer exactly if it lies nearer than
it is wide; otherwise it is the base, and the segments complete it to the request. -/
theorem plan_from_nearest (settings : Settings Float) (hmax : 1 ≤ settings.maxDeltaSteps)
    (M : Memory Float) (request : Request Float) :
    plan settings (M.filter (·.fits request)) request = plan settings M request ∧
      ((∃ pieces, plan settings M request = .cold pieces) ↔
        ∀ entry ∈ M, entry.fits request = false) ∧
      ((∃ entry ∈ M, entry.fits request = true) → ∃ entry,
        FirstLeast (fun other => totalRank (other.distance request)) (M.filter (·.fits request))
            entry ∧
          (∀ value, plan settings M request = .known value ↔
            value = entry.value ∧ entry.distance request < entry.width) ∧
          ∀ base lower upper store, plan settings M request = .extend base lower upper store →
            base = entry.value ∧ Tiles settings entry request lower upper) := by
  have hargmin := closest?_eq_argmin (M := M) (nearer_distance_iff request)
  have hnone : closest? M request = none ↔ ∀ entry ∈ M, entry.fits request = false := by
    simp [hargmin, List.filter_eq_nil_iff]
  refine ⟨plan_filter_fits settings M request, ?_, fun ⟨entry, hentry, hfits⟩ => ?_⟩
  · rw [← hnone]
    cases hc : closest? M request with
    | none => simp [plan_of_none hc]
    | some entry =>
      by_cases hlt : entry.distance request < entry.width
      · simp [plan_of_lt hc hlt]
      · simp [plan_of_not_lt hc hlt]
  · obtain ⟨nearest, hc⟩ : ∃ nearest, closest? M request = some nearest := by
      refine Option.ne_none_iff_exists'.1 fun hc => ?_
      rw [hnone.1 hc entry hentry] at hfits
      cases hfits
    refine ⟨nearest, firstLeast_of_argmin (hargmin ▸ hc), ?_⟩
    by_cases hlt : nearest.distance request < nearest.width
    · simp [plan_of_lt hc hlt, hlt, eq_comm]
    · rw [plan_of_not_lt hc hlt]
      refine ⟨fun value => by simp [hlt], fun base lower upper store hplan => ?_⟩
      cases hplan
      exact ⟨rfl, tiles_segments hmax nearest request⟩

/-- Two stored integrals are as near; the first is used, though only the second would do as it is. -/
theorem plan_from_nearest_tie :
    let settings : Settings Float := ⟨1000, 100, 1, 5, false, none⟩
    let entry (index : Char) (lower upper value : Float) : Entry Float :=
      ⟨⟨[.var index], index, [], lower, upper⟩, .ofReal value⟩
    let M := [entry 's' (-1) 12 72, entry 't' 0 5 12, entry 't' (-5) 8 20]
    let request : Request Float := ⟨[.var 't'], 't', [], -1, 12⟩
    let lower : Segment Float := ⟨-1, 0, 25⟩
    let upper : Segment Float := ⟨5, 12, 100⟩
    1 ≤ settings.maxDeltaSteps ∧ (∃ entry ∈ M, entry.fits request = true) ∧
      plan settings M request = .extend (.ofReal 12) lower upper true ∧
      ∃ entry,
        FirstLeast (fun other => totalRank (other.distance request)) (M.filter (·.fits request))
            entry ∧
          Complex.ofReal 12 = entry.value ∧ Tiles settings entry request lower upper := by
  intro settings entry M request lower upper
  have hmax : 1 ≤ settings.maxDeltaSteps := by decide
  have hfits : ∃ entry ∈ M, entry.fits request = true := by decide +kernel
  have hplan : plan settings M request = .extend (.ofReal 12) lower upper true := by decide +kernel
  obtain ⟨nearest, hfirst, -, hextend⟩ := (plan_from_nearest settings hmax M request).2.2 hfits
  exact ⟨hmax, hfits, hplan, nearest, hfirst, hextend _ _ _ _ hplan⟩

end ComplexSeries.Integral
