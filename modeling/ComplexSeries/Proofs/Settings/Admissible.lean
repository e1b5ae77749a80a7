import ComplexSeries.Settings.Read
import ComplexSeries.Proofs.Result

/-! What a settings document can bring about. Each value is checked before it is assigned, so whatever
the document says, counts are at least one and the tolerance is finite and not below zero. It may be
zero. -/
namespace ComplexSeries.Settings

/-- Settings that a document may lead to. -/
structure Admissible (settings : Settings Float) : Prop where
  zero_lt_integralSteps : 0 < settings.integralSteps
  zero_lt_maxDeltaSteps : 0 < settings.maxDeltaSteps
  zero_lt_maxDepth : 0 < settings.maxDepth
  zero_le_realTolerance : 0 ≤ settings.realTolerance
  isFinite_realTolerance : settings.realTolerance.isFinite = true

theorem admissible_standard : (standard Float).Admissible where
  zero_lt_integralSteps := by decide
  zero_lt_maxDeltaSteps := by decide
  zero_lt_maxDepth := by decide
  zero_le_realTolerance := by decide +kernel
  isFinite_realTolerance := by decide +kernel

theorem Value.zero_lt_of_positive? {v : Value} {k : Nat} (h : v.positive? = some k) : 0 < k := by
  obtain ⟨n, -, h⟩ := Option.bind_eq_some_iff.1 h
  split at h
  · next hn =>
    obtain rfl := Option.some.inj h
    omega
  · cases h

theorem Value.of_tolerance? {v : Value} {a : Float} (h : v.tolerance? = some a) :
    0 ≤ a ∧ a.isFinite = true := by
  obtain ⟨-, h⟩ := Option.filter_eq_some_iff.1 h
  obtain ⟨hle, hfinite⟩ := Bool.and_eq_true_iff.1 h
  exact ⟨of_decide_eq_true hle, hfinite⟩

theorem Admissible.assign? {settings settings' : Settings Float} (h : settings.Admissible)
    {key : Key} {v : Value} (hassign : settings.assign? key v = some settings') :
    settings'.Admissible := by
  cases key <;> obtain ⟨found, hfound, rfl⟩ := Option.map_eq_some_iff.1 hassign
  case integralSteps => exact { h with zero_lt_integralSteps := Value.zero_lt_of_positive? hfound }
  case maxDeltaSteps => exact { h with zero_lt_maxDeltaSteps := Value.zero_lt_of_positive? hfound }
  case maxDepth => exact { h with zero_lt_maxDepth := Value.zero_lt_of_positive? hfound }
  case realTolerance =>
    obtain ⟨hle, hfinite⟩ := Value.of_tolerance? hfound
    exact { h with zero_le_realTolerance := hle, isFinite_realTolerance := hfinite }
  case foldConstants | logLevel => exact { h with }

/-- A pair that is accepted assigns one value. -/
theorem exists_assign?_of_assignValues {title : String} {settings settings' : Settings Float}
    {pair : String × List Value} (h : assignValues title settings pair = .ok settings') :
    ∃ key v, settings.assign? key v = some settings' := by
  unfold assignValues at h
  split at h
  · next v _ =>
    split at h
    · cases h
    · next key _ =>
      split at h
      · next found hfound =>
        cases h
        exact ⟨key, v, hfound⟩
      · cases h
  · cases h

theorem admissible_of_ofDocument {document : Document} {settings : Settings Float}
    (h : ofDocument document = .ok settings) : settings.Admissible := by
  refine Result.foldlM_invariant (P := Admissible) (fun settings part after hsettings hpart => ?_)
    admissible_standard h
  refine Result.foldlM_invariant (P := Admissible) (fun settings pair after hsettings hpair => ?_)
    hsettings hpart
  obtain ⟨key, v, hassign⟩ := exists_assign?_of_assignValues hpair
  exact hsettings.assign? hassign

theorem admissible_of_read {s : String} {settings : Settings Float} (h : read s = .ok settings) :
    settings.Admissible := by
  unfold read at h
  split at h
  · cases h
  · exact admissible_of_ofDocument h

end ComplexSeries.Settings
