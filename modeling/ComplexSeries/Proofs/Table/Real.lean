import ComplexSeries.Proofs.Double.Order
import ComplexSeries.Proofs.Settings.Admissible
import ComplexSeries.Proofs.Table.Repeat

/-! Asking for a real value. It is the real part of the complex value at the same point, if the
imaginary part is below the tolerance. A tolerance that a document sets is at least zero. Where it is
above zero every real value passes. Where it is zero none does, since nothing is below it. -/
namespace ComplexSeries.Table

theorem valueAt_real {R : Type} [Scalar R] {table : Table R} {row : Nat} {x : R} {n : Int}
    {z : Complex R} (h : (table.valueAt row (.complex (.ofReal x)) n).1 = some (.complex z)) :
    (table.valueAt row (.real x) n).1 =
      some ((Abscissa.real x).answer table.settings.realTolerance z) := by
  rw [valueAt_eq] at h ⊢
  obtain ⟨slot, hslot, h⟩ := Option.bind_eq_some_iff.1 h
  rw [hslot, Option.bind_some]
  cases hc : slot.compiled with
  | error cause =>
    rw [slot.valueAt_of_error _ _ n hc] at h
    cases h
  | ok ts =>
    rw [slot.valueAt_of_ok _ _ n hc] at h ⊢
    obtain ⟨value, hvalue, hz⟩ := Option.map_eq_some_iff.1 h
    obtain rfl : value = z := Ordinate.complex.inj hz
    exact congrArg (Option.map _) hvalue

/-- With settings from a document, a value without imaginary part is answered by its real part, but
with tolerance zero the answer is missing. -/
theorem valueAt_real_of_im_eq_zero {s : String} {settings : Settings Float}
    (hsettings : Settings.read s = .ok settings) {table : Table Float}
    (h : Reachable settings table) {row : Nat} {x : Float} {n : Int} {z : Complex Float}
    (hvalue : (table.valueAt row (.complex (.ofReal x)) n).1 = some (.complex z))
    (him : (z.im == 0) = true) :
    (table.valueAt row (.real x) n).1 =
      some (.real (if settings.realTolerance == 0 then Scalar.missing else z.re)) := by
  have habs : Scalar.abs z.im = 0 := Double.abs_eq_zero_of_beq him
  have hlt : Scalar.abs z.im < settings.realTolerance ↔ (settings.realTolerance == 0) = false := by
    rw [habs]
    exact Double.zero_lt_iff_of_zero_le (Settings.admissible_of_read hsettings).zero_le_realTolerance
  rw [valueAt_real hvalue, h.settings_eq, Abscissa.answer]
  simp only [hlt]
  cases (settings.realTolerance == 0) <;> rfl

/-- The only row, `x`, is its own value at every point. -/
theorem valueAt_variable (tolerance : Float) (x : Abscissa Float) (n : Int) :
    let settings := { Settings.standard Float with realTolerance := tolerance }
    let table := (Table.empty settings).setRows ["x"]
    Reachable settings table ∧ (table.valueAt 0 x n).1 = some (x.answer tolerance x.value) := by
  intro settings table
  have hlimit : (Expr.var 'x' : Expr Float).height ≤ settings.maxDepth := show 1 ≤ 512 by decide
  have hread : Expr.read settings.maxDepth "x" = .ok (.var 'x' : Expr Float) :=
    Expr.read_of_scan (by rfl) (Expr.ofLexemes_of_sum (List.cons_ne_nil _ _) rfl hlimit)
  have htree : treeOf settings.maxDepth "x" = .ok (.var 'x' : Expr Float) :=
    treeOf_of_read (by decide +kernel) hread rfl
  have hfold : Expr.fold settings (.var 'x') = pure (.var 'x') := by
    rw [Expr.fold_eq]
    rfl
  have hslot : Slot.ofTyped settings "x" = ⟨"x", .ok [.var 'x'], []⟩ := by
    rw [Slot.ofTyped, compile, htree]
    dsimp only
    rw [hfold]
    rfl
  refine ⟨.setRows _ .empty, ?_⟩
  rw [valueAt_eq, slots_setRows_empty, List.map_singleton, hslot]
  rfl

theorem valueAt_real_of_im_eq_zero_variable :
    let settings := { Settings.standard Float with realTolerance := 1e-3 }
    let table := (Table.empty settings).setRows ["x"]
    Settings.read "evaluation real_tolerance: 1e-3" = .ok settings ∧ Reachable settings table ∧
      (table.valueAt 0 (.complex (.ofReal 1)) 0).1 = some (.complex (.ofReal 1)) ∧
      ((Complex.ofReal 1 : Complex Float).im == 0) = true ∧
      (table.valueAt 0 (.real 1) 0).1 = some (.real 1) := by
  intro settings table
  have hread : Settings.read "evaluation real_tolerance: 1e-3" = .ok settings := by rfl
  obtain ⟨hreach, hvalue⟩ := valueAt_variable 1e-3 (.complex (.ofReal 1)) 0
  have htolerance : ((1e-3 : Float) == 0) = false := by decide +kernel
  have hreal : (table.valueAt 0 (.real 1) 0).1 =
      some (.real (if (1e-3 : Float) == 0 then Scalar.missing else 1)) :=
    valueAt_real_of_im_eq_zero hread hreach hvalue rfl
  rw [htolerance] at hreal
  exact ⟨hread, hreach, hvalue, rfl, hreal⟩

/-- A document may set the tolerance to zero, and then `x` has no real value at 1. -/
theorem valueAt_real_ne_of_tolerance_zero :
    let settings := { Settings.standard Float with realTolerance := 0 }
    let table := (Table.empty settings).setRows ["x"]
    Settings.read "evaluation real_tolerance: 0" = .ok settings ∧ Reachable settings table ∧
      (table.valueAt 0 (.complex (.ofReal 1)) 0).1 = some (.complex (.ofReal 1)) ∧
      ((Complex.ofReal 1 : Complex Float).im == 0) = true ∧
      (Complex.ofReal 1 : Complex Float).re.isNaN = false ∧
      (table.valueAt 0 (.real 1) 0).1 = some (.real Scalar.missing) ∧
      (table.valueAt 0 (.real 1) 0).1 ≠ some (.real (Complex.ofReal 1 : Complex Float).re) := by
  intro settings table
  have hread : Settings.read "evaluation real_tolerance: 0" = .ok settings := by rfl
  obtain ⟨hreach, hvalue⟩ := valueAt_variable 0 (.complex (.ofReal 1)) 0
  have hreal : (table.valueAt 0 (.real 1) 0).1 = some (.real Scalar.missing) :=
    (valueAt_variable 0 (.real 1) 0).2
  refine ⟨hread, hreach, hvalue, rfl, by decide +kernel, hreal, ?_⟩
  rw [hreal]
  intro h
  exact absurd (Ordinate.real.inj (Option.some.inj h)) (by decide +kernel)

end ComplexSeries.Table
