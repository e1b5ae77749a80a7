import ComplexSeries.Proofs.Table.Row

/-! Rows do not disturb each other. Of requests made one after the other, those for other rows could
as well be left out. -/
namespace ComplexSeries

variable {R : Type} [Scalar R]

/-- A request for the value of a row at a point. -/
structure Query (R : Type) where
  row : Nat
  x : Abscissa R
  n : Int

namespace Table

/-- Each request with its answer, and what the table has become. -/
def valuesAt (table : Table R) : List (Query R) → List (Query R × Option (Ordinate R)) × Table R
  | [] => ([], table)
  | query :: queries =>
    let (answer, after) := table.valueAt query.row query.x query.n
    let (answers, last) := after.valuesAt queries
    ((query, answer) :: answers, last)

theorem valuesAt_cons (table : Table R) (query : Query R) (queries : List (Query R)) :
    table.valuesAt (query :: queries) =
      let (answer, after) := table.valueAt query.row query.x query.n
      let (answers, last) := after.valuesAt queries
      ((query, answer) :: answers, last) := rfl

/-- Two tables that agree on a row answer the requests for it alike, with or without others. -/
theorem valuesAt_filter_of_agree {row : Nat} (queries : List (Query R)) {table table' : Table R}
    (hsettings : table'.settings = table.settings) (hslot : table'.slots[row]? = table.slots[row]?) :
    (table'.valuesAt (queries.filter (·.row == row))).1 =
        (table.valuesAt queries).1.filter (·.1.row == row) ∧
      (table'.valuesAt (queries.filter (·.row == row))).2.slots[row]? =
        (table.valuesAt queries).2.slots[row]? := by
  induction queries generalizing table table' with
  | nil => exact ⟨rfl, hslot⟩
  | cons query queries ih =>
    by_cases hrow : query.row = row
    · subst hrow
      have hanswer : (table'.valueAt query.row query.x query.n).1 =
          (table.valueAt query.row query.x query.n).1 := by
        rw [valueAt_eq, valueAt_eq, hslot, hsettings]
      have hkept : (table'.valueAt query.row query.x query.n).2.slots[query.row]? =
          (table.valueAt query.row query.x query.n).2.slots[query.row]? := by
        rw [valueAt_eq, valueAt_eq, List.getElem?_modify_eq, List.getElem?_modify_eq, hslot, hsettings]
      have hsettings' := (frame_valueAt table' query.row query.x query.n).1.trans
        (hsettings.trans (frame_valueAt table query.row query.x query.n).1.symm)
      obtain ⟨hanswers, hlast⟩ := ih hsettings' hkept
      simp only [List.filter_cons, beq_self_eq_true, if_true, valuesAt_cons]
      exact ⟨by rw [hanswer, hanswers], hlast⟩
    · obtain ⟨hsettings', -, -, hother⟩ := frame_valueAt table query.row query.x query.n
      have hrow' : (query.row == row) = false := beq_false_of_ne hrow
      simp only [List.filter_cons, hrow', valuesAt_cons]
      exact ih (hsettings.trans hsettings'.symm) (hslot.trans (hother row (Ne.symm hrow)).symm)

/-- The answers for a row, and what becomes of its slot, do not depend on requests for other rows. -/
theorem valuesAt_filter_row (table : Table R) :
    (∀ (queries : List (Query R)) (row : Nat),
      (table.valuesAt (queries.filter (·.row == row))).1 =
          (table.valuesAt queries).1.filter (·.1.row == row) ∧
        (table.valuesAt (queries.filter (·.row == row))).2.slots[row]? =
          (table.valuesAt queries).2.slots[row]?) ∧
    ∀ (row : Nat) (x : Abscissa R) (n : Int),
      let after := (table.valueAt row x n).2
      after.settings = table.settings ∧
        after.slots.map (·.typed) = table.slots.map (·.typed) ∧
        after.slots.map (·.compiled) = table.slots.map (·.compiled) ∧
        ∀ other, other ≠ row → after.slots[other]? = table.slots[other]? :=
  ⟨fun queries _ => valuesAt_filter_of_agree queries rfl rfl, table.frame_valueAt⟩

end Table

end ComplexSeries
