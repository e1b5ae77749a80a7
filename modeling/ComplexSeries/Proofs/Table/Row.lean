import ComplexSeries.Table

/-! One request for a value. It is answered by the slot of the row alone, and what is learnt on the
way stays in that slot; nothing else in the table changes. -/
namespace ComplexSeries

variable {R : Type} [Scalar R]

/-- A real number is answered as it is, where zero is negligible. -/
theorem Abscissa.answer_ofReal {tolerance : R} (h : Scalar.abs (Scalar.zero : R) < tolerance)
    (x y : R) : answer tolerance (.ofReal y) (.real x) = .real y :=
  congrArg Ordinate.real (if_pos h)

/-! ### One slot -/

/-- The value of a slot at a point, and the slot with what it has learnt. -/
def Slot.valueAt (settings : Settings R) (slot : Slot R) (x : Abscissa R) (n : Int) :
    Option (Ordinate R) × Slot R :=
  match slot.compiled with
  | .error _ => (none, slot)
  | .ok ts =>
    match (evaluate settings ts x.value (Complex.ofInt n)).run slot.memory with
    | (.ok z, memory) => (some (x.answer settings.realTolerance z), { slot with memory })
    | (.error _, memory) => (none, { slot with memory })

section

variable (settings : Settings R) (slot : Slot R) (x : Abscissa R) (n : Int)

theorem Slot.valueAt_of_error {cause : ParseError} (h : slot.compiled = .error cause) :
    slot.valueAt settings x n = (none, slot) := by
  rw [valueAt, h]

theorem Slot.valueAt_of_ok {ts : List (Token R)} (h : slot.compiled = .ok ts) :
    slot.valueAt settings x n =
      let (result, memory) := (evaluate settings ts x.value (Complex.ofInt n)).run slot.memory
      (result.toOption.map (x.answer settings.realTolerance), { slot with memory }) := by
  obtain ⟨typed, compiled, memory⟩ := slot
  cases h
  simp only [valueAt]
  rcases (evaluate settings ts x.value (Complex.ofInt n)).run memory with ⟨_ | z, after⟩ <;> rfl

theorem Slot.typed_valueAt : (slot.valueAt settings x n).2.typed = slot.typed := by
  unfold valueAt
  split
  · rfl
  · split <;> rfl

theorem Slot.compiled_valueAt : (slot.valueAt settings x n).2.compiled = slot.compiled := by
  unfold valueAt
  split
  · rfl
  · split <;> rfl

end

namespace Table

theorem modify_congr {α : Type} {f g : α → α} {as : List α} {i : Nat}
    (h : ∀ a, as[i]? = some a → f a = g a) : as.modify i f = as.modify i g := by
  refine List.ext_getElem? fun j => ?_
  rw [List.getElem?_modify, List.getElem?_modify]
  cases hj : as[j]? with
  | none => rfl
  | some a =>
    by_cases hij : i = j
    · subst hij
      simp [h a hj]
    · simp [hij]

variable (table : Table R) (row : Nat) (x : Abscissa R) (n : Int)

/-- A table asks the slot of the row, and puts back what the slot has become. -/
theorem valueAt_eq : table.valueAt row x n =
    (table.slots[row]?.bind fun slot => (slot.valueAt table.settings x n).1,
      { table with slots := table.slots.modify row fun slot => (slot.valueAt table.settings x n).2 }) := by
  cases hslot : table.slots[row]? with
  | none =>
    have hkept : (table.slots.modify row fun slot => (slot.valueAt table.settings x n).2) =
        table.slots.modify row id := modify_congr fun slot h => by simp [hslot] at h
    rw [valueAt, hslot, hkept, List.modify_id]
    rfl
  | some slot =>
    have hkept (after : Slot R → Slot R) (h : (slot.valueAt table.settings x n).2 = after slot) :
        (table.slots.modify row fun slot => (slot.valueAt table.settings x n).2) =
          table.slots.modify row after := by
      refine modify_congr fun slot' hslot' => ?_
      obtain rfl : slot = slot' := Option.some.inj (hslot.symm.trans hslot')
      exact h
    rw [valueAt, hslot, Option.bind_some]
    dsimp only
    cases hc : slot.compiled with
    | error cause =>
      have hslot : slot.valueAt table.settings x n = (none, slot) := by rw [Slot.valueAt, hc]
      rw [hkept id (by rw [hslot]; rfl), List.modify_id, hslot]
    | ok ts =>
      rcases hrun : (evaluate table.settings ts x.value (Complex.ofInt n)).run slot.memory with
        ⟨_ | z, memory⟩
      · have hslot : slot.valueAt table.settings x n = (none, { slot with memory }) := by
          simp only [Slot.valueAt, hc, hrun]
        rw [hkept ({ · with memory }) (by rw [hslot]), hslot]
        simp only [hrun, withMemory]
      · have hslot : slot.valueAt table.settings x n =
            (some (x.answer table.settings.realTolerance z), { slot with memory }) := by
          simp only [Slot.valueAt, hc, hrun]
        rw [hkept ({ · with memory }) (by rw [hslot]), hslot]
        simp only [hrun, withMemory]

theorem map_modify_of_eq {α β : Type} {f : α → α} {g : α → β} (h : ∀ a, g (f a) = g a) (as : List α)
    (i : Nat) : (as.modify i f).map g = as.map g := by
  refine List.ext_getElem? fun j => ?_
  rw [List.getElem?_map, List.getElem?_map, List.getElem?_modify]
  cases as[j]? with
  | none => rfl
  | some a =>
    by_cases hij : i = j
    · simp [hij, h]
    · simp [hij]

theorem forall_mem_modify {α : Type} {P : α → Prop} {as : List α} {i : Nat} {f : α → α}
    (h : ∀ a ∈ as, P a) (hf : ∀ a, as[i]? = some a → P (f a)) : ∀ a ∈ as.modify i f, P a := by
  intro a ha
  obtain ⟨j, hj⟩ := List.mem_iff_getElem?.1 ha
  rw [List.getElem?_modify] at hj
  obtain ⟨old, hold, rfl⟩ := Option.map_eq_some_iff.1 hj
  by_cases hij : i = j
  · rw [if_pos hij]
    exact hf old (hij ▸ hold)
  · rw [if_neg hij]
    exact h old (List.mem_of_getElem? hold)

/-- No request changes the settings, what was typed, what it was compiled to, or another row. -/
theorem frame_valueAt :
    let after := (table.valueAt row x n).2
    after.settings = table.settings ∧
      after.slots.map (·.typed) = table.slots.map (·.typed) ∧
      after.slots.map (·.compiled) = table.slots.map (·.compiled) ∧
      ∀ other, other ≠ row → after.slots[other]? = table.slots[other]? := by
  rw [valueAt_eq]
  refine ⟨rfl, ?_, ?_, fun other hother => ?_⟩
  · exact map_modify_of_eq (fun slot => slot.typed_valueAt table.settings x n) _ _
  · exact map_modify_of_eq (fun slot => slot.compiled_valueAt table.settings x n) _ _
  · exact List.getElem?_modify_ne _ _ (Ne.symm hother)

end Table

end ComplexSeries
