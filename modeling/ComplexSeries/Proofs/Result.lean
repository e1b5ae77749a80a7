/-! When a chain of steps that may fail succeeds: every step does, so what every step keeps is kept. -/
namespace ComplexSeries.Result

variable {ε α β : Type}

theorem map_eq_ok_iff {x : Except ε α} {f : α → β} {b : β} :
    x.map f = .ok b ↔ ∃ a, x = .ok a ∧ f a = b := by
  cases x <;> simp [Except.map]

theorem bind_eq_ok_iff {x : Except ε α} {f : α → Except ε β} {b : β} :
    (x >>= f) = .ok b ↔ ∃ a, x = .ok a ∧ f a = .ok b := by
  cases x <;> simp [bind, Except.bind]

theorem bind_unit_eq_ok_iff {x : Except ε Unit} {f : Unit → Except ε β} {b : β} :
    (x >>= f) = .ok b ↔ x = .ok () ∧ f () = .ok b := by
  rw [bind_eq_ok_iff]
  exact ⟨fun ⟨(), h⟩ => h, fun h => ⟨(), h⟩⟩

theorem pure_eq_ok_iff {a b : α} : (pure a : Except ε α) = .ok b ↔ a = b := by
  simp [pure, Except.pure]

theorem run_bind {σ : Type} (t : ExceptT ε (StateM σ) α) (f : α → ExceptT ε (StateM σ) β) (s : σ) :
    (t >>= f).run.run s =
      match t.run.run s with
      | (.ok a, after) => (f a).run.run after
      | (.error cause, after) => (.error cause, after) := by
  rw [ExceptT.run_bind, StateT.run_bind]
  rcases t.run.run s with ⟨_ | a, after⟩ <;> rfl

theorem eq_ok_of_toOption {x : Except ε α} {a : α} (h : x.toOption = some a) : x = .ok a := by
  cases x with
  | error cause => cases h
  | ok b => exact congrArg Except.ok (Option.some.inj h)

/-- What holds at the start and is kept by every step that succeeds holds at the end. -/
theorem foldlM_invariant {P : β → Prop} {f : β → α → Except ε β} {as : List α} {b c : β}
    (hstep : ∀ b a c, P b → f b a = .ok c → P c) (hb : P b) (h : as.foldlM f b = .ok c) : P c := by
  induction as generalizing b with
  | nil => exact pure_eq_ok_iff.1 h ▸ hb
  | cons a as ih =>
    rw [List.foldlM_cons] at h
    obtain ⟨next, hnext, h⟩ := bind_eq_ok_iff.1 h
    exact ih (hstep b a next hb hnext) h

end ComplexSeries.Result
