import Mathlib.Data.Int.Notation
import Mathlib.Data.List.Infix

/-! How many brackets a sequence of any items opens and closes. A sequence is followed from the
depth at which it begins to the depth at which it ends. Read backwards, with the roles of the
brackets exchanged, it leads the other way. -/
namespace ComplexSeries.Bracket

variable {α : Type} {opens closes : α → Bool}

/-- How many brackets more are opened than closed. -/
def height (opens closes : α → Bool) (items : List α) : ℤ :=
  items.countP opens - items.countP closes

/-- A sequence begun at one depth ends at the other, and goes nowhere below depth zero. -/
structure Leads (opens closes : α → Bool) (depth after : ℤ) (items : List α) : Prop where
  ends : depth + height opens closes items = after
  above : ∀ start, start <+: items → 0 ≤ depth + height opens closes start

/-- As many brackets are closed as are opened, and at no place more. -/
def Balanced (opens closes : α → Bool) (items : List α) : Prop := Leads opens closes 0 0 items

@[simp] theorem height_nil : height opens closes [] = 0 := rfl

theorem height_append (xs ys : List α) :
    height opens closes (xs ++ ys) = height opens closes xs + height opens closes ys := by
  simp only [height, List.countP_append]
  omega

theorem height_cons (a : α) (as : List α) :
    height opens closes (a :: as) = height opens closes [a] + height opens closes as :=
  height_append [a] as

theorem height_reverse (items : List α) :
    height opens closes items.reverse = height opens closes items := by
  simp only [height, List.countP_reverse]

/-- Where the brackets exchange their roles, what was opened counts as closed. -/
theorem height_swap (items : List α) :
    height closes opens items = -height opens closes items := by
  simp only [height]
  omega

section

variable {a : α}

theorem height_open (ho : opens a) (hc : closes a = false) : height opens closes [a] = 1 := by
  simp [height, ho, hc]

theorem height_close (ho : opens a = false) (hc : closes a) : height opens closes [a] = -1 := by
  simp [height, ho, hc]

theorem height_other (ho : opens a = false) (hc : closes a = false) :
    height opens closes [a] = 0 := by
  simp [height, ho, hc]

end

variable {depth after : ℤ}

theorem Leads.nonneg {items : List α} (h : Leads opens closes depth after items) : 0 ≤ depth := by
  simpa using h.above [] List.nil_prefix

theorem leads_nil : Leads opens closes depth after [] ↔ 0 ≤ depth ∧ depth = after := by
  constructor
  · intro h
    exact ⟨h.nonneg, by simpa using h.ends⟩
  · rintro ⟨hdepth, rfl⟩
    refine ⟨by simp, fun start hstart => ?_⟩
    rw [List.prefix_nil.1 hstart]
    simpa using hdepth

/-- One item changes the depth at which the rest begins. -/
theorem leads_cons (hdepth : 0 ≤ depth) (a : α) (as : List α) :
    Leads opens closes depth after (a :: as) ↔
      Leads opens closes (depth + height opens closes [a]) after as := by
  constructor
  · intro h
    refine ⟨?_, fun start hstart => ?_⟩
    · rw [Int.add_assoc, ← height_cons]
      exact h.ends
    · rw [Int.add_assoc, ← height_cons]
      exact h.above _ ((List.prefix_cons_inj a).2 hstart)
  · intro h
    refine ⟨?_, fun start hstart => ?_⟩
    · rw [height_cons, ← Int.add_assoc]
      exact h.ends
    · rcases List.prefix_cons_iff.1 hstart with rfl | ⟨rest, rfl, hrest⟩
      · simpa using hdepth
      · rw [height_cons, ← Int.add_assoc]
        exact h.above rest hrest

theorem Leads.reverse {items : List α} (h : Leads opens closes depth after items) :
    Leads closes opens after depth items.reverse := by
  have hends := h.ends
  refine ⟨by rw [height_reverse, height_swap]; omega, fun start hstart => ?_⟩
  obtain ⟨rest, hrest⟩ := hstart
  -- What is left of an end is a beginning, and the two lead from the one depth to the other.
  have hitems : items = rest.reverse ++ start.reverse := by
    rw [← List.reverse_append, hrest, List.reverse_reverse]
  have habove := h.above rest.reverse ⟨start.reverse, hitems.symm⟩
  rw [hitems, height_append, height_reverse, height_reverse] at hends
  rw [height_reverse] at habove
  rw [height_swap]
  omega

end ComplexSeries.Bracket
