import ComplexSeries.Input.Juxtaposition
import ComplexSeries.Proofs.Input.Neighbours

/-! Writing products. The result has no operand beside another, a list of that kind is left as it
is, and only products are written: brackets nest as before. -/
namespace ComplexSeries.Input

open Lexeme

theorem insertProducts_cons_cons (a b : Lexeme) (ls : List Lexeme) :
    insertProducts (a :: b :: ls) = a :: (link a b ++ insertProducts (b :: ls)) := rfl

theorem link_eq (a b : Lexeme) :
    (link a b = [] ∧ Parted a b) ∨
      (link a b = [operator .mul] ∧ a.endsOperand ∧ b.startsOperand) := by
  unfold link
  split
  · next h => exact .inr ⟨rfl, by simpa using h⟩
  · next h => exact .inl ⟨rfl, by simpa [Parted] using h⟩

theorem insertProducts_head? (ls : List Lexeme) : (insertProducts ls).head? = ls.head? := by
  match ls with
  | [] | [_] | _ :: _ :: _ => rfl

theorem mem_insertProducts {l : Lexeme} {ls : List Lexeme} (h : l ∈ insertProducts ls) :
    l ∈ ls ∨ l = operator .mul := by
  induction ls with
  | nil => exact .inl h
  | cons a ls ih =>
    cases ls with
    | nil => exact .inl h
    | cons b ls =>
      rw [insertProducts_cons_cons] at h
      rcases List.mem_cons.1 h with rfl | h
      · exact .inl List.mem_cons_self
      rcases List.mem_append.1 h with h | h
      · rcases link_eq a b with ⟨hl, -⟩ | ⟨hl, -⟩
        · simp [hl] at h
        · exact .inr (by simpa [hl] using h)
      · exact (ih h).imp_left (List.mem_cons_of_mem a)

theorem nesting_insertProducts (depth : Nat) (ls : List Lexeme) :
    nesting depth (insertProducts ls) = nesting depth ls := by
  induction ls generalizing depth with
  | nil => rfl
  | cons a ls ih =>
    cases ls with
    | nil => rfl
    | cons b ls =>
      have hlink : ∀ depth, nesting depth (link a b ++ insertProducts (b :: ls)) =
          nesting depth (b :: ls) := by
        intro depth
        rcases link_eq a b with ⟨hl, -⟩ | ⟨hl, -⟩
        · rw [hl, List.nil_append, ih]
        · rw [hl, List.singleton_append, nesting_cons rfl, ih]
      rw [insertProducts_cons_cons, ← List.singleton_append, nesting_append,
        ← List.singleton_append (l := b :: ls), nesting_append]
      simp only [hlink]

theorem insertProducts_isChain {ls : List Lexeme} (h : ls.IsChain Sound) :
    (insertProducts ls).IsChain Spaced := by
  induction ls with
  | nil => exact .nil
  | cons a ls ih =>
    cases ls with
    | nil => exact .singleton a
    | cons b ls =>
      rw [insertProducts_cons_cons]
      have hrest := ih h.of_cons
      rcases link_eq a b with ⟨hl, hp⟩ | ⟨hl, ha, hb⟩
      · rw [hl, List.nil_append]
        refine hrest.cons fun c hc => ?_
        rw [insertProducts_head?] at hc
        cases hc
        exact ⟨h.rel, hp⟩
      · rw [hl, List.singleton_append]
        refine (hrest.cons fun c hc => ?_).cons fun c hc => ?_
        · rw [insertProducts_head?] at hc
          cases hc
          exact (Settled.of_opens rfl (by simp) hb).toSpaced
        · cases hc
          exact (Settled.of_closes ha rfl).toSpaced

theorem insertProducts_eq_self {ls : List Lexeme} (h : ls.IsChain Parted) :
    insertProducts ls = ls := by
  induction ls with
  | nil => rfl
  | cons a ls ih =>
    cases ls with
    | nil => rfl
    | cons b ls =>
      rw [insertProducts_cons_cons, ih h.of_cons]
      rcases link_eq a b with ⟨hl, -⟩ | ⟨-, hab⟩
      · rw [hl, List.nil_append]
      · exact absurd hab h.rel

end ComplexSeries.Input
