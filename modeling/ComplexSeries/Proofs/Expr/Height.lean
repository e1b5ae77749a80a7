import Mathlib.Logic.Relation
import Mathlib.Order.Lattice
import ComplexSeries.Expr.Basic

/-! The depth of a tree by recursion on it. The list of pending nodes is searched for the node that
lies deepest below the root, and each pending node contributes its level and its height. A round of
the search moves what a node contributes to its children, in whatever order they are put, and leaves
fewer nodes to visit. So every search ends, at the height of the tree. -/
namespace ComplexSeries.Expr

variable {R : Type}

/-- The number of nodes on the longest path, the root included. -/
def height : Expr R → Nat
  | const _ | constant _ | var _ => 1
  | binary _ a b | log a b => max a.height b.height + 1
  | call _ a => a.height + 1
  | aggregate _ lower upper body _ => max lower.height (max upper.height body.height) + 1

theorem height_pos (e : Expr R) : 0 < e.height := by
  cases e <;> simp [height]

theorem exists_eq_succ_of_height_le {e : Expr R} {levels : Nat} (h : e.height ≤ levels) :
    ∃ below, levels = below + 1 :=
  ⟨levels - 1, by have := e.height_pos; omega⟩

/-- The level of the deepest node below pending ones. -/
def reach (pending : List (Expr R × Nat)) : Nat :=
  pending.foldr (fun p best => max (p.2 + p.1.height - 1) best) 0

theorem reach_cons (e : Expr R) (level : Nat) (pending : List (Expr R × Nat)) :
    reach ((e, level) :: pending) = max (level + e.height - 1) (reach pending) := rfl

/-- A node lies as deep as the deepest of its children, or as itself if it has none. -/
theorem reach_children (e : Expr R) (level : Nat) (pending : List (Expr R × Nat)) :
    max level (reach (e.children.map (·, level + 1) ++ pending)) =
      reach ((e, level) :: pending) := by
  cases e with
  | const | constant | var => rw [reach_cons]; rfl
  | binary o a b | log a b =>
    have ha := a.height_pos
    have hb := b.height_pos
    simp only [children, List.map_cons, List.map_nil, List.cons_append, List.nil_append, reach_cons,
      height]
    omega
  | call f a =>
    have ha := a.height_pos
    simp only [children, List.map_cons, List.map_nil, List.cons_append, List.nil_append, reach_cons,
      height]
    omega
  | aggregate k lower upper body index =>
    have hl := lower.height_pos
    have hu := upper.height_pos
    have hb := body.height_pos
    simp only [children, List.map_cons, List.map_nil, List.cons_append, List.nil_append, reach_cons,
      height]
    omega

/-! ### The rounds of the search -/

/-- The pending node on top is visited, and its children are put on top instead, in any order. -/
inductive Round : Nat × List (Expr R × Nat) → Nat × List (Expr R × Nat) → Prop
  | visit (best level : Nat) (e : Expr R) (pending : List (Expr R × Nat))
      {pushed : List (Expr R × Nat)} (hpushed : pushed.Perm (e.children.map (·, level + 1))) :
      Round (best, (e, level) :: pending) (max best level, pushed ++ pending)

variable {s t : Nat × List (Expr R × Nat)}

theorem reach_perm {ps qs : List (Expr R × Nat)} (h : ps.Perm qs) : reach ps = reach qs := by
  apply h.foldr_eq'
  intros
  omega

theorem pendingSize_perm {ps qs : List (Expr R × Nat)} (h : ps.Perm qs) :
    pendingSize ps = pendingSize qs := by
  induction h with
  | nil => rfl
  | cons p _ ih => simp only [pendingSize, ih]
  | swap p q ps => simp only [pendingSize]; omega
  | trans _ _ ih ih' => exact ih.trans ih'

/-- The deepest node is among those that were visited or lies below a pending one. -/
theorem Round.reach_eq (h : Round s t) : max t.1 (reach t.2) = max s.1 (reach s.2) := by
  obtain ⟨best, level, e, pending, hpushed⟩ := h
  show max (max best level) (reach (_ ++ pending)) = max best (reach ((e, level) :: pending))
  rw [reach_perm (hpushed.append_right pending), Nat.max_assoc, reach_children]

theorem Round.pendingSize_lt (h : Round s t) : pendingSize t.2 < pendingSize s.2 := by
  obtain ⟨best, level, e, pending, hpushed⟩ := h
  rw [pendingSize_perm (hpushed.append_right pending)]
  exact pendingSize_children e level (level + 1) pending

theorem acc_round (s : Nat × List (Expr R × Nat)) : Acc (flip Round) s := by
  have hsize : Acc (InvImage (· < ·) fun s : Nat × List (Expr R × Nat) => pendingSize s.2) s :=
    InvImage.accessible _ (Nat.lt_wfRel.wf.apply _)
  exact Subrelation.accessible (fun h => Round.pendingSize_lt h) hsize

theorem exists_round (best : Nat) {pending : List (Expr R × Nat)} (h : pending ≠ []) :
    ∃ t, Round (best, pending) t := by
  obtain ⟨⟨e, level⟩, pending, rfl⟩ := List.exists_cons_of_ne_nil h
  exact ⟨_, .visit best level e pending (.refl _)⟩

/-- The search that puts the first child on top. -/
theorem reflTransGen_deepest (best : Nat) (pending : List (Expr R × Nat)) :
    Relation.ReflTransGen Round (best, pending) (deepest best pending, []) := by
  fun_induction deepest best pending with
  | case1 best => exact .refl
  | case2 best e level pending ih => exact .head (.visit best level e pending (.refl _)) ih

theorem reach_of_reflTransGen (h : Relation.ReflTransGen Round s t) :
    max t.1 (reach t.2) = max s.1 (reach s.2) := by
  induction h with
  | refl => rfl
  | tail _ hround ih => exact hround.reach_eq.trans ih

theorem deepest_eq (best : Nat) (pending : List (Expr R × Nat)) :
    deepest best pending = max best (reach pending) := by
  have h := reach_of_reflTransGen (reflTransGen_deepest best pending)
  exact (Nat.max_zero _).symm.trans h

theorem depth_eq_height (e : Expr R) : e.depth = e.height := by
  have h := e.height_pos
  rw [depth, deepest_eq, reach_cons]
  simp only [reach, List.foldr_nil]
  omega

theorem height_eq (e : Expr R) :
    e.height = match (e.children.map height).max? with
      | none => 1
      | some h => 1 + h := by
  cases e with
  | const | constant | var => rfl
  | binary o a b | log a b => exact Nat.add_comm _ 1
  | call f a => exact Nat.add_comm _ 1
  | aggregate k lower upper body index =>
    show max lower.height (max upper.height body.height) + 1 =
      1 + max (max lower.height upper.height) body.height
    omega

/-- No search of a tree goes on for ever, and one that cannot go on has visited every node and found the
depth. A leaf has depth one, any other tree one more than its deepest child. -/
theorem rounds_end_and_depth_eq (e : Expr R) :
    Acc (flip Round) (0, [(e, 1)]) ∧
      (∀ s, (Relation.ReflTransGen Round (0, [(e, 1)]) s ∧ ∀ t, ¬Round s t) ↔ s = (e.depth, [])) ∧
      e.depth = match (e.children.map depth).max? with
        | none => 1
        | some d => 1 + d := by
  refine ⟨acc_round _, fun s => ⟨?_, ?_⟩, ?_⟩
  · rintro ⟨hrun, hend⟩
    obtain ⟨best, pending⟩ := s
    obtain rfl : pending = [] := by
      by_contra hne
      obtain ⟨t, hround⟩ := exists_round best hne
      exact hend t hround
    have hbest : max best (reach []) = max 0 (reach [(e, 1)]) := reach_of_reflTransGen hrun
    rw [depth, deepest_eq, ← hbest]
    exact congrArg (·, []) (Nat.max_zero best).symm
  · rintro rfl
    exact ⟨reflTransGen_deepest 0 [(e, 1)], fun t h => nomatch h⟩
  · have hdepth : (depth : Expr R → Nat) = height := funext depth_eq_height
    rw [hdepth]
    exact height_eq e

end ComplexSeries.Expr
