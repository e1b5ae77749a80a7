import ComplexSeries.Proofs.Input.Declared
import ComplexSeries.Proofs.Input.Product
import ComplexSeries.Proofs.Input.Sign
import ComplexSeries.Proofs.Input.Mark

/-! No stage of the rewriting changes which letters are declared. Products and marks replace a piece
of a list by another that the pass over an argument list cannot tell from it. Brackets around signed
arguments are paid for later, so there the pass is followed step by step, as much deeper as brackets
are owed. -/
namespace ComplexSeries.Input

open Lexeme

/-- The letter declared by an aggregate and the argument list after it. -/
def opened? : Lexeme → List Lexeme → Option Char
  | keyword (.aggregate _), lparen :: ls => declared? ls
  | _, _ => none

theorem indices_cons (l : Lexeme) (ls : List Lexeme) :
    indices (l :: ls) = match opened? l ls with
      | none => indices ls
      | some c => if isVariable c then .error (.captureConflict c) else (indices ls).map (c :: ·) := by
  cases l with
  | keyword k =>
    cases k with
    | aggregate a =>
      match ls with
      | lparen :: ls => rfl
      | [] | number _ :: _ | keyword _ :: _ | letter _ :: _ | operator _ :: _ | rparen :: _
      | separator :: _ | degree :: _ | percent :: _ => rfl
    | _ => rfl
  | _ => rfl

theorem opened?_of_head?_ne (l : Lexeme) {ls : List Lexeme} (h : ls.head? ≠ some lparen) :
    opened? l ls = none := by
  unfold opened?
  split
  · exact absurd rfl h
  · rfl

theorem opened?_of_not_isAggregate {l : Lexeme} (h : ∀ a, l ≠ keyword (.aggregate a))
    (ls : List Lexeme) : opened? l ls = none := by
  unfold opened?
  split
  · exact absurd rfl (h _)
  · rfl

theorem indices_cons_of_not_isAggregate {l : Lexeme} (h : ∀ a, l ≠ keyword (.aggregate a))
    (ls : List Lexeme) : indices (l :: ls) = indices ls := by
  rw [indices_cons, opened?_of_not_isAggregate h]

theorem indices_congr {l : Lexeme} {ks ls : List Lexeme} (ho : opened? l ks = opened? l ls)
    (h : indices ks = indices ls) : indices (l :: ks) = indices (l :: ls) := by
  rw [indices_cons, indices_cons, ho, h]

/-! ### Lists that declare the same -/

/-- Two lists that declare the same letters, whatever stands before them. -/
structure Alike (ks ls : List Lexeme) : Prop where
  declared : ∀ depth n t, declaredFrom depth n t ks = declaredFrom depth n t ls
  opened : ∀ l, opened? l ks = opened? l ls
  indices : indices ks = indices ls

theorem opened?_lparen_congr {ks ls : List Lexeme}
    (h : declaredFrom 0 0 .empty ks = declaredFrom 0 0 .empty ls) (l : Lexeme) :
    opened? l (lparen :: ks) = opened? l (lparen :: ls) := by
  cases l with
  | keyword k =>
    cases k with
    | aggregate a => exact (declared?_eq ks).trans (h.trans (declared?_eq ls).symm)
    | _ => rfl
  | _ => rfl

theorem opened?_cons_congr {ks ls : List Lexeme}
    (h : ∀ depth n t, declaredFrom depth n t ks = declaredFrom depth n t ls) (k l : Lexeme) :
    opened? k (l :: ks) = opened? k (l :: ls) := by
  cases l with
  | lparen => exact opened?_lparen_congr (h 0 0 .empty) k
  | _ => rw [opened?_of_head?_ne k (by simp), opened?_of_head?_ne k (by simp)]

namespace Alike

variable {ks ls : List Lexeme}

theorem refl (ls : List Lexeme) : Alike ls ls := ⟨fun _ _ _ => rfl, fun _ => rfl, rfl⟩

theorem trans {js ks ls : List Lexeme} (h : Alike js ks) (h' : Alike ks ls) : Alike js ls :=
  ⟨fun depth n t => (h.declared depth n t).trans (h'.declared depth n t),
    fun l => (h.opened l).trans (h'.opened l), h.indices.trans h'.indices⟩

/-- Behind a lexeme it matters only what that lexeme opens. -/
theorem of_opened {l : Lexeme}
    (hd : ∀ depth n t, declaredFrom depth n t ks = declaredFrom depth n t ls)
    (ho : opened? l ks = opened? l ls) (hi : Input.indices ks = Input.indices ls) :
    Alike (l :: ks) (l :: ls) where
  declared depth n t := by
    rcases plain_cases l with rfl | rfl | rfl | hl
    · rw [declaredFrom_lparen, declaredFrom_lparen, hd]
    · cases depth with
      | zero => rfl
      | succ depth => rw [declaredFrom_succ_rparen, declaredFrom_succ_rparen, hd]
    · cases depth with
      | zero => rw [declaredFrom_separator, declaredFrom_separator, hd]
      | succ depth => rw [declaredFrom_succ_separator, declaredFrom_succ_separator, hd]
    · rw [declaredFrom_cons hl, declaredFrom_cons hl, hd]
  opened k := opened?_cons_congr hd k l
  indices := indices_congr ho hi

theorem cons (l : Lexeme) (h : Alike ks ls) : Alike (l :: ks) (l :: ls) :=
  of_opened h.declared (h.opened l) h.indices

theorem append_left (before : List Lexeme) (h : Alike ks ls) :
    Alike (before ++ ks) (before ++ ls) := by
  induction before with
  | nil => exact h
  | cons b before ih => exact ih.cons b

end Alike

/-! ### Products -/

/-- An argument that has begun before an operand is more than a letter. -/
theorem declaredFrom_of_startsOperand {l : Lexeme} (hl : l.startsOperand) {t : Content}
    (ht : t ≠ .empty) (depth n : Nat) (ls : List Lexeme) :
    declaredFrom depth n t (l :: ls) = declaredFrom depth n .other (l :: ls) := by
  rcases plain_cases l with rfl | rfl | rfl | hp
  · rw [declaredFrom_lparen, declaredFrom_lparen]
  · cases hl
  · cases hl
  · rw [declaredFrom_cons hp, declaredFrom_cons hp, Content.push_eq_other ht]
    rfl

theorem alike_product {a b : Lexeme} (ha : a.endsOperand) (hb : b.startsOperand)
    (ls : List Lexeme) : Alike (a :: operator .mul :: b :: ls) (a :: b :: ls) where
  declared depth n t := by
    rcases plain_cases a with rfl | rfl | rfl | hp
    · cases ha
    · cases depth with
      | zero => rfl
      | succ depth =>
        rw [declaredFrom_succ_rparen, declaredFrom_succ_rparen, declaredFrom_cons rfl]
        rfl
    · cases ha
    · rw [declaredFrom_cons hp, declaredFrom_cons hp, declaredFrom_cons rfl,
        Content.push_push, ← declaredFrom_of_startsOperand hb (t.push_ne_empty a)]
  opened k := by
    have ha' : a ≠ lparen := by rintro rfl; cases ha
    rw [opened?_of_head?_ne k (by simpa using ha'), opened?_of_head?_ne k (by simpa using ha')]
  indices := by
    have ha' : ∀ g, a ≠ keyword (.aggregate g) := by rintro g rfl; cases ha
    rw [indices_cons_of_not_isAggregate ha', indices_cons_of_not_isAggregate ha',
      indices_cons_of_not_isAggregate (by simp)]

theorem alike_insertProducts (ls : List Lexeme) : Alike (insertProducts ls) ls := by
  induction ls with
  | nil => exact .refl []
  | cons a ls ih =>
    cases ls with
    | nil => exact .refl [a]
    | cons b ls =>
      rw [insertProducts_cons_cons]
      rcases link_eq a b with ⟨hl, -⟩ | ⟨hl, ha, hb⟩
      · rw [hl]
        exact ih.cons a
      · rw [hl]
        exact ((ih.cons (operator .mul)).cons a).trans (alike_product ha hb ls)

/-! ### Signs -/

theorem declaredFrom_owed (depth n : Nat) (signed : Bool) {t : Content}
    (ht : signed = true → t = .other) (outer : List Bool) (ls : List Lexeme) :
    declaredFrom (depth + debt signed outer) n t (owed signed ++ ls) =
      declaredFrom (depth + debt false outer) n t ls := by
  cases signed with
  | false => rfl
  | true =>
    have hdebt : debt true outer = debt false outer + 1 := by simp [debt]
    rw [hdebt, ← Nat.add_assoc, ht rfl]
    exact declaredFrom_succ_rparen

theorem Content.push_of_isSign (t : Content) {l : Lexeme} (h : l.isSign) : t.push l = other := by
  cases l <;> first | (cases t <;> rfl) | cases h

theorem debt_false_cons (signed : Bool) (outer : List Bool) :
    debt false (signed :: outer) = debt signed outer := by
  simp [debt]

/-- The pass over the argument list of a level that is still open. Before it has met an inner bracket
or a sign, it reads the same as in the original; from then on nothing it reads is a letter. -/
theorem declaredFrom_rewriteSignsFrom {before : Before} {signed : Bool} {outer : List Bool}
    {ls : List Lexeme} (hs : signed = true → before = .operand)
    (hbal : nesting outer.length ls = some 0) {depth : Nat} (n : Nat) {t : Content}
    (hdepth : depth < outer.length)
    (ht : depth ≠ 0 ∨ signed = true → t = .other) :
    declaredFrom (depth + debt signed (outer.take depth)) n t
      (rewriteSignsFrom before signed outer ls) = declaredFrom depth n t ls := by
  fun_induction rewriteSignsFrom before signed outer ls generalizing depth n t with
  | case1 before signed outer =>
    rw [nesting_nil, Option.some.injEq] at hbal
    omega
  | case2 before signed outer ls ih =>
    rw [nesting_lparen] at hbal
    rw [declaredFrom_lparen, declaredFrom_lparen,
      ← ih (by simp) hbal n (Nat.succ_lt_succ hdepth) (fun _ => rfl), List.take_succ_cons,
      debt_false_cons, Nat.add_right_comm]
  | case3 before signed ls ih => cases hbal
  | case4 before signed ls level outer ih =>
    rw [List.length_cons, nesting_succ_rparen] at hbal
    rw [declaredFrom_owed _ _ _ (fun h => ht (.inr h))]
    cases depth with
    | zero => rfl
    | succ depth =>
      rw [List.take_succ_cons, debt_false_cons, Nat.add_right_comm, declaredFrom_succ_rparen,
        declaredFrom_succ_rparen]
      exact ih (fun _ => rfl) hbal n (Nat.lt_of_succ_lt_succ hdepth) (fun _ => rfl)
  | case5 before signed outer ls ih =>
    rw [nesting_cons rfl] at hbal
    rw [declaredFrom_owed _ _ _ (fun h => ht (.inr h))]
    cases depth with
    | zero => exact ih (by simp) hbal (n + 1) hdepth (by simp)
    | succ depth =>
      rw [Nat.add_right_comm, declaredFrom_succ_separator, declaredFrom_succ_separator,
        Nat.add_right_comm]
      exact ih (by simp) hbal n hdepth (fun _ => rfl)
  | case6 signed outer l ls ho hc hsep hsign ih =>
    have hl := isPlain_of_ne ho hc hsep
    rw [nesting_cons (isBracket_of_isPlain hl)] at hbal
    rw [declaredFrom_cons rfl, declaredFrom_cons hl, declaredFrom_cons hl,
      Content.push_of_isSign _ hsign, Content.push_of_isSign _ hsign]
    exact ih (fun _ => rfl) hbal n hdepth (fun _ => rfl)
  | case7 signed outer l ls ho hc hsep hsign ih =>
    have hl := isPlain_of_ne ho hc hsep
    rw [nesting_cons (isBracket_of_isPlain hl)] at hbal
    obtain rfl : signed = false := by
      cases signed with
      | false => rfl
      | true => cases hs rfl
    have hdebt : debt true (outer.take depth) = debt false (outer.take depth) + 1 := by
      simp [debt]
    rw [declaredFrom_lparen, declaredFrom_cons rfl, declaredFrom_cons hl, declaredFrom_cons hl,
      Content.push_of_isSign _ hsign, Content.push_of_isSign _ hsign, Nat.add_assoc, ← hdebt]
    exact ih (fun _ => rfl) hbal n hdepth (fun _ => rfl)
  | case8 signed outer l ls ho hc hsep _ ih | case9 before signed outer l ls ho hc hsep hsign ih =>
    have hl := isPlain_of_ne ho hc hsep
    rw [nesting_cons (isBracket_of_isPlain hl)] at hbal
    rw [declaredFrom_cons hl, declaredFrom_cons hl]
    exact ih (fun _ => rfl) hbal n hdepth fun h => by rw [ht h, Content.push_other]

/-- Behind an operand, a bracket is opened only where one was. -/
theorem head?_rewriteSignsFrom_operand {signed : Bool} {outer : List Bool} {ls : List Lexeme}
    (h : ls.head? ≠ some lparen) :
    (rewriteSignsFrom .operand signed outer ls).head? ≠ some lparen := by
  have howed : ∀ b (rs : List Lexeme), rs.head? ≠ some lparen →
      (owed b ++ rs).head? ≠ some lparen := by
    intro b rs hrs
    cases b <;> simp [owed, hrs]
  have hlast : ∀ bs : List Bool, (bs.flatMap owed).head? ≠ some lparen := by
    intro bs
    induction bs with
    | nil => simp
    | cons b bs ih => exact howed b _ ih
  cases ls with
  | nil => exact howed _ _ (hlast outer)
  | cons l ls =>
    cases l with
    | lparen => exact absurd rfl h
    | rparen => cases outer <;> exact howed _ _ (by simp)
    | separator => exact howed _ _ (by simp)
    | _ => simp [rewriteSignsFrom]

theorem opened?_rewriteSignsFrom (l : Lexeme) {signed : Bool} {outer : List Bool}
    {ls : List Lexeme} (hbal : nesting outer.length ls = some 0) :
    opened? l (rewriteSignsFrom .operand signed outer ls) = opened? l ls := by
  by_cases h : ls.head? = some lparen
  · obtain ⟨rest, rfl⟩ : ∃ rest, ls = lparen :: rest := ⟨ls.tail, List.eq_cons_of_mem_head? h⟩
    have hbal' : nesting (signed :: outer).length rest = some 0 := by simpa using hbal
    have hs : false = true → Before.opening = .operand := by simp
    have ht : 0 ≠ 0 ∨ false = true → Content.empty = .other := by simp
    exact opened?_lparen_congr (declaredFrom_rewriteSignsFrom hs hbal' 0 (Nat.succ_pos _) ht) l
  · rw [opened?_of_head?_ne l h, opened?_of_head?_ne l (head?_rewriteSignsFrom_operand h)]

theorem indices_owed (signed : Bool) (ls : List Lexeme) : indices (owed signed ++ ls) = indices ls := by
  cases signed with
  | false => rfl
  | true => exact indices_cons_of_not_isAggregate (by simp) ls

theorem indices_rewriteSignsFrom {before : Before} {signed : Bool} {outer : List Bool}
    {ls : List Lexeme} (hbal : nesting outer.length ls = some 0) :
    indices (rewriteSignsFrom before signed outer ls) = indices ls := by
  fun_induction rewriteSignsFrom before signed outer ls with
  | case1 before signed outer =>
    rw [nesting_nil, Option.some.injEq, List.length_eq_zero_iff] at hbal
    rw [indices_owed, hbal]
    rfl
  | case2 before signed outer ls ih => exact ih hbal
  | case3 before signed ls ih => cases hbal
  | case4 before signed ls level outer ih => exact (indices_owed _ _).trans (ih hbal)
  | case5 before signed outer ls ih => exact (indices_owed _ _).trans (ih hbal)
  | case6 signed outer l ls ho hc hsep hsign ih | case7 signed outer l ls ho hc hsep hsign ih =>
    rw [nesting_cons (isBracket_eq_false ho hc)] at hbal
    have hl : ∀ a, l ≠ keyword (.aggregate a) := by rintro a rfl; cases hsign
    have hzero : ∀ a, zero ≠ keyword (.aggregate a) := by simp [zero]
    simp only [indices_cons_of_not_isAggregate hl, indices_cons_of_not_isAggregate hzero,
      indices_cons_of_not_isAggregate (l := lparen) (by simp), ih hbal]
  | case8 signed outer l ls ho hc hsep _ ih | case9 before signed outer l ls ho hc hsep hsign ih =>
    rw [nesting_cons (isBracket_eq_false ho hc)] at hbal
    exact indices_congr (opened?_rewriteSignsFrom l hbal) (ih hbal)

theorem indices_rewriteSigns {ls : List Lexeme} (h : IsBalanced ls) :
    indices (rewriteSigns ls) = indices ls := by
  have hbal : nesting ([] : List Bool).length ls = some 0 := h
  exact indices_rewriteSignsFrom hbal

/-! ### Marks -/

/-- Inside of brackets nothing is read that the argument list is cut at. -/
theorem declaredFrom_append_of_nesting {depth after : Nat} {ws : List Lexeme}
    (h : nesting depth ws = some after) (n : Nat) (ls : List Lexeme) :
    declaredFrom (depth + 1) n .other (ws ++ ls) = declaredFrom (after + 1) n .other ls := by
  induction ws generalizing depth with
  | nil => rw [nesting_nil, Option.some.injEq] at h; rw [h]; rfl
  | cons l ws ih =>
    rw [List.cons_append]
    rcases plain_cases l with rfl | rfl | rfl | hl
    · rw [declaredFrom_lparen]
      exact ih (by simpa using h)
    · cases depth with
      | zero => cases h
      | succ depth =>
        rw [declaredFrom_succ_rparen]
        exact ih (by simpa using h)
    · rw [declaredFrom_succ_separator]
      exact ih (by rwa [nesting_cons rfl] at h)
    · rw [declaredFrom_cons hl, Content.push_other]
      exact ih (by rwa [nesting_cons (isBracket_of_isPlain hl)] at h)

theorem declaredFrom_group {inner : List Lexeme} (h : IsBalanced inner) (depth n : Nat) (t : Content)
    (ls : List Lexeme) :
    declaredFrom depth n t (lparen :: inner ++ [rparen] ++ ls) = declaredFrom depth n .other ls := by
  rw [List.append_assoc, List.cons_append, declaredFrom_lparen,
    declaredFrom_append_of_nesting (h.nesting depth), List.singleton_append,
    declaredFrom_succ_rparen]

/-- An operand is part of one argument, which is not empty then. -/
theorem Operand.declaredFrom_append {operand : List Lexeme} (h : Operand operand)
    (depth n : Nat) (t : Content) :
    ∃ u ≠ .empty, ∀ ls, declaredFrom depth n t (operand ++ ls) = declaredFrom depth n u ls := by
  cases h with
  | @word l hw _ =>
    have hl : l.isPlain := by cases l <;> first | rfl | cases hw
    exact ⟨_, t.push_ne_empty l, fun ls => declaredFrom_cons hl⟩
  | group hi => exact ⟨.other, by simp, declaredFrom_group hi depth n t⟩
  | @call k inner _ hi =>
    refine ⟨.other, by simp, fun ls => ?_⟩
    rw [List.cons_append, declaredFrom_cons rfl]
    exact declaredFrom_group hi depth n _ ls

theorem declaredFrom_factorOf (mark : Lexeme) (depth n : Nat) (after : List Lexeme) :
    declaredFrom (depth + 1) n .other (factorOf mark ++ after) =
      declaredFrom depth n .other after := by
  cases mark <;> rfl

theorem isPlain_of_isMark {mark : Lexeme} (h : mark.isMark) : mark.isPlain := by
  cases mark <;> first | rfl | cases h

theorem declaredFrom_expand {operand : List Lexeme} {mark : Lexeme} (ho : Operand operand)
    (hm : mark.isMark) (after : List Lexeme) (depth n : Nat) (t : Content) :
    declaredFrom depth n t (lparen :: (operand ++ factorOf mark ++ after)) =
      declaredFrom depth n t (operand ++ mark :: after) := by
  obtain ⟨u, hu, hplain⟩ := ho.declaredFrom_append depth n t
  rw [hplain, declaredFrom_cons (isPlain_of_isMark hm), Content.push_eq_other hu,
    declaredFrom_lparen, List.append_assoc,
    declaredFrom_append_of_nesting (ho.balanced.nesting depth), declaredFrom_factorOf]

/-- What is read of an argument list ends where the list does. -/
theorem declaredFrom_append_of_none {depth : Nat} {ws : List Lexeme}
    (h : nesting depth ws = none) (n : Nat) (t : Content) (ls : List Lexeme) :
    declaredFrom depth n t (ws ++ ls) = declaredFrom depth n t ws := by
  induction ws generalizing depth n t with
  | nil => simp at h
  | cons l ws ih =>
    rw [List.cons_append]
    rcases plain_cases l with rfl | rfl | rfl | hl
    · rw [declaredFrom_lparen, declaredFrom_lparen]
      exact ih (by simpa using h) n .other
    · cases depth with
      | zero => rfl
      | succ depth =>
        rw [declaredFrom_succ_rparen, declaredFrom_succ_rparen]
        exact ih (by simpa using h) n .other
    · rw [nesting_cons rfl] at h
      cases depth with
      | zero => exact ih h (n + 1) .empty
      | succ depth =>
        rw [declaredFrom_succ_separator, declaredFrom_succ_separator]
        exact ih h n .other
    · rw [declaredFrom_cons hl, declaredFrom_cons hl]
      exact ih (by rwa [nesting_cons (isBracket_of_isPlain hl)] at h) n _

theorem nesting_zero_eq_none {depth after : Nat} {ws : List Lexeme}
    (h : nesting depth ws = some after) (hlt : after < depth) : nesting 0 ws = none := by
  cases hz : nesting 0 ws with
  | none => rfl
  | some d =>
    have := nesting_add hz depth
    rw [Nat.zero_add, h, Option.some.injEq] at this
    omega

/-- The argument lists in a balanced piece end in it. -/
theorem indices_append_congr {depth : Nat} {ws ks ls : List Lexeme}
    (h : nesting depth ws = some 0) (hlast : ∀ l ∈ ws.getLast?, l.endsOperand)
    (hi : indices ks = indices ls) : indices (ws ++ ks) = indices (ws ++ ls) := by
  induction ws generalizing depth with
  | nil => exact hi
  | cons w ws ih =>
    obtain ⟨after, hafter⟩ : ∃ after, nesting after ws = some 0 := by
      rcases plain_cases w with rfl | rfl | rfl | hw
      · exact ⟨_, by simpa using h⟩
      · cases depth with
        | zero => cases h
        | succ depth => exact ⟨depth, by simpa using h⟩
      · exact ⟨depth, by rwa [nesting_cons rfl] at h⟩
      · exact ⟨depth, by rwa [nesting_cons (isBracket_of_isPlain hw)] at h⟩
    cases ws with
    | nil =>
      have hw : ∀ a, w ≠ keyword (.aggregate a) := by
        rintro a rfl
        have hend := hlast (keyword (.aggregate a)) (by simp)
        cases hend
      rw [List.singleton_append, List.singleton_append, indices_cons_of_not_isAggregate hw,
        indices_cons_of_not_isAggregate hw, hi]
    | cons v vs =>
      refine indices_congr ?_ (ih hafter (by simpa using hlast))
      by_cases hv : v = lparen
      · subst hv
        rw [nesting_lparen] at hafter
        have hnone := nesting_zero_eq_none hafter (Nat.succ_pos _)
        exact opened?_lparen_congr ((declaredFrom_append_of_none hnone 0 .empty ks).trans
          (declaredFrom_append_of_none hnone 0 .empty ls).symm) w
      · rw [opened?_of_head?_ne w (by simpa using hv), opened?_of_head?_ne w (by simpa using hv)]

/-- An operand and its factor are an argument list of one argument. -/
theorem declaredFrom_call_factorOf {operand : List Lexeme} (ho : Operand operand)
    (mark : Lexeme) (after : List Lexeme) :
    declaredFrom 0 0 .empty (operand ++ factorOf mark ++ after) = none := by
  obtain ⟨u, -, hu⟩ := ho.declaredFrom_append 0 0 .empty
  rw [List.append_assoc, hu]
  cases mark <;> rfl

/-- One expansion. Only where a group would become the argument list of an aggregate, and it is none
by then, could the lists be told apart. -/
theorem indices_expand {before operand after : List Lexeme} {mark : Lexeme} (ho : Operand operand)
    (hwhole : Whole before operand) (hm : mark.isMark) :
    indices (before ++ lparen :: (operand ++ factorOf mark ++ after)) =
      indices (before ++ (operand ++ mark :: after)) := by
  have hfactor : indices (factorOf mark ++ after) = indices (mark :: after) := by
    rw [indices_cons_of_not_isAggregate (by rintro a rfl; cases hm)]
    cases mark <;> rfl
  have hi : indices (lparen :: (operand ++ factorOf mark ++ after)) =
      indices (operand ++ mark :: after) := by
    rw [indices_cons_of_not_isAggregate (by simp), List.append_assoc]
    exact indices_append_congr ho.balanced
      (fun l hl => by obtain ⟨z, hz, he⟩ := ho.getLast_endsOperand; rw [hz] at hl; cases hl; exact he)
      hfactor
  rcases List.eq_nil_or_concat before with rfl | ⟨init, z, rfl⟩
  · exact hi
  have hz : opened? z (lparen :: (operand ++ factorOf mark ++ after)) =
      opened? z (operand ++ mark :: after) := by
    by_cases hagg : ∃ a, z = keyword (.aggregate a)
    · obtain ⟨a, rfl⟩ := hagg
      have hhead : (operand ++ mark :: after).head? ≠ some lparen := by
        obtain ⟨l, hl, -⟩ := ho.head_startsOperand
        rw [List.head?_append, hl, Option.some_or]
        intro h
        cases h
        exact absurd (hwhole hl (.aggregate a) (by simp)) (by simp [Keyword.isConstant])
      rw [opened?_of_head?_ne _ hhead]
      exact (declared?_eq _).trans (declaredFrom_call_factorOf ho mark after)
    · have hz' : ∀ a, z ≠ keyword (.aggregate a) := fun a h => hagg ⟨a, h⟩
      rw [opened?_of_not_isAggregate hz', opened?_of_not_isAggregate hz']
  have halike := (Alike.of_opened (declaredFrom_expand ho hm after) hz hi).append_left init
  simpa using halike.indices

theorem Expansion.indices_eq {ls rs : List Lexeme} (h : Expansion ls rs) :
    indices rs = indices ls := by
  induction h with
  | done => rfl
  | @step before operand after ls mark ho hwhole hm _ ih => rw [ih, indices_expand ho hwhole hm]

end ComplexSeries.Input
