import ComplexSeries.Bracket.Pair
import ComplexSeries.Proofs.Lexeme.Nesting

/-! The two searches for the partner of a bracket find the same pairs. With brackets open, a search
stops where it has come back to depth zero for the first time; so what stands between two partners
is balanced, from left to right as well as from right to left. The sequence around the pair does not
matter. In a balanced sequence no search runs out of items. -/
namespace ComplexSeries.Bracket

variable {α : Type} {opens closes : α → Bool}

/-- No item is a bracket of both kinds. -/
def OneKind (opens closes : α → Bool) (items : List α) : Prop :=
  ∀ a ∈ items, ¬(opens a ∧ closes a)

/-- The item at `i` opens a bracket, the item at `j` closes one, and what stands between is
balanced. -/
def Partners (opens closes : α → Bool) (items : List α) (i j : ℕ) : Prop :=
  ∃ before a inner b after, items = before ++ a :: (inner ++ b :: after) ∧
    before.length = i ∧ before.length + (inner.length + 1) = j ∧ opens a ∧ closes b ∧
    Balanced opens closes inner

theorem OneKind.swap {items : List α} (h : OneKind opens closes items) :
    OneKind closes opens items := fun a ha hboth => h a ha hboth.symm

theorem oneKind_lexemes (ls : List Lexeme) : OneKind Lexeme.isOpen Lexeme.isClose ls := by
  intro l _ hboth
  cases l <;> simp [Lexeme.isOpen, Lexeme.isClose] at hboth

theorem OneKind.of_subset {items rest : List α} (h : OneKind opens closes items)
    (hsub : rest ⊆ items) : OneKind opens closes rest := fun a ha => h a (hsub ha)

/-! ### The search -/

section

variable {a : α} (as : List α)

theorem distance?_open (ho : opens a) (depth : ℕ) :
    distance? opens closes depth (a :: as) =
      (distance? opens closes (depth + 1) as).map (· + 1) := by
  rw [distance?.eq_def]
  simp only [ho, if_true]

theorem distance?_last (ho : opens a = false) (hc : closes a) :
    distance? opens closes 1 (a :: as) = some 0 := by
  rw [distance?.eq_def]
  simp [ho, hc]

theorem distance?_close (ho : opens a = false) (hc : closes a) (depth : ℕ) :
    distance? opens closes (depth + 2) (a :: as) =
      (distance? opens closes (depth + 1) as).map (· + 1) := by
  rw [distance?.eq_def]
  simp [ho, hc]

theorem distance?_other (ho : opens a = false) (hc : closes a = false) (depth : ℕ) :
    distance? opens closes depth (a :: as) = (distance? opens closes depth as).map (· + 1) := by
  rw [distance?.eq_def]
  simp [ho, hc]

end

/-- With brackets open, the search stops before the first item that closes them all. -/
theorem distance?_eq_some_iff {items : List α} (hkind : OneKind opens closes items) {depth d : ℕ} :
    distance? opens closes (depth + 1) items = some d ↔
      ∃ inner b after, items = inner ++ b :: after ∧ inner.length = d ∧ closes b ∧
        Leads opens closes depth 0 inner := by
  induction items generalizing depth d with
  | nil => simp [distance?]
  | cons a as ih =>
    have hnot : ¬(opens a ∧ closes a) := hkind a List.mem_cons_self
    have hrest : OneKind opens closes as := hkind.of_subset (List.subset_cons_self a as)
    -- An item that does not end the search is the first of what lies before the end.
    have hstep (next : ℕ) (hnext : (next : ℤ) = depth + height opens closes [a])
        (hgoes : closes a → (depth : ℤ) ≠ 0) :
        (distance? opens closes (next + 1) as).map (· + 1) = some d ↔
          ∃ inner b after, a :: as = inner ++ b :: after ∧ inner.length = d ∧ closes b ∧
            Leads opens closes depth 0 inner := by
      rw [Option.map_eq_some_iff]
      constructor
      · rintro ⟨e, he, rfl⟩
        obtain ⟨inner, b, after, rfl, rfl, hb, hinner⟩ := (ih hrest).1 he
        refine ⟨a :: inner, b, after, rfl, rfl, hb, ?_⟩
        rw [leads_cons (by omega), ← hnext]
        exact hinner
      · rintro ⟨inner, b, after, heq, rfl, hb, hinner⟩
        cases inner with
        | nil =>
          obtain ⟨rfl, rfl⟩ := List.cons.inj heq
          exact absurd (leads_nil.1 hinner).2 (hgoes hb)
        | cons c inner =>
          obtain ⟨rfl, rfl⟩ := List.cons.inj heq
          rw [leads_cons (by omega), ← hnext] at hinner
          exact ⟨inner.length, (ih hrest).2 ⟨inner, b, after, rfl, rfl, hb, hinner⟩, rfl⟩
    cases ho : opens a with
    | true =>
      have hc : closes a = false := by simpa [ho] using hnot
      rw [distance?_open as ho]
      exact hstep (depth + 1) (by rw [height_open ho hc]; rfl) (by simp [hc])
    | false =>
      cases hc : closes a with
      | false =>
        rw [distance?_other as ho hc]
        exact hstep depth (by rw [height_other ho hc]; rfl) (by simp [hc])
      | true =>
        cases depth with
        | zero =>
          rw [distance?_last as ho hc]
          constructor
          · intro h
            exact ⟨[], a, as, rfl, Option.some.inj h, hc, leads_nil.2 ⟨Int.le_refl 0, rfl⟩⟩
          · rintro ⟨inner, b, after, heq, rfl, hb, hinner⟩
            cases inner with
            | nil => rfl
            | cons c inner =>
              obtain ⟨rfl, rfl⟩ := List.cons.inj heq
              rw [leads_cons (by omega), height_close ho hc] at hinner
              exact absurd hinner.nonneg (by decide)
        | succ depth =>
          rw [distance?_close as ho hc]
          exact hstep depth (by rw [height_close ho hc]; omega) (by omega)

/-- The search comes to an end if as many brackets are closed as are open. -/
theorem exists_distance?_eq {items : List α} (hkind : OneKind opens closes items) (depth : ℕ)
    (h : depth + 1 + height opens closes items ≤ 0) :
    ∃ d, distance? opens closes (depth + 1) items = some d := by
  induction items generalizing depth with
  | nil =>
    rw [height_nil] at h
    omega
  | cons a as ih =>
    rw [height_cons] at h
    have hnot : ¬(opens a ∧ closes a) := hkind a List.mem_cons_self
    have hrest : OneKind opens closes as := hkind.of_subset (List.subset_cons_self a as)
    cases ho : opens a with
    | true =>
      have hc : closes a = false := by simpa [ho] using hnot
      rw [height_open ho hc] at h
      obtain ⟨d, hd⟩ := ih hrest (depth + 1) (by push_cast; omega)
      exact ⟨d + 1, by rw [distance?_open as ho, hd]; rfl⟩
    | false =>
      cases hc : closes a with
      | false =>
        rw [height_other ho hc] at h
        obtain ⟨d, hd⟩ := ih hrest depth (by omega)
        exact ⟨d + 1, by rw [distance?_other as ho hc, hd]; rfl⟩
      | true =>
        rw [height_close ho hc] at h
        cases depth with
        | zero => exact ⟨0, distance?_last as ho hc⟩
        | succ depth =>
          obtain ⟨d, hd⟩ := ih hrest depth (by push_cast at h; omega)
          exact ⟨d + 1, by rw [distance?_close as ho hc, hd]; rfl⟩

/-! ### Partners -/

theorem exists_eq_append_of_getElem? {items : List α} {i : ℕ} {a : α} (h : items[i]? = some a) :
    ∃ before after, items = before ++ a :: after ∧ before.length = i := by
  obtain ⟨hi, rfl⟩ := List.getElem?_eq_some_iff.1 h
  refine ⟨items.take i, items.drop (i + 1), ?_, List.length_take_of_le hi.le⟩
  rw [List.cons_getElem_drop_succ, List.take_append_drop]

/-- The search forwards finds the partner. -/
theorem closing?_eq_some_iff_partners {items : List α} (hkind : OneKind opens closes items)
    {i j : ℕ} {a : α} (hi : items[i]? = some a) (ha : opens a) :
    closing? opens closes items i = some j ↔ Partners opens closes items i j := by
  obtain ⟨before, rest, rfl, rfl⟩ := exists_eq_append_of_getElem? hi
  have hrest : OneKind opens closes rest := hkind.of_subset (by simp)
  have hsearch : closing? opens closes (before ++ a :: rest) before.length = some j ↔
      ∃ d, distance? opens closes (0 + 1) rest = some d ∧ before.length + (d + 1) = j := by
    rw [closing?, List.drop_left, distance?_open rest ha, Option.map_map, Option.map_eq_some_iff]
    rfl
  rw [hsearch]
  constructor
  · rintro ⟨d, hd, rfl⟩
    obtain ⟨inner, b, after, rfl, rfl, hb, hinner⟩ := (distance?_eq_some_iff hrest).1 hd
    exact ⟨before, a, inner, b, after, rfl, rfl, rfl, ha, hb, hinner⟩
  · rintro ⟨before', a', inner, b, after, heq, hlength, rfl, -, hb, hinner⟩
    obtain ⟨rfl, htail⟩ := List.append_inj heq hlength.symm
    obtain ⟨rfl, rfl⟩ := List.cons.inj htail
    have hd := (distance?_eq_some_iff hrest).2 ⟨inner, b, after, rfl, rfl, hb, hinner⟩
    exact ⟨inner.length, hd, rfl⟩

theorem opening?_append_cons (before after : List α) (b : α) :
    opening? opens closes (before ++ b :: after) before.length =
      (distance? closes opens 0 (b :: before.reverse)).map (before.length - ·) := by
  have htake : (before ++ b :: after).take (before.length + 1) = before ++ [b] := by
    simp [List.take_append]
  rw [opening?, htake, List.reverse_append]
  rfl

/-- The search backwards finds the partner. -/
theorem opening?_eq_some_iff_partners {items : List α} (hkind : OneKind opens closes items)
    {i j : ℕ} {b : α} (hj : items[j]? = some b) (hb : closes b) :
    opening? opens closes items j = some i ↔ Partners opens closes items i j := by
  obtain ⟨before, after, rfl, rfl⟩ := exists_eq_append_of_getElem? hj
  have hbefore : OneKind closes opens before.reverse := (hkind.of_subset (by simp)).swap
  have hsearch : opening? opens closes (before ++ b :: after) before.length = some i ↔
      ∃ d, distance? closes opens (0 + 1) before.reverse = some d ∧
        before.length - (d + 1) = i := by
    rw [opening?_append_cons, distance?_open _ hb, Option.map_map, Option.map_eq_some_iff]
    rfl
  rw [hsearch]
  constructor
  · rintro ⟨d, hd, rfl⟩
    obtain ⟨inner, a, start, heq, rfl, ha, hinner⟩ := (distance?_eq_some_iff hbefore).1 hd
    obtain rfl : before = start.reverse ++ a :: inner.reverse := by
      rw [← List.reverse_reverse before, heq]
      simp
    refine ⟨start.reverse, a, inner.reverse, b, after, by simp, ?_, ?_, ha, hb, hinner.reverse⟩
    · simp
    · simp
  · rintro ⟨start, a, inner, b', after', heq, rfl, hlength, ha, -, hinner⟩
    have hsplit : before ++ b :: after = (start ++ a :: inner) ++ b' :: after' := by simpa using heq
    obtain ⟨rfl, -⟩ := List.append_inj hsplit (by simpa using hlength.symm)
    refine ⟨inner.length, (distance?_eq_some_iff hbefore).2
      ⟨inner.reverse, a, start.reverse, by simp, by simp, ha, hinner.reverse⟩, ?_⟩
    rw [List.length_append, List.length_cons, Nat.add_sub_cancel]

/-- From a bracket to its partner and back: of an opening and a closing bracket the one finds the
other if that finds it, and then what stands between them is balanced. If the whole sequence is
balanced, every bracket finds a partner. -/
theorem closing?_eq_some_iff_opening? {items : List α} (hkind : OneKind opens closes items) :
    (∀ i j a b, items[i]? = some a → items[j]? = some b → opens a → closes b →
      (closing? opens closes items i = some j ↔ opening? opens closes items j = some i) ∧
      (opening? opens closes items j = some i ↔ Partners opens closes items i j)) ∧
    (Balanced opens closes items →
      (∀ i a, items[i]? = some a → opens a → ∃ j, closing? opens closes items i = some j) ∧
      ∀ j b, items[j]? = some b → closes b → ∃ i, opening? opens closes items j = some i) := by
  refine ⟨fun i j a b hi hj ha hb => ?_,
    fun hbalanced => ⟨fun i a hi ha => ?_, fun j b hj hb => ?_⟩⟩
  · have hforwards := closing?_eq_some_iff_partners hkind (j := j) hi ha
    have hbackwards := opening?_eq_some_iff_partners hkind (i := i) hj hb
    exact ⟨hforwards.trans hbackwards.symm, hbackwards⟩
  · obtain ⟨before, rest, rfl, rfl⟩ := exists_eq_append_of_getElem? hi
    have hc : closes a = false := by simpa [ha] using hkind a (by simp)
    -- Before the bracket at most as many are closed as opened, so after it one more is closed.
    have habove := hbalanced.above before (List.prefix_append _ _)
    have hends := hbalanced.ends
    rw [height_append, height_cons, height_open ha hc] at hends
    have hrest : OneKind opens closes rest := hkind.of_subset (by simp)
    obtain ⟨d, hd⟩ := exists_distance?_eq hrest 0 (by omega)
    exact ⟨_, by rw [closing?, List.drop_left, distance?_open rest ha, hd]; rfl⟩
  · obtain ⟨before, after, rfl, rfl⟩ := exists_eq_append_of_getElem? hj
    have ho : opens b = false := by simpa [hb] using hkind b (by simp)
    have habove := hbalanced.above (before ++ [b]) ⟨after, by simp⟩
    rw [height_append, height_close ho hb] at habove
    have hbefore : OneKind closes opens before.reverse := (hkind.of_subset (by simp)).swap
    obtain ⟨d, hd⟩ := exists_distance?_eq hbefore 0 (by rw [height_reverse, height_swap]; omega)
    exact ⟨_, by rw [opening?_append_cons, distance?_open _ hb, hd]; rfl⟩

/-- A pair in a sequence that closes too many brackets before it and opens one too many after it,
and the brackets of a balanced list. -/
theorem closing?_eq_some_iff_opening?_stray :
    let items := ")(a(b)c)(".toList
    let ls := [Lexeme.lparen, .letter 'x', .lparen, .letter 'n', .rparen, .rparen]
    OneKind (· == '(') (· == ')') items ∧ OneKind Lexeme.isOpen Lexeme.isClose ls ∧
      closing? (· == '(') (· == ')') items 1 = some 7 ∧
      opening? (· == '(') (· == ')') items 7 = some 1 ∧
      Partners (· == '(') (· == ')') items 1 7 ∧ Balanced Lexeme.isOpen Lexeme.isClose ls ∧
      (∃ j, closing? Lexeme.isOpen Lexeme.isClose ls 2 = some j) ∧
      ∃ i, opening? Lexeme.isOpen Lexeme.isClose ls 4 = some i := by
  intro items ls
  have hitems : OneKind (· == '(') (· == ')') items := by
    rintro a - ⟨ho, hc⟩
    rw [beq_iff_eq] at ho hc
    exact absurd (ho.symm.trans hc) (by decide)
  have hls : OneKind Lexeme.isOpen Lexeme.isClose ls := oneKind_lexemes ls
  have hforwards : closing? (· == '(') (· == ')') items 1 = some 7 := rfl
  obtain ⟨hiff, hpair⟩ := (closing?_eq_some_iff_opening? hitems).1 1 7 '(' ')' rfl rfl rfl rfl
  have hbackwards := hiff.1 hforwards
  have hbalanced : Balanced Lexeme.isOpen Lexeme.isClose ls := Lexeme.isBalanced_iff.1 rfl
  obtain ⟨hopening, hclosing⟩ := (closing?_eq_some_iff_opening? hls).2 hbalanced
  exact ⟨hitems, hls, hforwards, hbackwards, hpair.1 hbackwards, hbalanced, hopening 2 _ rfl rfl,
    hclosing 4 _ rfl rfl⟩

end ComplexSeries.Bracket
