import Mathlib.Data.List.Infix
import Mathlib.Data.List.Nodup
import ComplexSeries.Keyword

/-! The longest name that begins a text, said without the search: it begins the text and no name
that begins the text is longer. Names of one length that begin one text are equal, so this
determines it. A longer name goes on from another one by a single letter, unless that is a constant;
so the letter after a name tells whether it is read on. -/
namespace ComplexSeries.Keyword

theorem letters_inj {k m : Keyword} (h : k.letters = m.letters) : k = m := by
  have hnodup : (all.map letters).Nodup := by decide +kernel
  exact List.inj_on_of_nodup_map hnodup (mem_all k) (mem_all m) h

theorem forall_of_forall_all {p : Keyword → Prop} (h : ∀ k ∈ all, p k) (k : Keyword) : p k :=
  h k (mem_all k)

theorem letters_ne_nil (k : Keyword) : k.letters ≠ [] :=
  forall_of_forall_all (p := fun k => k.letters ≠ []) (by decide) k

theorem isAlpha_of_mem_letters {k : Keyword} {c : Char} (h : c ∈ k.letters) : c.isAlpha :=
  List.all_eq_true.1
    (forall_of_forall_all (p := fun k => k.letters.all Char.isAlpha) (by decide +kernel) k) c h

/-! ### The fold over the names -/

theorem foldl_longer_eq_none {ks : List Keyword} {best : Option Keyword} :
    ks.foldl longer best = none ↔ best = none ∧ ks = [] := by
  induction ks generalizing best with
  | nil => simp
  | cons k ks ih =>
    have hk : longer best k ≠ none := by
      cases best with
      | none => simp [longer]
      | some b => simp only [longer]; split <;> simp
    simp [ih, hk]

theorem mem_of_foldl_longer {ks : List Keyword} {best : Option Keyword} {k : Keyword}
    (h : ks.foldl longer best = some k) : best = some k ∨ k ∈ ks := by
  induction ks generalizing best with
  | nil => exact .inl h
  | cons m ks ih =>
    rcases ih h with hb | hm
    · cases best with
      | none => simp only [longer, Option.some.injEq] at hb; simp [hb]
      | some b =>
        simp only [longer] at hb
        split at hb
        · simp only [Option.some.injEq] at hb; simp [hb]
        · exact .inl hb
    · exact .inr (List.mem_cons_of_mem m hm)

theorem length_le_of_foldl_longer {ks : List Keyword} {best : Option Keyword} {k : Keyword}
    (h : ks.foldl longer best = some k) :
    ∀ m, best = some m ∨ m ∈ ks → m.letters.length ≤ k.letters.length := by
  induction ks generalizing best with
  | nil =>
    rintro m (hm | hm)
    · simp only [List.foldl_nil] at h; rw [h] at hm; cases hm; exact le_rfl
    · simp at hm
  | cons j ks ih =>
    have step : ∀ m, best = some m ∨ m = j → m.letters.length ≤ k.letters.length := by
      intro m hm
      cases hb : best with
      | none =>
        have hj := ih h j (.inl (by simp [hb, longer]))
        rcases hm with hm | rfl
        · simp [hb] at hm
        · exact hj
      | some b =>
        by_cases hlt : b.letters.length < j.letters.length
        · have hj := ih h j (.inl (by simp [hb, longer, hlt]))
          rcases hm with hm | rfl
          · simp only [hb, Option.some.injEq] at hm; subst hm; omega
          · exact hj
        · have hj := ih h b (.inl (by simp [hb, longer, hlt]))
          rcases hm with hm | rfl
          · simp only [hb, Option.some.injEq] at hm; subst hm; exact hj
          · omega
    rintro m (hm | hm)
    · exact step m (.inl hm)
    · rcases List.mem_cons.1 hm with rfl | hm
      · exact step m (.inr rfl)
      · exact ih h m (.inr hm)

/-! ### The longest name -/

theorem mem_candidates {k : Keyword} {cs : List Char} :
    k ∈ all.filter (·.letters.isPrefixOf cs) ↔ k.letters <+: cs := by
  simp [mem_all]

theorem longest?_eq_none_iff {cs : List Char} :
    longest? cs = none ↔ ∀ k : Keyword, ¬ k.letters <+: cs := by
  unfold longest?
  rw [foldl_longer_eq_none, List.eq_nil_iff_forall_not_mem]
  simp only [mem_candidates, true_and]

theorem longest?_eq_some_iff {cs : List Char} {k : Keyword} :
    longest? cs = some k ↔
      k.letters <+: cs ∧ ∀ m : Keyword, m.letters <+: cs → m.letters.length ≤ k.letters.length := by
  constructor
  · intro h
    have hmem : k ∈ all.filter (·.letters.isPrefixOf cs) := by
      simpa using mem_of_foldl_longer h
    exact ⟨mem_candidates.1 hmem, fun m hm =>
      length_le_of_foldl_longer h m (.inr (mem_candidates.2 hm))⟩
  · rintro ⟨hk, hmax⟩
    cases hj : longest? cs with
    | none => exact absurd hk (longest?_eq_none_iff.1 hj k)
    | some j =>
      have hjp : j.letters <+: cs :=
        mem_candidates.1 (by simpa using mem_of_foldl_longer hj)
      have hlen : j.letters.length = k.letters.length :=
        le_antisymm (hmax j hjp) (length_le_of_foldl_longer hj k (.inr (mem_candidates.2 hk)))
      have heq : j.letters = k.letters :=
        (List.prefix_of_prefix_length_le hjp hk hlen.le).eq_of_length hlen
      rw [letters_inj heq]

/-! ### Names side by side -/

/-- A name other than a constant goes on by one letter at most. -/
theorem length_le_succ {k m : Keyword} (hk : k.isConstant = false) (h : k.letters <+: m.letters) :
    m.letters.length ≤ k.letters.length + 1 := by
  have hall : ∀ k ∈ all, ∀ m ∈ all, k.isConstant = false → k.letters.isPrefixOf m.letters = true →
      m.letters.length ≤ k.letters.length + 1 := by decide +kernel
  exact hall k (mem_all k) m (mem_all m) hk (List.isPrefixOf_iff_prefix.2 h)

/-- A name is not lengthened by a text that is no continuation of it. -/
theorem longest?_append {k : Keyword} {cs : List Char} (hk : k.isConstant = false)
    (hc : ∀ c ∈ cs.head?, ∀ m : Keyword, m.letters ≠ k.letters ++ [c]) :
    longest? (k.letters ++ cs) = some k := by
  refine longest?_eq_some_iff.2 ⟨List.prefix_append _ _, fun m hm => ?_⟩
  by_contra hlt
  rw [not_le] at hlt
  have hpre : k.letters <+: m.letters :=
    List.prefix_of_prefix_length_le (List.prefix_append _ _) hm hlt.le
  obtain ⟨tail, htail⟩ := hpre
  rw [← htail, List.prefix_append_right_inj] at hm
  have hlen := length_le_succ hk ⟨tail, htail⟩
  rw [← htail, List.length_append] at hlen hlt
  match tail, hm with
  | [], _ => simp at hlt
  | [c], hm => exact hc c (by obtain ⟨u, rfl⟩ := hm; simp) m htail.symm
  | _ :: _ :: _, _ => simp only [List.length_cons] at hlen; omega

/-- Where no letter follows, the names that begin a text lie in its first part. -/
theorem prefix_append_iff_of_not_isAlpha {k : Keyword} {w cs : List Char}
    (hc : ∀ c ∈ cs.head?, c.isAlpha = false) : k.letters <+: w ++ cs ↔ k.letters <+: w := by
  refine ⟨fun h => ?_, fun h => h.trans (List.prefix_append _ _)⟩
  rcases List.prefix_or_prefix_of_prefix h (List.prefix_append w cs) with hw | ⟨tail, htail⟩
  · exact hw
  · rw [← htail, List.prefix_append_right_inj] at h
    match tail, h with
    | [], _ => rw [← htail, List.append_nil]
    | c :: tail, ⟨u, hu⟩ =>
      have hmem : c ∈ k.letters := by rw [← htail]; simp
      have hcs : c ∈ cs.head? := by rw [← hu]; simp
      exact absurd (isAlpha_of_mem_letters hmem) (by simp [hc c hcs])

theorem longest?_append_of_not_isAlpha {w cs : List Char}
    (hc : ∀ c ∈ cs.head?, c.isAlpha = false) : longest? (w ++ cs) = longest? w := by
  cases h : longest? w with
  | none =>
    rw [longest?_eq_none_iff] at h ⊢
    exact fun k hk => h k ((prefix_append_iff_of_not_isAlpha hc).1 hk)
  | some k =>
    rw [longest?_eq_some_iff] at h ⊢
    exact ⟨(prefix_append_iff_of_not_isAlpha hc).2 h.1,
      fun m hm => h.2 m ((prefix_append_iff_of_not_isAlpha hc).1 hm)⟩

theorem longest?_letters (k : Keyword) : longest? k.letters = some k :=
  forall_of_forall_all (p := fun k => longest? k.letters = some k) (by decide +kernel) k

end ComplexSeries.Keyword
