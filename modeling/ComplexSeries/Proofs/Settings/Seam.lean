import Mathlib.Data.List.DropRight
import ComplexSeries.Proofs.Settings.Reader

/-! Reading what stands above a line break. No name and no value goes on across one, and a colon or a
comma is looked for on the same line. So the same items are read above the break whatever stands below
it, and none where there was none before. Only the gap after an item goes on, and where it reaches a
title the pairs of a section end, since a title has no colon. -/
namespace ComplexSeries.Settings.Reader

/-- What may stand below a line: nothing, or a line break and more. -/
def Broken (t : List Char) : Prop := ∀ c ∈ t.head?, c = '\n' ∨ c = '\r'

variable {t : List Char}

theorem Broken.head_eq_false (ht : Broken t) {p : Char → Bool} (hline : p '\n' = false)
    (hreturn : p '\r' = false) : ∀ c ∈ t.head?, p c = false := by
  intro c hc
  rcases ht c hc with rfl | rfl
  · exact hline
  · exact hreturn

theorem takeWhile_append_of_head {p : Char → Bool} (h : ∀ c ∈ t.head?, p c = false) (u : List Char) :
    (u ++ t).takeWhile p = u.takeWhile p := by
  induction u with
  | nil =>
    cases t with
    | nil => rfl
    | cons c t => exact List.takeWhile_cons_of_neg (by simp [h c rfl])
  | cons c u ih => rw [List.cons_append, List.takeWhile_cons, List.takeWhile_cons, ih]

theorem dropWhile_append_of_head {p : Char → Bool} (h : ∀ c ∈ t.head?, p c = false) (u : List Char) :
    (u ++ t).dropWhile p = u.dropWhile p ++ t := by
  induction u with
  | nil =>
    cases t with
    | nil => rfl
    | cons c t => exact List.dropWhile_cons_of_neg (by simp [h c rfl])
  | cons c u ih =>
    rw [List.cons_append, List.dropWhile_cons, List.dropWhile_cons, ih]
    split <;> rfl

/-- The item is read as if nothing followed. -/
def Apart {α : Type} (item : List Char → Option (α × List Char)) (t : List Char) : Prop :=
  ∀ u, item (u ++ t) = (item u).map fun p => (p.1, p.2 ++ t)

theorem Many.append_of_apart {α : Type} {item : List Char → Option (α × List Char)}
    {u rest : List Char} {as : List α} (hitem : Apart item t) (h : Many item u as rest) :
    Many item (u ++ t) as (rest ++ t) := by
  induction h with
  | stop hnone => exact .stop (by rw [hitem, hnone]; rfl)
  | step hsome _ ih => exact .step (by rw [hitem, hsome]; rfl) ih

section

variable (ht : Broken t)

include ht

theorem skipSpaces_append (u : List Char) : skipSpaces (u ++ t) = skipSpaces u ++ t :=
  dropWhile_append_of_head (ht.head_eq_false rfl rfl) u

theorem apart_name? : Apart name? t := by
  intro u
  have hhead := ht.head_eq_false (p := continuesName) rfl rfl
  cases u with
  | nil =>
    cases t with
    | nil => rfl
    | cons c t => exact if_neg (by simp [ht.head_eq_false (p := startsName) rfl rfl c rfl])
  | cons c u =>
    rw [List.cons_append, name?, name?, takeWhile_append_of_head hhead,
      dropWhile_append_of_head hhead]
    split <;> rfl

theorem apart_value? : Apart value? t := by
  intro u
  have hhead := ht.head_eq_false (p := inWord) rfl rfl
  simp only [value?, takeWhile_append_of_head hhead, dropWhile_append_of_head hhead]
  split <;> rfl

theorem after?_append (sign : Char) (hline : sign ≠ '\n') (hreturn : sign ≠ '\r') (u : List Char) :
    after? sign (u ++ t) = (after? sign u).map (· ++ t) := by
  rw [after?, after?, skipSpaces_append ht]
  cases skipSpaces u with
  | nil =>
    cases t with
    | nil => rfl
    | cons c t =>
      refine if_neg ?_
      rcases ht c rfl with rfl | rfl
      · exact hline.symm
      · exact hreturn.symm
  | cons c rest =>
    rw [List.cons_append]
    dsimp only
    rw [skipSpaces_append ht]
    split <;> rfl

theorem apart_nextValue? : Apart nextValue? t := by
  intro u
  rw [nextValue?_eq, nextValue?_eq, after?_append ht ',' (by decide) (by decide)]
  cases after? ',' u with
  | none => rfl
  | some rest => exact apart_value? ht rest

theorem apart_values? : Apart values? t := by
  intro u
  rw [values?_eq, values?_eq, apart_value? ht]
  cases value? u with
  | none => rfl
  | some first =>
    have hmany : Many nextValue? first.2 (many nextValue? first.2).1 (many nextValue? first.2).2 :=
      consumes_nextValue?.many_iff.1 rfl
    have hmany := consumes_nextValue?.many_iff.2 (hmany.append_of_apart (apart_nextValue? ht))
    simp only [Option.map_some, hmany]

end

/-! ### Gaps after items -/

theorem skipGaps_skipGaps (u : List Char) : skipGaps (skipGaps u) = skipGaps u :=
  List.dropWhile_idempotent _ _

theorem skipGaps_append_of_ne_nil {u : List Char} (hu : skipGaps u ≠ []) (t : List Char) :
    skipGaps (u ++ t) = skipGaps u ++ t := by
  rw [skipGaps, List.dropWhile_append, if_neg (by simpa [skipGaps] using hu)]
  rfl

theorem skipGaps_append_of_eq_nil {u : List Char} (hu : skipGaps u = []) (t : List Char) :
    skipGaps (u ++ t) = skipGaps t := by
  rw [skipGaps, List.dropWhile_append, if_pos (by simpa [skipGaps] using hu)]
  rfl

theorem skipGaps_append_skipGaps (u t : List Char) : skipGaps (skipGaps u ++ t) = skipGaps (u ++ t) := by
  by_cases hu : skipGaps u = []
  · rw [hu, skipGaps_append_of_eq_nil hu, List.nil_append]
  · have hu' : skipGaps (skipGaps u) ≠ [] := by rwa [skipGaps_skipGaps]
    rw [skipGaps_append_of_ne_nil hu, skipGaps_append_of_ne_nil hu', skipGaps_skipGaps]

theorem skipGaps_skipSpaces (u : List Char) : skipGaps (skipSpaces u) = skipGaps u := by
  induction u with
  | nil => rfl
  | cons c u ih =>
    by_cases hc : isSpace c = true
    · have hgap : isGap c = true := by simp [isGap, hc]
      rw [skipSpaces, List.dropWhile_cons_of_pos hc, ← skipSpaces, ih, skipGaps, skipGaps,
        List.dropWhile_cons_of_pos hgap]
    · rw [skipSpaces, List.dropWhile_cons_of_neg hc]

/-- The item is read as if nothing followed, but the gap after it goes on. -/
def ApartGap {α : Type} (item : List Char → Option (α × List Char)) (t : List Char) : Prop :=
  ∀ u, skipGaps u ≠ [] → item (u ++ t) = (item u).map fun p => (p.1, skipGaps (p.2 ++ t))

/-- Where nothing is left, the items that follow are read next. -/
theorem Many.append {α : Type} {item : List Char → Option (α × List Char)} {u rest rest' : List Char}
    {as as' : List α} (hitem : Consumes item) (hapart : ApartGap item t)
    (hgap : ∀ u a rest, item u = some (a, rest) → skipGaps rest = rest) (h : Many item u as rest)
    (hu : skipGaps u ≠ []) (hnext : Many item (skipGaps t) as' rest') :
    if rest = [] then Many item (u ++ t) (as ++ as') rest' else Many item (u ++ t) as (rest ++ t) := by
  induction h with
  | @stop u hnone =>
    have hne : u ≠ [] := by rintro rfl; exact hu rfl
    rw [if_neg hne]
    exact .stop (by rw [hapart u hu, hnone]; rfl)
  | @step u next rest a as hsome hmany ih =>
    have hstep : item (u ++ t) = some (a, skipGaps (next ++ t)) := by rw [hapart u hu, hsome]; rfl
    by_cases hn : next = []
    · subst hn
      obtain ⟨rfl, rfl⟩ := hmany.unique (.stop hitem.nil_eq_none)
      rw [if_pos rfl]
      exact .step hstep hnext
    · have hskip : skipGaps next = next := hgap u a next hsome
      have hne : skipGaps next ≠ [] := by rwa [hskip]
      have hrest := ih hne
      rw [skipGaps_append_of_ne_nil hne, hskip] at hstep
      split
      · next h => rw [if_pos h] at hrest; exact .step hstep hrest
      · next h => rw [if_neg h] at hrest; exact .step hstep hrest

section

variable (ht : Broken t)

include ht

theorem apartGap_pair? : ApartGap pair? t := by
  intro u _
  rw [pair?_eq, pair?_eq, apart_name? ht]
  cases name? u with
  | none => rfl
  | some key =>
    simp only [Option.map_some, Option.bind_some, after?_append ht ':' (by decide) (by decide)]
    cases after? ':' key.2 with
    | none => rfl
    | some rest =>
      simp only [Option.map_some, Option.bind_some, apart_values? ht rest]
      cases values? rest with
      | none => rfl
      | some values =>
        simp only [Option.map_some, skipGaps_append_skipGaps]

end

theorem skipGaps_of_pair? {u rest : List Char} {p : String × List Value}
    (h : pair? u = some (p, rest)) : skipGaps rest = rest := by
  rw [pair?_eq] at h
  obtain ⟨key, -, h⟩ := Option.bind_eq_some_iff.1 h
  obtain ⟨after, -, h⟩ := Option.bind_eq_some_iff.1 h
  obtain ⟨values, -, heq⟩ := Option.map_eq_some_iff.1 h
  obtain ⟨-, rfl⟩ := Prod.mk.inj heq
  exact skipGaps_skipGaps _

theorem skipGaps_of_section? {u rest : List Char} {part : String × Section}
    (h : section? u = some (part, rest)) : skipGaps rest = rest := by
  rw [section?_eq] at h
  obtain ⟨title, -, h⟩ := Option.bind_eq_some_iff.1 h
  obtain ⟨pairs, -, heq⟩ := Option.map_eq_some_iff.1 h
  obtain ⟨-, rfl⟩ := Prod.mk.inj heq
  exact skipGaps_skipGaps _

/-! ### Sections -/

/-- Behind a title stands the name of a key, so no colon. -/
theorem pair?_eq_none_of_section? {u rest : List Char} {part : String × Section}
    (h : section? u = some (part, rest)) : pair? (skipGaps u) = none := by
  rw [section?_eq] at h
  obtain ⟨title, htitle, h⟩ := Option.bind_eq_some_iff.1 h
  obtain ⟨⟨pairs, after⟩, hpairs, -⟩ := Option.map_eq_some_iff.1 h
  obtain ⟨hne, hmany⟩ := consumes_pair?.many1?_eq_some_iff.1 hpairs
  rw [pair?_eq, htitle, Option.bind_some]
  have hcolon : after? ':' title.2 = none := by
    rw [after?]
    split
    · rfl
    · next c after hskip =>
      refine if_neg ?_
      rintro rfl
      have hgaps : skipGaps title.2 = ':' :: after := by
        rw [← skipGaps_skipSpaces, hskip]
        rfl
      rw [hgaps] at hmany
      cases hmany with
      | stop => exact hne rfl
      | step hpair => cases hpair
  rw [hcolon]
  rfl

theorem section?_skipGaps (u : List Char) : section? (skipGaps u) = section? u := by
  rw [section?_eq, section?_eq, skipGaps_skipGaps]

theorem section?_eq_none_of_skipGaps {u : List Char} (hu : skipGaps u = []) : section? u = none := by
  rw [section?_eq, hu]
  rfl

theorem many_section?_newline {u : List Char} {parts : List (String × Section)} :
    Many section? ('\n' :: u) parts [] ↔ parts ≠ [] ∧ Many section? u parts [] := by
  have hsection : section? ('\n' :: u) = section? u := by
    rw [section?_eq, section?_eq]
    rfl
  constructor
  · intro h
    cases h with
    | step hsome hmany => exact ⟨List.cons_ne_nil _ _, .step (by rw [← hsection, hsome]) hmany⟩
  · rintro ⟨hne, h⟩
    cases h with
    | stop => exact absurd rfl hne
    | step hsome hmany => exact .step (by rw [hsection, hsome]) hmany

theorem skipGaps_of_many_section? {u rest : List Char} {parts : List (String × Section)}
    (h : Many section? u parts rest) (hne : parts ≠ []) : skipGaps rest = rest := by
  induction h with
  | stop => exact absurd rfl hne
  | @step u next rest part parts hsome hmany ih =>
    cases parts with
    | nil =>
      cases hmany with
      | stop => exact skipGaps_of_section? hsome
    | cons => exact ih (List.cons_ne_nil _ _)

section

variable (ht : Broken t) (hstop : pair? (skipGaps t) = none)

include ht hstop

theorem many_pair?_append {u rest : List Char} {pairs : Section} (h : Many pair? u pairs rest)
    (hu : skipGaps u ≠ []) :
    ∃ rest', Many pair? (u ++ t) pairs rest' ∧ skipGaps rest' = skipGaps (rest ++ t) := by
  have happend := h.append consumes_pair? (apartGap_pair? ht) (fun _ _ _ => skipGaps_of_pair?) hu
    (.stop hstop)
  split at happend
  · next hrest =>
    rw [List.append_nil] at happend
    exact ⟨_, happend, by rw [hrest, skipGaps_skipGaps, List.nil_append]⟩
  · exact ⟨_, happend, rfl⟩

theorem apartGap_section? : ApartGap section? t := by
  intro u hu
  rw [section?_eq, section?_eq, skipGaps_append_of_ne_nil hu, apart_name? ht]
  cases name? (skipGaps u) with
  | none => rfl
  | some title =>
    simp only [Option.map_some, Option.bind_some]
    by_cases hr : skipGaps title.2 = []
    · have hnone : many pair? (skipGaps t) = ([], skipGaps t) :=
        consumes_pair?.many_iff.2 (.stop hstop)
      rw [skipGaps_append_of_eq_nil hr, hr, many1?, hnone]
      rfl
    · have hmany : Many pair? (skipGaps title.2) (many pair? (skipGaps title.2)).1
          (many pair? (skipGaps title.2)).2 := consumes_pair?.many_iff.1 rfl
      have hr' : skipGaps (skipGaps title.2) ≠ [] := by rwa [skipGaps_skipGaps]
      obtain ⟨rest', hmany', hrest'⟩ := many_pair?_append ht hstop hmany hr'
      rw [skipGaps_append_of_ne_nil hr, many1?, many1?, consumes_pair?.many_iff.2 hmany']
      generalize many pair? (skipGaps title.2) = found at hrest' ⊢
      rcases found with ⟨_ | ⟨p, pairs⟩, rest⟩
      · rfl
      · simp only [Option.map_some, hrest', skipGaps_append_skipGaps]

end

/-- Sections above a line break, and sections below it. -/
theorem many_section?_append (ht : Broken t) {u : List Char} {parts parts' : List (String × Section)}
    (h : Many section? u parts []) (h' : Many section? t parts' []) :
    Many section? (u ++ t) (parts ++ parts') [] := by
  by_cases hu : skipGaps u = []
  · cases h with
    | stop => exact h'
    | step hsome =>
      rw [section?_eq_none_of_skipGaps hu] at hsome
      cases hsome
  · have hnext : pair? (skipGaps t) = none ∧ Many section? (skipGaps t) parts' [] := by
      cases h' with
      | stop hnone => exact ⟨consumes_pair?.nil_eq_none, .stop hnone⟩
      | step hsome hmany =>
        exact ⟨pair?_eq_none_of_section? hsome, .step (by rw [section?_skipGaps, hsome]) hmany⟩
    have happend := h.append consumes_section? (apartGap_section? ht hnext.1)
      (fun _ _ _ => skipGaps_of_section?) hu hnext.2
    rwa [if_pos rfl] at happend

/-- A carriage return at the end adds nothing. -/
theorem many_section?_of_append_return {u : List Char} {parts : List (String × Section)}
    (h : Many section? (u ++ ['\r']) parts []) : Many section? u parts [] := by
  have hne (rest : List Char) : [] ≠ rest ++ ['\r'] := by simp
  by_cases hu : skipGaps u = []
  · have hgap : skipGaps (u ++ ['\r']) = [] := by
      rw [skipGaps_append_of_eq_nil hu]
      rfl
    have hnil := (h.unique (.stop (section?_eq_none_of_skipGaps hgap))).2
    exact absurd hnil (hne u)
  · have hmany : Many section? u (many section? u).1 (many section? u).2 :=
      consumes_section?.many_iff.1 rfl
    have hreturn : Broken ['\r'] := fun c hc => .inr (Option.some.inj hc).symm
    have happend := hmany.append consumes_section?
      (apartGap_section? hreturn consumes_pair?.nil_eq_none) (fun _ _ _ => skipGaps_of_section?) hu
      (.stop consumes_section?.nil_eq_none)
    split at happend
    · next hrest =>
      rw [(h.unique happend).1, List.append_nil, ← hrest]
      exact hmany
    · exact absurd (h.unique happend).2 (hne _)

end ComplexSeries.Settings.Reader
