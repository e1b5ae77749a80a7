import ComplexSeries.Proofs.Settings.Seam
import ComplexSeries.Proofs.Text.Line

/-! One settings document below another. The whole is read as the sections of both, in their order, and
for every key the last value counts. So the lower document wins, and what it does not mention is as the
upper one has it. -/
namespace ComplexSeries.Settings

/-! ### Merging -/

/-- If what is found after one step is what the step brings, or else what was found before it, then the
same holds of many steps. -/
theorem foldl_of_step {σ τ α : Type} {step : σ → τ → σ} (empty : σ) (found : σ → α)
    (orElse : α → α → α) [Std.Associative orElse] (hempty : ∀ a, orElse (found empty) a = a)
    (hstep : ∀ s t, found (step s t) = orElse (found (step empty t)) (found s)) (s : σ)
    (ts : List τ) : found (ts.foldl step s) = orElse (found (ts.foldl step empty)) (found s) := by
  induction ts generalizing s with
  | nil => exact (hempty _).symm
  | cons t ts ih =>
    rw [List.foldl_cons, List.foldl_cons, ih, ih (step empty t), hstep]
    exact (Std.Associative.assoc _ _ _).symm

section

variable {β : Type} {k : String} {v : β} {pairs : List (String × β)}

theorem lookup_put (k k' : String) (v : β) (pairs : List (String × β)) :
    (put k v pairs).lookup k' = if k' = k then some v else pairs.lookup k' := by
  induction pairs with
  | nil =>
    rw [put, List.lookup_cons]
    by_cases h : k' = k
    · simp [h]
    · simp [h, beq_false_of_ne h]
  | cons p pairs ih =>
    obtain ⟨c, w⟩ := p
    rw [put]
    by_cases hc : c = k
    · subst hc
      rw [if_pos rfl, List.lookup_cons, List.lookup_cons]
      by_cases h : k' = c
      · simp [h]
      · simp [h, beq_false_of_ne h]
    · rw [if_neg hc, List.lookup_cons, List.lookup_cons, ih]
      by_cases h : k' = c
      · subst h
        simp [hc]
      · simp [beq_false_of_ne h]

theorem lookup_putAll (k : String) (pairs new : List (String × β)) :
    (putAll pairs new).lookup k = ((putAll [] new).lookup k).or (pairs.lookup k) := by
  refine foldl_of_step [] (·.lookup k) Option.or (fun _ => rfl) (fun pairs p => ?_) pairs new
  rw [lookup_put, lookup_put]
  split <;> rfl

theorem mem_put {p : String × β} (h : p ∈ put k v pairs) : p = (k, v) ∨ p ∈ pairs := by
  induction pairs with
  | nil => exact .inl (List.mem_singleton.1 h)
  | cons q pairs ih =>
    rw [put] at h
    split at h
    · next hq =>
      rcases List.mem_cons.1 h with rfl | h
      · exact .inl (by rw [hq])
      · exact .inr (List.mem_cons_of_mem _ h)
    · rcases List.mem_cons.1 h with rfl | h
      · exact .inr List.mem_cons_self
      · exact (ih h).imp_right (List.mem_cons_of_mem _)

theorem nodup_put (h : (pairs.map (·.1)).Nodup) : ((put k v pairs).map (·.1)).Nodup := by
  induction pairs with
  | nil => simp [put]
  | cons q pairs ih =>
    rw [List.map_cons, List.nodup_cons] at h
    rw [put]
    split
    · exact List.nodup_cons.2 h
    · next hq =>
      refine List.nodup_cons.2 ⟨fun hmem => ?_, ih h.2⟩
      obtain ⟨p, hp, heq⟩ := List.mem_map.1 hmem
      rcases mem_put hp with rfl | hp
      · exact hq heq.symm
      · exact h.1 (List.mem_map.2 ⟨p, hp, heq⟩)

theorem nodup_putAll {new : List (String × β)} (h : (pairs.map (·.1)).Nodup) :
    ((putAll pairs new).map (·.1)).Nodup := by
  induction new generalizing pairs with
  | nil => exact h
  | cons p new ih => exact ih (nodup_put h)

end

namespace Document

/-- The values of a key. -/
def values? (document : Document) (title key : String) : Option (List Value) :=
  (document.lookup title).bind (·.lookup key)

/-- No title stands there twice, and no key twice in a section. -/
structure Distinct (document : Document) : Prop where
  titles : (document.map (·.1)).Nodup
  keys : ∀ part ∈ document, (part.2.map (·.1)).Nodup

def mergeAll (document : Document) (parts : List (String × Section)) : Document :=
  parts.foldl (fun document (title, part) => document.merge title part) document

variable (document : Document)

theorem isSome_lookup_merge (title title' : String) (part : Section) :
    ((document.merge title part).lookup title').isSome =
      (((merge [] title part).lookup title').isSome || (document.lookup title').isSome) := by
  rw [merge, merge, lookup_put, lookup_put]
  split <;> rfl

theorem values?_merge (title title' key : String) (part : Section) :
    (document.merge title part).values? title' key =
      ((merge [] title part).values? title' key).or (document.values? title' key) := by
  rw [values?, values?, values?, merge, merge, lookup_put, lookup_put]
  split
  · next h =>
    subst h
    rw [Option.bind_some, Option.bind_some, lookup_putAll]
    cases document.lookup title' <;> rfl
  · rfl

theorem isSome_lookup_mergeAll (title : String) (parts : List (String × Section)) :
    ((document.mergeAll parts).lookup title).isSome =
      (((mergeAll [] parts).lookup title).isSome || (document.lookup title).isSome) :=
  foldl_of_step [] (fun document : Document => (document.lookup title).isSome) (· || ·)
    (fun _ => rfl) (fun document p => isSome_lookup_merge document p.1 title p.2) document parts

theorem values?_mergeAll (title key : String) (parts : List (String × Section)) :
    (document.mergeAll parts).values? title key =
      ((mergeAll [] parts).values? title key).or (document.values? title key) :=
  foldl_of_step [] (fun document : Document => document.values? title key) Option.or
    (fun _ => rfl) (fun document p => values?_merge document p.1 title key p.2) document parts

variable {document}

theorem Distinct.merge (h : document.Distinct) (title : String) (part : Section) :
    (document.merge title part).Distinct where
  titles := nodup_put h.titles
  keys p hp := by
    rcases mem_put hp with rfl | hp
    · refine nodup_putAll ?_
      cases hlookup : document.lookup title with
      | none => exact List.nodup_nil
      | some pairs =>
        obtain ⟨before, after, rfl, -⟩ := List.lookup_eq_some_iff.1 hlookup
        exact h.keys (title, pairs) (List.mem_append_right _ List.mem_cons_self)
    · exact h.keys p hp

theorem distinct_mergeAll (parts : List (String × Section)) : (mergeAll [] parts).Distinct := by
  suffices ∀ document : Document, document.Distinct → (document.mergeAll parts).Distinct from
    this [] ⟨List.nodup_nil, fun _ h => absurd h List.not_mem_nil⟩
  induction parts with
  | nil => exact fun _ h => h
  | cons p parts ih => exact fun document h => ih _ (h.merge p.1 p.2)

end Document

/-! ### Reading -/

open Reader (Many section?)

/-- The lines that say something. -/
def kept (cs : List Char) : List (List Char) := (Text.lines cs).filter (!isComment ·)

theorem isComment_append_return (l : List Char) : isComment (l ++ ['\r']) = isComment l := by
  rw [isComment, isComment, Text.trim_append_singleton (by decide)]

theorem not_blank_of_mem_kept {cs l : List Char} (h : l ∈ kept cs) :
    ∃ c ∈ l, Text.isBlank c = false := by
  have hcomment : isComment l = false := by simpa using (List.mem_filter.1 h).2
  by_contra hblank
  have htrim : Text.trim l = [] := Text.trim_eq_nil_iff.2 fun c hc => by
    rw [← Bool.not_eq_false]
    exact fun hc' => hblank ⟨c, hc, hc'⟩
  rw [isComment, htrim] at hcomment
  cases hcomment

theorem kept_append (cs ds : List Char) :
    ∃ upper ended, (ended = [] ∨ ended = ['\r']) ∧
      Text.listing (kept cs) = upper ++ ended ∧
      Text.listing (kept (cs ++ '\n' :: ds)) = upper ++ Text.listing (kept ds) := by
  obtain ⟨init, last, hwhole, ⟨hupper, rfl⟩ | ⟨ended, hupper, hended⟩⟩ := Text.lines_append cs ds
  · refine ⟨Text.listing (init.filter (!isComment ·)), [], .inl rfl, ?_, ?_⟩
    · rw [kept, hupper, List.append_nil]
    · rw [kept, hwhole, List.filter_append, List.filter_cons_of_neg (by decide), Text.listing_append]
      rfl
  · -- A return at the seam ends the upper text alone, but is part of the line break in the whole.
    have hcomment : isComment (last ++ ended) = isComment last := by
      rcases hended with rfl | rfl
      · rw [List.append_nil]
      · exact isComment_append_return last
    cases hlast : isComment last with
    | true =>
      refine ⟨Text.listing (init.filter (!isComment ·)), [], .inl rfl, ?_, ?_⟩
      · rw [kept, hupper, List.filter_append, List.filter_cons_of_neg (by simp [hcomment, hlast]),
          List.filter_nil, List.append_nil, List.append_nil]
      · rw [kept, hwhole, List.filter_append, List.filter_cons_of_neg (by simp [hlast]),
          Text.listing_append]
        rfl
    | false =>
      refine ⟨Text.listing (init.filter (!isComment ·)) ++ '\n' :: last, ended, hended, ?_, ?_⟩
      · rw [kept, hupper, List.filter_append, List.filter_cons_of_pos (by simp [hcomment, hlast]),
          List.filter_nil, Text.listing_append, Text.listing_cons, Text.listing_nil]
        simp
      · rw [kept, hwhole, List.filter_append, List.filter_cons_of_pos (by simp [hlast]),
          Text.listing_append, Text.listing_cons, kept]
        simp

theorem broken_listing (ls : List (List Char)) : Reader.Broken (Text.listing ls) := by
  intro c hc
  cases ls with
  | nil => cases hc
  | cons l ls => exact .inl (Option.some.inj hc).symm

theorem mem_of_mem_listing_kept {cs : List Char} {c : Char} (h : c ∈ Text.listing (kept cs)) :
    c = '\n' ∨ c ∈ cs := by
  obtain ⟨l, hl, hc⟩ := List.mem_flatMap.1 h
  exact (List.mem_cons.1 hc).imp_right (Text.mem_of_mem_lines (List.mem_of_mem_filter hl))

theorem trim_unlines_kept {cs : List Char} (h : kept cs ≠ []) :
    Text.trim (Text.unlines (kept cs)) ≠ [] := by
  obtain ⟨l, hl⟩ := List.exists_mem_of_ne_nil _ h
  obtain ⟨c, hc, hblank⟩ := not_blank_of_mem_kept hl
  have hmem : c ∈ '\n' :: Text.unlines (kept cs) := by
    rw [Text.newline_unlines h]
    exact List.mem_flatMap.2 ⟨l, hl, List.mem_cons_of_mem _ hc⟩
  rw [Ne, Text.trim_eq_nil_iff]
  intro hall
  rcases List.mem_cons.1 hmem with rfl | hmem
  · cases hblank
  · rw [hall c hmem] at hblank
    cases hblank

/-- Behind the last section no gap is left, so no blank either. -/
theorem trim_rest_eq_nil_iff {cs rest : List Char} {parts : List (String × Section)}
    (hblank : ∀ c ∈ cs, Text.isBlank c = true → Reader.isGap c = true) (hkept : kept cs ≠ [])
    (h : Many section? (Text.unlines (kept cs)) parts rest) (hne : parts ≠ []) :
    Text.trim rest = [] ↔ rest = [] := by
  rw [Text.trim_eq_nil_iff]
  constructor
  · intro hall
    rw [← Reader.skipGaps_of_many_section? h hne]
    refine List.dropWhile_eq_nil_iff.2 fun c hc => ?_
    have hmem : c ∈ Text.listing (kept cs) := by
      rw [← Text.newline_unlines hkept]
      exact List.mem_cons_of_mem _ ((h.suffix Reader.consumes_section?).mem hc)
    rcases mem_of_mem_listing_kept hmem with rfl | hmem
    · rfl
    · exact hblank c hmem (hall c hc)
  · rintro rfl c hc
    cases hc

/-- A text is read as a document if the lines that say something divide into sections. -/
theorem Document.read_eq_ok_iff {cs : List Char} {document : Document}
    (hblank : ∀ c ∈ cs, Text.isBlank c = true → Reader.isGap c = true) :
    Document.read cs = .ok document ↔
      ∃ parts, Many section? (Text.listing (kept cs)) parts [] ∧
        Document.mergeAll [] parts = document := by
  have hbody : withoutComments cs = Text.unlines (kept cs) := rfl
  simp only [Document.read, hbody, List.isEmpty_iff]
  by_cases hkept : kept cs = []
  · rw [hkept]
    constructor
    · intro h
      exact ⟨[], .stop Reader.consumes_section?.nil_eq_none, Except.ok.inj h⟩
    · rintro ⟨parts, hparts, rfl⟩
      obtain ⟨rfl, -⟩ := hparts.unique (.stop Reader.consumes_section?.nil_eq_none)
      rfl
  rw [if_neg (trim_unlines_kept hkept), ← Text.newline_unlines hkept]
  simp only [Reader.many_section?_newline, ← Reader.consumes_section?.many1?_eq_some_iff]
  cases hmany : Reader.many1? section? (Text.unlines (kept cs)) with
  | none => simp
  | some found =>
    obtain ⟨parts, rest⟩ := found
    obtain ⟨hne, hparts⟩ := Reader.consumes_section?.many1?_eq_some_iff.1 hmany
    simp only [trim_rest_eq_nil_iff hblank hkept hparts hne, Option.some.injEq, Prod.mk.injEq]
    by_cases hrest : rest = []
    · rw [if_pos hrest, Except.ok.injEq]
      constructor
      · intro h
        exact ⟨parts, ⟨rfl, hrest⟩, h⟩
      · rintro ⟨parts', ⟨rfl, -⟩, h⟩
        exact h
    · rw [if_neg hrest]
      refine ⟨nofun, ?_⟩
      rintro ⟨parts', ⟨-, hrest'⟩, -⟩
      exact absurd hrest' hrest

/-- Below a line feed, a document updates the one above it, section by section and key by key. -/
theorem Document.read_append {cs ds : List Char} {upper lower : Document}
    (hblank : ∀ c ∈ cs ++ ds, Text.isBlank c = true → c ∈ [' ', '\t', '\r', '\n'])
    (hupper : Document.read cs = .ok upper) (hlower : Document.read ds = .ok lower) :
    ∃ document, Document.read (cs ++ '\n' :: ds) = .ok document ∧ document.Distinct ∧
      (∀ title, (document.lookup title).isSome =
        ((lower.lookup title).isSome || (upper.lookup title).isSome)) ∧
      ∀ title key, document.values? title key =
        (lower.values? title key).or (upper.values? title key) := by
  have hgap : ∀ c ∈ cs ++ '\n' :: ds, Text.isBlank c = true → Reader.isGap c = true := by
    intro c hc hblankc
    have hmem : c ∈ [' ', '\t', '\r', '\n'] := by
      rcases List.mem_append.1 hc with hc | hc
      · exact hblank c (List.mem_append_left _ hc) hblankc
      · rcases List.mem_cons.1 hc with rfl | hc
        · decide
        · exact hblank c (List.mem_append_right _ hc) hblankc
    have hall : ∀ c ∈ [' ', '\t', '\r', '\n'], Reader.isGap c = true := by
      simp [Reader.isGap, Reader.isSpace]
    exact hall c hmem
  obtain ⟨parts, hparts, rfl⟩ := (Document.read_eq_ok_iff fun c hc =>
    hgap c (List.mem_append_left _ hc)).1 hupper
  obtain ⟨parts', hparts', rfl⟩ := (Document.read_eq_ok_iff fun c hc =>
    hgap c (List.mem_append_right _ (List.mem_cons_of_mem _ hc))).1 hlower
  obtain ⟨u, ended, hended, hfirst, hwhole⟩ := kept_append cs ds
  -- In the whole, the sections of the upper text are read without the return at the seam.
  have hu : Many section? u parts [] := by
    rw [hfirst] at hparts
    rcases hended with rfl | rfl
    · rwa [List.append_nil] at hparts
    · exact Reader.many_section?_of_append_return hparts
  have hmany := Reader.many_section?_append (broken_listing _) hu hparts'
  rw [← hwhole] at hmany
  have hsplit : Document.mergeAll [] (parts ++ parts') =
      (Document.mergeAll [] parts).mergeAll parts' := List.foldl_append
  refine ⟨_, (Document.read_eq_ok_iff hgap).2 ⟨_, hmany, rfl⟩, Document.distinct_mergeAll _, ?_, ?_⟩
  · intro title
    rw [hsplit, Document.isSome_lookup_mergeAll]
  · intro title key
    rw [hsplit, Document.values?_mergeAll]

/-- The upper document ends in a carriage return, the lower one begins with a comment. -/
theorem Document.read_append_merged :
    let cs := "integral steps: 10 max_delta_steps: 5\r".toList
    let ds := "# finer\nlogging\n\tloglevel: off\nintegral steps: 30".toList
    (∀ c ∈ cs ++ ds, Text.isBlank c = true → c ∈ [' ', '\t', '\r', '\n']) ∧
      Document.read cs =
        .ok [("integral", [("steps", [.whole 10]), ("max_delta_steps", [.whole 5])])] ∧
      Document.read ds = .ok [("logging", [("loglevel", [.word "off"])]),
        ("integral", [("steps", [.whole 30])])] ∧
      ∃ document, Document.read (cs ++ '\n' :: ds) = .ok document ∧ document.Distinct ∧
        (document.lookup "evaluation").isSome = false ∧
        document.values? "integral" "steps" = some [.whole 30] ∧
        document.values? "integral" "max_delta_steps" = some [.whole 5] ∧
        document.values? "logging" "loglevel" = some [.word "off"] := by
  intro cs ds
  have hall : (cs ++ ds).all fun c => !Text.isBlank c || [' ', '\t', '\r', '\n'].contains c := by
    decide +kernel
  have hblank : ∀ c ∈ cs ++ ds, Text.isBlank c = true → c ∈ [' ', '\t', '\r', '\n'] := by
    intro c hc hblank
    simpa [hblank] using List.all_eq_true.1 hall c hc
  have hupper : Document.read cs =
      .ok [("integral", [("steps", [.whole 10]), ("max_delta_steps", [.whole 5])])] := by rfl
  have hlower : Document.read ds = .ok [("logging", [("loglevel", [.word "off"])]),
      ("integral", [("steps", [.whole 30])])] := by rfl
  obtain ⟨document, hread, hdistinct, htitles, hvalues⟩ := Document.read_append hblank hupper hlower
  exact ⟨hblank, hupper, hlower, document, hread, hdistinct, htitles _, hvalues _ _, hvalues _ _,
    hvalues _ _⟩

end ComplexSeries.Settings
