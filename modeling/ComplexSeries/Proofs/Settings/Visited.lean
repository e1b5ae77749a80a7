import Mathlib.Data.List.Perm.Basic
import ComplexSeries.Proofs.Settings.Document
import ComplexSeries.Proofs.Settings.Admissible

/-! Settings from the sections and keys of a document, visited in any order. Each key has a field of its
own, and no key stands in a document twice, so the order decides at most which of several faults is met
first. -/
namespace ComplexSeries

namespace LogLevel

theorem name_injective {l l' : LogLevel} (h : l.name = l'.name) : l = l' := by
  revert h
  cases l <;> cases l' <;> decide

theorem ofName?_eq_some_iff {s : String} {l : LogLevel} : ofName? s = some l ↔ s = l.name := by
  constructor
  · intro h
    have hname := List.find?_some h
    exact (beq_iff_eq.1 hname).symm
  · rintro rfl
    cases l <;> rfl

end LogLevel

namespace Settings

/-! ### Keys and fields -/

/-- The title of the section that a key stands in, and its name there. -/
def Key.names : Key → String × String
  | integralSteps => ("integral", "steps")
  | maxDeltaSteps => ("integral", "max_delta_steps")
  | realTolerance => ("evaluation", "real_tolerance")
  | maxDepth => ("evaluation", "max_depth")
  | foldConstants => ("evaluation", "fold_constants")
  | logLevel => ("logging", "loglevel")

theorem Key.ofNames?_eq_some_iff {title key : String} {k : Key} :
    ofNames? title key = some k ↔ (title, key) = k.names := by
  constructor
  · intro h
    unfold ofNames? at h
    split at h <;> cases h <;> rfl
  · intro h
    cases k <;> cases h <;> rfl

theorem Key.names_injective {k k' : Key} (h : k.names = k'.names) : k = k' :=
  Option.some.inj ((ofNames?_eq_some_iff.2 rfl).symm.trans (ofNames?_eq_some_iff.2 h))

/-- The values that suit a key. -/
def Key.Accepts : Key → Value → Prop
  | integralSteps, v | maxDeltaSteps, v | maxDepth, v => ∃ n : Int, v = .whole n ∧ 0 < n
  | realTolerance, v => ∃ a, v.real? = some a ∧ 0 ≤ a ∧ a.isFinite = true
  | foldConstants, v => ∃ b, v = .truth b
  | logLevel, v => ∃ level : LogLevel, v.text = level.name

/-- What settings hold for a key. -/
inductive Field where
  | count (n : Nat)
  | tolerance (a : Float)
  | switch (b : Bool)
  | level (l : Option LogLevel)

def field (settings : Settings Float) : Key → Field
  | .integralSteps => .count settings.integralSteps
  | .maxDeltaSteps => .count settings.maxDeltaSteps
  | .realTolerance => .tolerance settings.realTolerance
  | .maxDepth => .count settings.maxDepth
  | .foldConstants => .switch settings.foldConstants
  | .logLevel => .level settings.logLevel

theorem eq_of_field_eq {settings settings' : Settings Float}
    (h : ∀ k, settings.field k = settings'.field k) : settings = settings' := by
  have hsteps := h .integralSteps
  have hdelta := h .maxDeltaSteps
  have htolerance := h .realTolerance
  have hdepth := h .maxDepth
  have hfold := h .foldConstants
  have hlevel := h .logLevel
  simp only [field, Field.count.injEq, Field.tolerance.injEq, Field.switch.injEq,
    Field.level.injEq] at hsteps hdelta htolerance hdepth hfold hlevel
  cases settings
  cases settings'
  simp_all

namespace Value

/-- The value stands for what the field holds. -/
def Denotes (v : Value) : Field → Prop
  | .count n => v = .whole n
  | .tolerance a => v.real? = some a
  | .switch b => v = .truth b
  | .level l => ∃ level : LogLevel, l = some level ∧ v.text = level.name

theorem Denotes.unique {v : Value} {settings settings' : Settings Float} {k : Key}
    (h : v.Denotes (settings.field k)) (h' : v.Denotes (settings'.field k)) :
    settings.field k = settings'.field k := by
  cases k with
  | integralSteps | maxDeltaSteps | maxDepth =>
    have hwhole := Value.whole.inj (h.symm.trans h')
    exact congrArg Field.count (Int.ofNat.inj hwhole)
  | realTolerance => exact congrArg Field.tolerance (Option.some.inj (h.symm.trans h'))
  | foldConstants => exact congrArg Field.switch (Value.truth.inj (h.symm.trans h'))
  | logLevel =>
    obtain ⟨l, hl, hname⟩ := h
    obtain ⟨l', hl', hname'⟩ := h'
    obtain rfl := LogLevel.name_injective (hname.symm.trans hname')
    exact congrArg Field.level (hl.trans hl'.symm)

theorem positive?_eq_some_iff {v : Value} {n : Nat} :
    v.positive? = some n ↔ v = .whole n ∧ 0 < n := by
  cases v with
  | whole k => simp only [positive?, whole?, Option.bind_some, Option.ite_none_right_eq_some,
      Option.some.injEq, whole.injEq]; omega
  | word s | real a | truth b => simp [positive?, whole?]

theorem truth?_eq_some_iff {v : Value} {b : Bool} : v.truth? = some b ↔ v = .truth b := by
  cases v <;> simp [truth?]

theorem tolerance?_eq_some_iff {v : Value} {a : Float} :
    v.tolerance? = some a ↔ v.real? = some a ∧ 0 ≤ a ∧ a.isFinite = true := by
  constructor
  · intro h
    exact ⟨(Option.filter_eq_some_iff.1 h).1, of_tolerance? h⟩
  · rintro ⟨hreal, hle, hfinite⟩
    exact Option.filter_eq_some_iff.2 ⟨hreal, Bool.and_eq_true_iff.2 ⟨decide_eq_true hle, hfinite⟩⟩

end Value

/-! ### One assignment -/

theorem exists_assign? (settings : Settings Float) {k : Key} {v : Value} (h : k.Accepts v) :
    ∃ settings', settings.assign? k v = some settings' := by
  cases k with
  | integralSteps | maxDeltaSteps | maxDepth =>
    obtain ⟨n, rfl, hn⟩ := h
    obtain ⟨m, rfl⟩ := Int.eq_ofNat_of_zero_le (Int.le_of_lt hn)
    exact ⟨_, Option.map_eq_some_iff.2 ⟨m, Value.positive?_eq_some_iff.2 ⟨rfl, by omega⟩, rfl⟩⟩
  | realTolerance =>
    obtain ⟨a, ha⟩ := h
    exact ⟨_, Option.map_eq_some_iff.2 ⟨a, Value.tolerance?_eq_some_iff.2 ha, rfl⟩⟩
  | foldConstants =>
    obtain ⟨b, hb⟩ := h
    exact ⟨_, Option.map_eq_some_iff.2 ⟨b, Value.truth?_eq_some_iff.2 hb, rfl⟩⟩
  | logLevel =>
    obtain ⟨l, hl⟩ := h
    exact ⟨_, Option.map_eq_some_iff.2 ⟨l, LogLevel.ofName?_eq_some_iff.2 hl, rfl⟩⟩

/-- An assignment sets the field of its key, and no other. -/
theorem of_assign? {settings settings' : Settings Float} {k : Key} {v : Value}
    (h : settings.assign? k v = some settings') :
    k.Accepts v ∧ v.Denotes (settings'.field k) ∧
      ∀ k', k' ≠ k → settings'.field k' = settings.field k' := by
  cases k <;> obtain ⟨found, hfound, rfl⟩ := Option.map_eq_some_iff.1 h
  case integralSteps | maxDeltaSteps | maxDepth =>
    obtain ⟨rfl, hpos⟩ := Value.positive?_eq_some_iff.1 hfound
    exact ⟨⟨found, rfl, by omega⟩, rfl, fun k' hk' => by cases k' <;> trivial⟩
  case realTolerance =>
    have ha := Value.tolerance?_eq_some_iff.1 hfound
    exact ⟨⟨found, ha⟩, ha.1, fun k' hk' => by cases k' <;> trivial⟩
  case foldConstants =>
    obtain rfl := Value.truth?_eq_some_iff.1 hfound
    exact ⟨⟨found, rfl⟩, rfl, fun k' hk' => by cases k' <;> trivial⟩
  case logLevel =>
    have hl := LogLevel.ofName?_eq_some_iff.1 hfound
    exact ⟨⟨found, hl⟩, ⟨found, rfl, hl⟩, fun k' hk' => by cases k' <;> trivial⟩

/-! ### A row of assignments -/

/-- A key under its title, with its values. -/
abbrev Assignment := (String × String) × List Value

def assign (settings : Settings Float) (a : Assignment) : Except SettingsError (Settings Float) :=
  assignValues a.1.1 settings (a.1.2, a.2)

/-- A known key with a single value that suits it. -/
def Suitable (a : Assignment) : Prop := ∃ k v, a = (Key.names k, [v]) ∧ k.Accepts v

theorem assign_eq_ok_iff {settings settings' : Settings Float} {a : Assignment} :
    settings.assign a = .ok settings' ↔
      ∃ k v, a = (Key.names k, [v]) ∧ settings.assign? k v = some settings' := by
  obtain ⟨⟨title, key⟩, vs⟩ := a
  constructor
  · intro h
    unfold assign assignValues at h
    split at h
    · next v hvs =>
      split at h
      · cases h
      · next k hk =>
        split at h
        · next found hfound =>
          cases h
          exact ⟨k, v, Prod.ext (Key.ofNames?_eq_some_iff.1 hk) hvs, hfound⟩
        · cases h
    · cases h
  · rintro ⟨k, v, hkv, hassign⟩
    obtain ⟨hnames, rfl⟩ := Prod.mk.injEq .. ▸ hkv
    simp only [assign, assignValues, Key.ofNames?_eq_some_iff.2 hnames, hassign]

/-- A key is always assigned the same values. -/
def SingleValued (row : List Assignment) : Prop :=
  ∀ names vs vs', (names, vs) ∈ row → (names, vs') ∈ row → vs = vs'

/-- Each key that is assigned has its value, each other key is as it was. -/
structure Follows (settings : Settings Float) (row : List Assignment) (settings' : Settings Float) :
    Prop where
  assigned : ∀ k v, (Key.names k, [v]) ∈ row → v.Denotes (settings'.field k)
  kept : ∀ k, (∀ vs, (Key.names k, vs) ∉ row) → settings'.field k = settings.field k

theorem exists_foldlM_assign {row : List Assignment} (h : ∀ a ∈ row, Suitable a)
    (settings : Settings Float) : ∃ settings', row.foldlM assign settings = .ok settings' := by
  induction row generalizing settings with
  | nil => exact ⟨settings, rfl⟩
  | cons a row ih =>
    obtain ⟨⟨k, v, rfl, hv⟩, hrow⟩ := List.forall_mem_cons.1 h
    obtain ⟨next, hnext⟩ := settings.exists_assign? hv
    obtain ⟨settings', h'⟩ := ih hrow next
    refine ⟨settings', ?_⟩
    rw [List.foldlM_cons, assign_eq_ok_iff.2 ⟨k, v, rfl, hnext⟩]
    exact h'

theorem of_foldlM_assign {row : List Assignment} {settings settings' : Settings Float}
    (hsame : SingleValued row) (h : row.foldlM assign settings = .ok settings') :
    (∀ a ∈ row, Suitable a) ∧ settings.Follows row settings' := by
  induction row generalizing settings with
  | nil =>
    obtain rfl := Result.pure_eq_ok_iff.1 h
    exact ⟨fun _ h => absurd h List.not_mem_nil, fun _ _ h => absurd h List.not_mem_nil,
      fun _ _ => rfl⟩
  | cons a row ih =>
    rw [List.foldlM_cons] at h
    obtain ⟨next, hnext, hrest⟩ := Result.bind_eq_ok_iff.1 h
    obtain ⟨k, v, rfl, hassign⟩ := assign_eq_ok_iff.1 hnext
    obtain ⟨hv, hdenotes, hothers⟩ := of_assign? hassign
    obtain ⟨hrow, hfollows⟩ := ih (fun names vs vs' hvs hvs' =>
      hsame names vs vs' (List.mem_cons_of_mem _ hvs) (List.mem_cons_of_mem _ hvs')) hrest
    refine ⟨List.forall_mem_cons.2 ⟨⟨k, v, rfl, hv⟩, hrow⟩, fun k' v' hmem => ?_, fun k' hnone => ?_⟩
    · rcases List.mem_cons.1 hmem with heq | hmem
      · obtain ⟨hk, hv'⟩ := Prod.mk.injEq .. ▸ heq
        obtain rfl := Key.names_injective hk
        cases hv'
        -- Either the key is assigned its value again, or it is left alone from here on.
        by_cases hagain : ∃ vs, (k'.names, vs) ∈ row
        · obtain ⟨vs, hvs⟩ := hagain
          obtain rfl := hsame _ vs [v] (List.mem_cons_of_mem _ hvs) List.mem_cons_self
          exact hfollows.assigned k' v hvs
        · rw [hfollows.kept k' (not_exists.1 hagain)]
          exact hdenotes
      · exact hfollows.assigned k' v' hmem
    · have hk : k' ≠ k := by
        rintro rfl
        exact hnone [v] List.mem_cons_self
      rw [hfollows.kept k' fun vs hvs => hnone vs (List.mem_cons_of_mem _ hvs), hothers k' hk]

theorem Follows.unique {settings first second : Settings Float} {row : List Assignment}
    (hrow : ∀ a ∈ row, Suitable a) (h : settings.Follows row first)
    (h' : settings.Follows row second) : first = second := by
  refine eq_of_field_eq fun k => ?_
  by_cases hk : ∃ vs, (k.names, vs) ∈ row
  · obtain ⟨vs, hvs⟩ := hk
    obtain ⟨k', v, heq, -⟩ := hrow _ hvs
    obtain ⟨-, rfl⟩ := Prod.mk.injEq .. ▸ heq
    exact (h.assigned k v hvs).unique (h'.assigned k v hvs)
  · rw [h.kept k (not_exists.1 hk), h'.kept k (not_exists.1 hk)]

section

variable {row row' : List Assignment} {settings settings' : Settings Float} (hperm : row.Perm row')
include hperm

theorem Follows.perm (h : settings.Follows row settings') : settings.Follows row' settings' where
  assigned k v hmem := h.assigned k v (hperm.mem_iff.2 hmem)
  kept k hnone := h.kept k fun vs hvs => hnone vs (hperm.mem_iff.1 hvs)

theorem SingleValued.perm (h : SingleValued row) : SingleValued row' := fun names vs vs' hvs hvs' =>
  h names vs vs' (hperm.mem_iff.2 hvs) (hperm.mem_iff.2 hvs')

/-- In another order the row succeeds as well, and leads to the same settings. -/
theorem foldlM_assign_perm (hsame : SingleValued row)
    (h : row.foldlM assign settings = .ok settings') :
    row'.foldlM assign settings = .ok settings' := by
  obtain ⟨hrow, hfollows⟩ := of_foldlM_assign hsame h
  have hrow' : ∀ a ∈ row', Suitable a := fun a ha => hrow a (hperm.mem_iff.2 ha)
  obtain ⟨other, hother⟩ := exists_foldlM_assign hrow' settings
  obtain ⟨-, hfollows'⟩ := of_foldlM_assign (hsame.perm hperm) hother
  obtain rfl := (hfollows.perm hperm).unique hrow' hfollows'
  exact hother

end

/-! ### Documents -/

theorem lookup_eq_some_iff_mem {β : Type} {k : String} {b : β} {pairs : List (String × β)}
    (h : (pairs.map (·.1)).Nodup) : pairs.lookup k = some b ↔ (k, b) ∈ pairs := by
  induction pairs with
  | nil => simp
  | cons p pairs ih =>
    obtain ⟨c, w⟩ := p
    rw [List.map_cons, List.nodup_cons] at h
    rw [List.lookup_cons, List.mem_cons, Prod.mk.injEq]
    by_cases hk : k = c
    · subst hk
      have hnot : (k, b) ∉ pairs := fun hmem => h.1 (List.mem_map_of_mem (f := (·.1)) hmem)
      simp [hnot, eq_comm]
    · rw [beq_false_of_ne hk]
      simp [hk, ih h.2]

namespace Document

/-- What a document assigns, in its order. -/
def assignments (document : Document) : List Assignment :=
  document.flatMap fun (title, part) => part.map fun (key, vs) => ((title, key), vs)

/-- The same sections with the same keys, each in any order. -/
def Reordered (document visited : Document) : Prop :=
  ∃ parts, List.Forall₂ (fun p q => p.1 = q.1 ∧ p.2.Perm q.2) document parts ∧ parts.Perm visited

variable {document visited : Document}

theorem Distinct.mem_assignments_iff (h : document.Distinct) {title key : String} {vs : List Value} :
    ((title, key), vs) ∈ document.assignments ↔ document.values? title key = some vs := by
  simp only [assignments, List.mem_flatMap, List.mem_map, values?, Option.bind_eq_some_iff,
    lookup_eq_some_iff_mem h.titles]
  constructor
  · rintro ⟨⟨t, part⟩, hpart, ⟨k, ws⟩, hpair, heq⟩
    cases heq
    exact ⟨part, hpart, (lookup_eq_some_iff_mem (h.keys _ hpart)).2 hpair⟩
  · rintro ⟨part, hpart, hpair⟩
    exact ⟨(title, part), hpart, (key, vs), (lookup_eq_some_iff_mem (h.keys _ hpart)).1 hpair, rfl⟩

theorem Reordered.perm_assignments (h : document.Reordered visited) :
    document.assignments.Perm visited.assignments := by
  obtain ⟨parts, hparts, hvisited⟩ := h
  refine .trans ?_ (hvisited.flatMap_right _)
  clear hvisited
  induction hparts with
  | nil => exact .refl _
  | @cons p q ps qs hpq _ ih =>
    obtain ⟨t, part⟩ := p
    obtain ⟨t', part'⟩ := q
    obtain ⟨rfl, hperm⟩ := hpq
    rw [assignments, List.flatMap_cons, List.flatMap_cons]
    exact (hperm.map _).append ih

theorem Distinct.singleValued (h : document.Distinct) : SingleValued document.assignments := by
  rintro ⟨title, key⟩ vs vs' hvs hvs'
  rw [h.mem_assignments_iff] at hvs hvs'
  exact Option.some.inj (hvs.symm.trans hvs')

theorem foldlM_assignSection (document : Document) (settings : Settings Float) :
    document.foldlM assignSection settings = document.assignments.foldlM assign settings := by
  induction document generalizing settings with
  | nil => rfl
  | cons p document ih =>
    rw [List.foldlM_cons, assignments, List.flatMap_cons, List.foldlM_append, List.foldlM_map]
    exact congrArg (_ >>= ·) (funext ih)

theorem distinct_of_read {cs : List Char} (h : Document.read cs = .ok document) :
    document.Distinct := by
  unfold Document.read at h
  dsimp only at h
  split at h
  · cases h
    exact ⟨List.nodup_nil, fun _ h => absurd h List.not_mem_nil⟩
  · split at h
    · cases h
    · split at h
      · cases h
        exact distinct_mergeAll _
      · cases h

end Document

/-- A document, visited in any order, gives settings if all of its keys are known and have a single
value that suits them. Then each field holds the value of its key, or the standard one if the document
does not mention the key, whatever the order. -/
theorem ofDocument_of_reordered {s : String} {document visited : Document}
    (hread : Document.read s.toList = .ok document) (hvisited : document.Reordered visited) :
    ((∃ settings, ofDocument visited = .ok settings) ↔
        ∀ title key vs, document.values? title key = some vs → Suitable ((title, key), vs)) ∧
      ∀ settings, ofDocument visited = .ok settings →
        (∀ k : Key,
          (∀ v, document.values? k.names.1 k.names.2 = some [v] → v.Denotes (settings.field k)) ∧
          (document.values? k.names.1 k.names.2 = none →
            settings.field k = (standard Float).field k)) ∧
        settings.Admissible ∧ read s = .ok settings ∧
        ∀ visited', document.Reordered visited' → ofDocument visited' = .ok settings := by
  have hdistinct := Document.distinct_of_read hread
  have hperm := hvisited.perm_assignments
  have hmem (title key : String) (vs : List Value) : ((title, key), vs) ∈ visited.assignments ↔
      document.values? title key = some vs :=
    hperm.mem_iff.symm.trans hdistinct.mem_assignments_iff
  have hsame := hdistinct.singleValued.perm hperm
  simp only [ofDocument, Document.foldlM_assignSection]
  constructor
  · constructor
    · rintro ⟨settings, h⟩ title key vs hvs
      exact (of_foldlM_assign hsame h).1 _ ((hmem title key vs).2 hvs)
    · intro h
      exact exists_foldlM_assign (fun a ha => h _ _ _ ((hmem _ _ _).1 ha)) (standard Float)
  · intro settings h
    obtain ⟨hrow, hfollows⟩ := of_foldlM_assign hsame h
    have hdocument : ofDocument document = .ok settings := by
      rw [ofDocument, Document.foldlM_assignSection]
      exact foldlM_assign_perm hperm.symm hsame h
    refine ⟨fun k => ⟨fun v hv => hfollows.assigned k v ((hmem _ _ _).2 hv), fun hnone => ?_⟩,
      admissible_of_ofDocument hdocument, ?_, fun visited' hvisited' => ?_⟩
    · refine hfollows.kept k fun vs hvs => ?_
      cases hnone.symm.trans ((hmem _ _ vs).1 hvs)
    · rw [read, hread]
      exact hdocument
    · exact foldlM_assign_perm (hperm.symm.trans hvisited'.perm_assignments) hsame h

/-- The sections of the document and the keys of its first section are visited from the last to the
first. The tolerance is the standard one. -/
theorem ofDocument_of_reordered_reverse :
    let document : Document :=
      [("integral", [("steps", [.whole 10]), ("max_delta_steps", [.whole 5])]),
        ("evaluation", [("fold_constants", [.truth false])])]
    let visited : Document := [("evaluation", [("fold_constants", [.truth false])]),
      ("integral", [("max_delta_steps", [.whole 5]), ("steps", [.whole 10])])]
    Document.read "integral steps: 10 max_delta_steps: 5\nevaluation fold_constants: false".toList =
        .ok document ∧
      document.Reordered visited ∧
      ∃ settings, ofDocument visited = .ok settings ∧ settings.Admissible ∧
        settings.field .integralSteps = .count 10 ∧
        settings.field .realTolerance = (standard Float).field .realTolerance := by
  intro document visited
  have hread : Document.read
      "integral steps: 10 max_delta_steps: 5\nevaluation fold_constants: false".toList =
        .ok document := by rfl
  have hvisited : document.Reordered visited :=
    ⟨visited.reverse, .cons ⟨rfl, .swap _ _ _⟩ (.cons ⟨rfl, .refl _⟩ .nil), visited.reverse_perm⟩
  obtain ⟨-, hall⟩ := ofDocument_of_reordered hread hvisited
  obtain ⟨hfields, hadmissible, -⟩ := hall _ rfl
  exact ⟨hread, hvisited, _, rfl, hadmissible, rfl, (hfields .realTolerance).2 rfl⟩

end Settings

end ComplexSeries
