import ComplexSeries.Input.Canonical
import ComplexSeries.Proofs.Input.Indices
import ComplexSeries.Proofs.Input.Spelling

/-! A canonical spelling is its own canonical spelling. The lexemes that pass the checks are brought
into a normal form, the rendering of a normal form passes every check and is read back as the same
lexemes, and the rewriting leaves a normal form alone. -/
namespace ComplexSeries.Input

open Lexeme

/-! ### Letters -/

/-- A letter that a formula with these indices may use. -/
def Allowed (declared : List Char) (c : Char) : Prop :=
  (isVariable c || c = 'i' || declared.contains c) = true

theorem checkLetters_eq_ok_iff {declared : List Char} {ls : List Lexeme} :
    checkLetters declared ls = .ok () ↔ ∀ c, letter c ∈ ls → Allowed declared c := by
  induction ls with
  | nil => simp [checkLetters]
  | cons l ls ih =>
    by_cases hl : ∃ d, l = letter d
    · obtain ⟨d, rfl⟩ := hl
      rw [checkLetters]
      split
      · next h =>
        rw [ih]
        refine ⟨fun hall c hc => ?_, fun hall c hc => hall c (List.mem_cons_of_mem _ hc)⟩
        rcases List.mem_cons.1 hc with hc | hc
        · cases hc; exact h
        · exact hall c hc
      · next h => exact ⟨(by rintro ⟨⟩), fun hall => absurd (hall d List.mem_cons_self) h⟩
    · have hskip : checkLetters declared (l :: ls) = checkLetters declared ls := by
        cases l <;> first | rfl | exact absurd ⟨_, rfl⟩ hl
      have hne : ∀ c, letter c ≠ l := fun c hc => hl ⟨c, hc.symm⟩
      simp [hskip, ih, hne]

/-- A lexeme that can be read, and that the checks on letters let pass. -/
structure Admitted (declared : List Char) (l : Lexeme) : Prop where
  readable : l.Readable
  allowed : ∀ c, l = letter c → c ≠ 'E' ∧ Allowed declared c

/-- All that the rewriting writes by itself. -/
def added : List Lexeme :=
  operator .mul :: zero :: lparen :: rparen :: (degreeFactor ++ percentFactor)

theorem admitted_of_mem_added (declared : List Char) :
    ∀ l ∈ added, Admitted declared l := by
  have hletter : ∀ l ∈ added, ∀ c, l ≠ letter c := by
    simp [added, zero, degreeFactor, percentFactor]
  have hnumber : ∀ l ∈ added, ∀ ds, l = number ds →
      ds ∈ [['0'], ['1', '8', '0'], ['0', '.', '0', '1']] := by
    simp [added, zero, degreeFactor, percentFactor]
  intro l hl
  refine ⟨?_, fun c hc => absurd hc (hletter l hl c)⟩
  cases l with
  | number ds =>
    have hall : ∀ ds ∈ [['0'], ['1', '8', '0'], ['0', '.', '0', '1']], ds ≠ [] ∧
        ds.all isNumeral ∧ wellFormed ds ∧ ds.head? ≠ some '.' := by decide
    obtain ⟨hne, hnumeral, hrest⟩ := hall ds (hnumber _ hl ds rfl)
    exact ⟨hne, List.all_eq_true.1 hnumeral, hrest⟩
  | letter c => exact absurd rfl (hletter _ hl c)
  | _ => trivial

theorem forall_mem_canonicalLexemes {P : Lexeme → Prop} {ls rs : List Lexeme}
    (hadded : ∀ l ∈ added, P l) (hls : ∀ l ∈ ls, P l) (h : canonicalLexemes ls = .ok rs) :
    ∀ l ∈ rs, P l := by
  simp only [added, List.forall_mem_cons] at hadded
  obtain ⟨hmul, hzero, hopen, hclose, hfactor⟩ := hadded
  have hproducts : ∀ l ∈ insertProducts ls, P l := by
    intro l hl
    rcases mem_insertProducts hl with hl | rfl
    · exact hls l hl
    · exact hmul
  have hsigns := forall_mem_rewriteSignsFrom hzero hopen hclose .opening false [] hproducts
  exact (Expansion.of_expandMarksFrom h).forall_mem hopen hfactor hsigns

/-! ### Lexemes before and after the rewriting -/

/-- What the checks ensure. -/
structure Accepted (declared : List Char) (ls : List Lexeme) : Prop where
  admitted : ∀ l ∈ ls, Admitted declared l
  balanced : IsBalanced ls
  sound : (lparen :: ls).IsChain Sound
  declares : indices ls = .ok declared

/-- What the rewriting leaves alone. -/
structure Normal (declared : List Char) (ls : List Lexeme) : Prop where
  admitted : ∀ l ∈ ls, Admitted declared l
  balanced : IsBalanced ls
  settled : (lparen :: ls).IsChain Settled
  declares : indices ls = .ok declared
  unmarked : ∀ l ∈ ls, l.isMark = false

theorem insertProducts_lparen_isChain {ls : List Lexeme} (h : (lparen :: ls).IsChain Sound) :
    (lparen :: insertProducts ls).IsChain Spaced := by
  cases ls with
  | nil => exact .singleton _
  | cons l ls => exact insertProducts_isChain h

theorem Accepted.normal {declared : List Char} {ls rs : List Lexeme} (h : Accepted declared ls)
    (hrs : canonicalLexemes ls = .ok rs) : Normal declared rs := by
  have hbal : IsBalanced (insertProducts ls) := (nesting_insertProducts 0 ls).trans h.balanced
  have hbal' : IsBalanced (rewriteSigns (insertProducts ls)) := balanced_rewriteSigns hbal
  have hchain : (lparen :: rewriteSigns (insertProducts ls)).IsChain Settled :=
    rewriteSignsFrom_isChain rfl (by simp) hbal (insertProducts_lparen_isChain h.sound)
  have hrun : Expansion (rewriteSigns (insertProducts ls)) rs := Expansion.of_expandMarksFrom hrs
  exact {
    admitted := forall_mem_canonicalLexemes (admitted_of_mem_added declared) h.admitted hrs
    balanced := (hrun.nesting_eq 0).trans hbal'
    settled := hrun.isChain hchain
    declares := by
      rw [hrun.indices_eq, indices_rewriteSigns hbal, (alike_insertProducts ls).indices, h.declares]
    unmarked := not_isMark_of_expandMarksFrom (by simp) hrs }

theorem Normal.canonicalLexemes_eq {declared : List Char} {rs : List Lexeme}
    (h : Normal declared rs) : canonicalLexemes rs = .ok rs := by
  have hproducts : insertProducts rs = rs :=
    insertProducts_eq_self (h.settled.of_cons.imp fun _ _ hab => hab.parted)
  have hsigns : rewriteSigns rs = rs :=
    rewriteSignsFrom_eq_self rfl rfl (by simp) h.balanced h.settled
  rw [canonicalLexemes, hproducts, hsigns]
  exact expandMarksFrom_eq_self h.unmarked []

/-! ### Reading a text and its rendering -/

theorem checkedLexemes_eq_ok_iff {cs : List Char} {ls : List Lexeme} :
    checkedLexemes cs = .ok ls ↔
      Bracket.check cs = .ok () ∧ Bracket.checkOperators cs = .ok () ∧
      ∃ plain, replaceBars (respell cs) = .ok plain ∧ Bracket.check plain = .ok () ∧
        scan plain = .ok ls ∧
        ∃ declared, indices ls = .ok declared ∧ checkLetters declared ls = .ok () := by
  simp only [checkedLexemes, Result.bind_eq_ok_iff, pure, Except.pure, Except.ok.injEq]
  constructor
  · rintro ⟨_, h₁, _, h₂, plain, h₃, _, h₄, ks, h₅, declared, h₆, _, h₇, rfl⟩
    exact ⟨h₁, h₂, plain, h₃, h₄, h₅, declared, h₆, h₇⟩
  · rintro ⟨h₁, h₂, plain, h₃, h₄, h₅, declared, h₆, h₇⟩
    exact ⟨(), h₁, (), h₂, plain, h₃, (), h₄, ls, h₅, declared, h₆, (), h₇, rfl⟩

theorem isChain_sound {ls : List Lexeme} (hapart : ls.IsChain Apart) (hfilled : ls.IsChain Filled)
    (hsingle : ls.IsChain fun a b => ∀ o p, a = operator o → b ≠ operator p) :
    ls.IsChain Sound := by
  induction ls with
  | nil => exact .nil
  | cons l ls ih =>
    refine (ih hapart.of_cons hfilled.of_cons hsingle.of_cons).cons fun b hb => ?_
    exact ⟨(List.isChain_cons.1 hapart).1 b hb, (List.isChain_cons.1 hfilled).1 b hb,
      (List.isChain_cons.1 hsingle).1 b hb⟩

theorem accepted_of_checkedLexemes {cs : List Char} {ls : List Lexeme}
    (h : checkedLexemes cs = .ok ls) : ∃ declared, Accepted declared ls := by
  obtain ⟨-, hops, plain, hplain, hcheck, hscan, declared, hdecl, hletters⟩ :=
    checkedLexemes_eq_ok_iff.1 h
  rw [scan_eq_ok_iff] at hscan
  obtain ⟨hbal, hfilled, -⟩ := (hscan.checkFrom_iff 0 false).1 hcheck
  obtain ⟨_, hreplaced⟩ := exists_replaced hplain
  have hunlike : plain.IsChain Bracket.Unlike :=
    hreplaced.isChain_unlike (isChain_unlike_respellFrom (Bracket.checkOperators_eq_ok_iff.1 hops))
  have hE : 'E' ∉ plain := fun hmem => by
    rcases hreplaced.of_mem hmem with hcall | hkept
    · exact absurd hcall (by decide)
    · exact not_mem_respellFrom 0 cs hkept.1
  have hsound := isChain_sound hscan.apart hfilled (hscan.isChain_operator hunlike)
  refine ⟨declared, ?_, hbal, hsound.cons fun b hb => ?_, hdecl⟩
  · refine fun l hl => ⟨hscan.readable l hl, ?_⟩
    rintro c rfl
    exact ⟨fun hc => hE (hc ▸ hscan.mem_of_letter hl), checkLetters_eq_ok_iff.1 hletters c hl⟩
  · refine ⟨trivial, ?_, by simp⟩
    rintro ⟨-, rfl⟩
    rw [List.eq_cons_of_mem_head? hb] at hbal
    cases hbal

/-- The rendering of a normal form is split into that form. -/
theorem Normal.scanned {declared : List Char} {rs : List Lexeme} (h : Normal declared rs) :
    Scanned (render rs) rs :=
  scanned_render (fun l hl => (h.admitted l hl).readable)
    (h.settled.of_cons.imp fun _ _ hab => ⟨hab.apart, hab.parted⟩)

/-- The rendering of a normal form passes every check and is read as that form. -/
theorem Normal.checkedLexemes_render {declared : List Char} {rs : List Lexeme}
    (h : Normal declared rs) : checkedLexemes (render rs) = .ok rs := by
  have hread : ∀ l ∈ rs, l.Readable := fun l hl => (h.admitted l hl).readable
  have hchain : rs.IsChain Settled := h.settled.of_cons
  have hparted : rs.IsChain Parted := hchain.imp fun _ _ hab => hab.parted
  have hscanned : Scanned (render rs) rs := h.scanned
  have hcheck : Bracket.check (render rs) = .ok () :=
    (hscanned.checkFrom_iff 0 false).2
      ⟨h.balanced, hchain.imp fun _ _ hab => hab.filled, by simp⟩
  have hops : Bracket.checkOperators (render rs) = .ok () :=
    Bracket.checkOperators_eq_ok_iff.2
      (isChain_unlike_render hread (hchain.imp fun _ _ hab => hab.single))
  have hE : letter 'E' ∉ rs := fun hmem => ((h.admitted _ hmem).allowed 'E' rfl).1 rfl
  refine checkedLexemes_eq_ok_iff.2 ⟨hcheck, hops, render rs, ?_, hcheck, hscanned.scan_eq, declared,
    h.declares, checkLetters_eq_ok_iff.2 fun c hc => ((h.admitted _ hc).allowed c rfl).2⟩
  rw [respell_render hread hparted hE, replaceBars_render hread]

/-! ### Nothing is lost -/

theorem respell_ne_nil {cs : List Char} (h : cs ≠ []) : respell cs ≠ [] := by
  obtain ⟨c, cs, rfl⟩ := List.exists_cons_of_ne_nil h
  unfold respell respellFrom
  split
  · next a ha => simp [proper_ne_nil (mem_aliases_of_alias? ha)]
  · simp

theorem replaceBars_ne_nil {cs plain : List Char} (h : cs ≠ []) (hb : replaceBars cs = .ok plain) :
    plain ≠ [] := by
  obtain ⟨_, hreplaced⟩ := exists_replaced hb
  cases hreplaced <;> simp_all

theorem rewriteSigns_ne_nil {ls : List Lexeme} (h : ls ≠ []) : rewriteSigns ls ≠ [] := by
  obtain ⟨l, ls, rfl⟩ := List.exists_cons_of_ne_nil h
  rw [rewriteSigns, rewriteSignsFrom.eq_def]
  split <;> (try split) <;> simp_all [owed]

theorem Expansion.ne_nil {ls rs : List Lexeme} (h : Expansion ls rs) (hls : ls ≠ []) : rs ≠ [] := by
  induction h with
  | done => exact hls
  | step _ _ _ _ ih => exact ih (by simp)

theorem checkedLexemes_ne_nil {cs : List Char} {ls : List Lexeme} (hcs : cs ≠ [])
    (h : checkedLexemes cs = .ok ls) : ls ≠ [] := by
  obtain ⟨-, -, plain, hplain, -, hscan, -⟩ := checkedLexemes_eq_ok_iff.1 h
  have hne := replaceBars_ne_nil (respell_ne_nil hcs) hplain
  rintro rfl
  cases scan_eq_ok_iff.1 hscan
  exact hne rfl

theorem canonicalLexemes_ne_nil {ls rs : List Lexeme} (hls : ls ≠ [])
    (h : canonicalLexemes ls = .ok rs) : rs ≠ [] := by
  refine (Expansion.of_expandMarksFrom h).ne_nil (rewriteSigns_ne_nil ?_)
  obtain ⟨l, ls, rfl⟩ := List.exists_cons_of_ne_nil hls
  have hhead := insertProducts_head? (l :: ls)
  intro hnil
  rw [hnil] at hhead
  cases hhead

theorem canonicalLetters_eq_ok_iff {typed cs : List Char} :
    canonicalLetters typed = .ok cs ↔ Text.withoutBlanks typed ≠ [] ∧
      ∃ ls rs, checkedLexemes (Text.withoutBlanks typed) = .ok ls ∧ canonicalLexemes ls = .ok rs ∧
        render rs = cs := by
  unfold canonicalLetters
  dsimp only
  split
  · next h => simp [List.isEmpty_iff.1 h]
  · next h =>
    have hne : Text.withoutBlanks typed ≠ [] := fun hnil => h (List.isEmpty_iff.2 hnil)
    simp only [Result.bind_eq_ok_iff, pure, Except.pure, Except.ok.injEq]
    exact ⟨fun ⟨ls, hls, rs, hrs, hcs⟩ => ⟨hne, ls, rs, hls, hrs, hcs⟩,
      fun ⟨_, ls, rs, hls, hrs, hcs⟩ => ⟨ls, hls, rs, hrs, hcs⟩⟩

theorem Normal.canonicalLetters_render {declared : List Char} {rs : List Lexeme}
    (h : Normal declared rs) (hne : rs ≠ []) : canonicalLetters (render rs) = .ok (render rs) := by
  have hread : ∀ l ∈ rs, l.Readable := fun l hl => (h.admitted l hl).readable
  rw [canonicalLetters_eq_ok_iff, withoutBlanks_render hread]
  refine ⟨?_, rs, rs, h.checkedLexemes_render, h.canonicalLexemes_eq, rfl⟩
  obtain ⟨l, rs, rfl⟩ := List.exists_cons_of_ne_nil hne
  simp [(hread l List.mem_cons_self).letters_ne_nil]

/-- A canonical spelling is the rendering of lexemes in normal form. -/
theorem exists_normal_of_canonicalLetters {typed cs : List Char}
    (h : canonicalLetters typed = .ok cs) :
    ∃ declared rs, Normal declared rs ∧ rs ≠ [] ∧ cs = render rs := by
  obtain ⟨hne, ls, rs, hls, hrs, rfl⟩ := canonicalLetters_eq_ok_iff.1 h
  obtain ⟨declared, haccepted⟩ := accepted_of_checkedLexemes hls
  exact ⟨declared, rs, haccepted.normal hrs,
    canonicalLexemes_ne_nil (checkedLexemes_ne_nil hne hls) hrs, rfl⟩

theorem canonicalLetters_canonicalLetters {typed cs : List Char}
    (h : canonicalLetters typed = .ok cs) : canonicalLetters cs = .ok cs := by
  obtain ⟨declared, rs, hnormal, hne, rfl⟩ := exists_normal_of_canonicalLetters h
  exact hnormal.canonicalLetters_render hne

end ComplexSeries.Input

namespace ComplexSeries

theorem exists_normal_of_canonical {typed spelled : String} (h : canonical typed = .ok spelled) :
    ∃ declared rs, Input.Normal declared rs ∧ rs ≠ [] ∧ spelled.toList = Lexeme.render rs := by
  obtain ⟨cs, hcs, rfl⟩ := Result.map_eq_ok_iff.1 h
  rw [String.toList_ofList]
  exact Input.exists_normal_of_canonicalLetters hcs

/-- Spelling a canonical spelling again changes nothing. -/
theorem canonical_idempotent {typed spelled : String} (h : canonical typed = .ok spelled) :
    canonical spelled = .ok spelled := by
  obtain ⟨cs, hcs, rfl⟩ := Result.map_eq_ok_iff.1 h
  rw [canonical, String.toList_ofList, Input.canonicalLetters_canonicalLetters hcs]
  rfl

theorem canonical_idempotent_marks :
    canonical "2x-|E|30°" = .ok "2*x-abs(e)*(30*pi/180)" ∧
      canonical "2*x-abs(e)*(30*pi/180)" = .ok "2*x-abs(e)*(30*pi/180)" := by
  have h : canonical "2x-|E|30°" = .ok "2*x-abs(e)*(30*pi/180)" := by rfl
  exact ⟨h, canonical_idempotent h⟩

end ComplexSeries
