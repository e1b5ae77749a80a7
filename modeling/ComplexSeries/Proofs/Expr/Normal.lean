import ComplexSeries.Proofs.Expr.Grammar
import ComplexSeries.Proofs.Expr.Scope
import ComplexSeries.Proofs.Input.Canonical

/-! What is derived is in normal form. Its brackets balance, no mark and no leading sign stands in it,
wherever it may stand as an operand it settles with its neighbours, and the letters that it declares
are the indices of the tree. So if its lexemes can be read at all, its rendering is canonical. -/
namespace ComplexSeries

open Lexeme

/-! ### Stretches that stand as an operand -/

namespace Input

/-- An operand may begin after this lexeme. -/
def Opens (a : Lexeme) : Prop := a.endsOperand = false ∧ ∀ k, a ≠ keyword k

/-- Between a lexeme that opens and one that begins no operand, the list settles. -/
def Fits (ks : List Lexeme) : Prop :=
  ∀ ⦃a b : Lexeme⦄ ⦃ls : List Lexeme⦄, Opens a → b.startsOperand = false →
    (b :: ls).IsChain Settled → (a :: (ks ++ b :: ls)).IsChain Settled

variable {ks ls : List Lexeme}

theorem opens_lparen : Opens lparen := ⟨rfl, by simp⟩

theorem opens_separator : Opens separator := ⟨rfl, by simp⟩

theorem opens_operator (o : Operator) : Opens (operator o) := ⟨rfl, by simp⟩

theorem fits_singleton {l : Lexeme} (hstart : l.startsOperand) (hend : l.endsOperand) :
    Fits [l] := by
  intro a b ls ha hb h
  apply List.IsChain.cons_cons (Settled.of_opens ha.1 ha.2 hstart)
  exact h.cons_cons (Settled.of_closes hend hb)

theorem Fits.link {l : Lexeme} (hks : Fits ks) (hls : Fits ls) (hopens : Opens l)
    (hl : l.startsOperand = false) : Fits (ks ++ l :: ls) := by
  intro a b rest ha hb h
  rw [List.append_assoc, List.cons_append]
  exact hks ha hl (hls hopens hb h)

theorem isChain_parens (hks : Fits ks) {b : Lexeme} {rest : List Lexeme}
    (hb : b.startsOperand = false) (h : (b :: rest).IsChain Settled) :
    (lparen :: ks ++ [rparen] ++ b :: rest).IsChain Settled := by
  rw [List.append_assoc, List.cons_append, List.singleton_append]
  exact hks opens_lparen rfl (h.cons_cons (Settled.of_closes rfl hb))

theorem Fits.parens (hks : Fits ks) : Fits (lparen :: ks ++ [rparen]) := by
  intro a b rest ha hb h
  have hinner := isChain_parens hks hb h
  exact hinner.cons_cons (Settled.of_opens ha.1 ha.2 rfl)

theorem settled_keyword_lparen {k : Keyword} (hk : k.isConstant = false) :
    Settled (keyword k) lparen where
  apart := apart_of_not_isWordChar (by simp [letters, isWordChar, isNumeral])
  filled := by simp [Filled]
  single := by simp
  parted := by
    rintro ⟨hends, -⟩
    exact absurd (hk.symm.trans hends) Bool.false_ne_true
  unsigned := by simp

/-- The name of a call, and its arguments in brackets. -/
theorem Fits.call {k : Keyword} (hk : k.isConstant = false) (hks : Fits ks) :
    Fits (keyword k :: lparen :: ks ++ [rparen]) := by
  intro a b rest ha hb h
  have hinner := isChain_parens hks hb h
  apply List.IsChain.cons_cons (Settled.of_opens ha.1 ha.2 rfl)
  exact hinner.cons_cons (settled_keyword_lparen hk)

theorem Fits.isChain (hks : Fits ks) : (lparen :: ks).IsChain Settled := by
  have h : (lparen :: (ks ++ [rparen])).IsChain Settled :=
    hks opens_lparen rfl (List.isChain_singleton rparen)
  rw [← List.cons_append] at h
  exact h.left_of_append

/-- The letters that are declared, in front of those of what follows. -/
def Declares (ks : List Lexeme) (ds : List Char) : Prop :=
  ∀ ⦃ls es⦄, indices ls = .ok es → indices (ks ++ ls) = .ok (ds ++ es)

variable {ds es : List Char}

theorem declares_nil : Declares [] [] := fun _ _ h => h

theorem Declares.cons {l : Lexeme} (h : Declares ks ds) (hl : ∀ a, l ≠ keyword (.aggregate a)) :
    Declares (l :: ks) ds := by
  intro ls es hes
  rw [List.cons_append, indices_cons_of_not_isAggregate hl]
  exact h hes

theorem Declares.append (hks : Declares ks ds) (hls : Declares ls es) :
    Declares (ks ++ ls) (ds ++ es) := by
  intro rest fs hfs
  rw [List.append_assoc, List.append_assoc]
  exact hks (hls hfs)

theorem Declares.parens (h : Declares ks ds) : Declares (lparen :: ks ++ [rparen]) ds := by
  have hclose : Declares [rparen] [] := declares_nil.cons (by simp)
  have := (h.append hclose).cons (l := lparen) (by simp)
  rwa [List.append_nil] at this

/-- An aggregate declares its index first. -/
theorem Declares.aggregate {a : Aggregate} {c : Char} (h : Declares ks ds)
    (hargs : ∀ rest, declared? (ks ++ rparen :: rest) = some c) (hc : isVariable c = false) :
    Declares (keyword (.aggregate a) :: lparen :: ks ++ [rparen]) (c :: ds) := by
  intro ls es hes
  have hinner : indices (lparen :: ks ++ [rparen] ++ ls) = .ok (ds ++ es) := h.parens hes
  have hopened : opened? (keyword (.aggregate a)) (lparen :: ks ++ [rparen] ++ ls) = some c := by
    rw [List.append_assoc, List.singleton_append]
    exact hargs ls
  rw [List.cons_append, List.cons_append, indices_cons, hopened, hinner]
  simp [hc, Except.map]

end Input

/-! ### Derived lists -/

namespace Expr

open Input

variable {R : Type}

/-- The indices of the aggregates, from left to right. -/
def binders : Expr R → List Char
  | const _ | constant _ | var _ => []
  | binary _ a b | log a b => a.binders ++ b.binders
  | call _ a => a.binders
  | aggregate _ lower upper body index =>
    index :: (lower.binders ++ (upper.binders ++ body.binders))

namespace Derivation

variable [Scalar R] {l : Level} {scope : List Char} {ks : List Lexeme} {e : Expr R}

theorem balanced (d : Derivation l scope ks e) : IsBalanced ks := by
  have link {js ks : List Lexeme} {k : Lexeme} (hjs : IsBalanced js) (hks : IsBalanced ks)
      (hk : k.isBracket = false) : IsBalanced (js ++ k :: ks) := by
    rw [IsBalanced, hjs.nesting_append, nesting_cons hk, hks.nesting]
  have call {ks : List Lexeme} (k : Keyword) (hks : IsBalanced ks) :
      IsBalanced (keyword k :: lparen :: ks ++ [rparen]) := by
    rw [IsBalanced, List.cons_append, nesting_cons rfl]
    exact hks.parens
  induction d with
  | number | constant | bound | unit => rfl
  | parens _ ih => exact ih.parens
  | call f _ ih => exact call _ ih
  | log _ _ ih ih' => exact call _ (link ih ih' rfl)
  | @aggregate _ _ _ _ _ _ _ index _ _ _ _ _ ih ih' ih'' =>
    have hindex : IsBalanced [letter index] := rfl
    exact call _ (link ih (link ih' (link ih'' hindex rfl) rfl) rfl)
  | power _ ih | product _ ih | sum _ ih => exact ih
  | pow _ _ ih ih' | factor _ _ _ ih ih' | term _ _ _ ih ih' => exact link ih ih' rfl

theorem fits (d : Derivation l scope ks e) : Fits ks := by
  have link {js ks : List Lexeme} (o : Operator) (hjs : Fits js) (hks : Fits ks) :
      Fits (js ++ operator o :: ks) := hjs.link hks (opens_operator o) rfl
  induction d with
  | number | constant | bound | unit => exact fits_singleton rfl rfl
  | parens _ ih => exact ih.parens
  | call f _ ih => exact Fits.call rfl ih
  | log _ _ ih ih' => exact Fits.call rfl (ih.link ih' opens_separator rfl)
  | @aggregate _ _ _ _ _ _ _ index _ _ _ _ _ ih ih' ih'' =>
    have hindex : Fits [letter index] := fits_singleton rfl rfl
    have hbody := ih''.link hindex opens_separator rfl
    have hupper := ih'.link hbody opens_separator rfl
    exact Fits.call rfl (ih.link hupper opens_separator rfl)
  | power _ ih | product _ ih | sum _ ih => exact ih
  | pow _ _ ih ih' | factor _ _ _ ih ih' | term _ _ _ ih ih' => exact link _ ih ih'

theorem declares (d : Derivation l scope ks e) : Declares ks e.binders := by
  have link {js ks : List Lexeme} {ds es : List Char} {k : Lexeme} (hjs : Declares js ds)
      (hks : Declares ks es) (hk : ∀ a, k ≠ keyword (.aggregate a)) :
      Declares (js ++ k :: ks) (ds ++ es) := hjs.append (hks.cons hk)
  induction d with
  | number | constant | bound | unit => exact declares_nil.cons (by simp)
  | parens _ ih => exact ih.parens
  | call f _ ih => exact ih.parens.cons (by simp)
  | log _ _ ih ih' => exact (link ih ih' (by simp)).parens.cons (by simp)
  | @aggregate scope ks ls ms lower upper body index k d d' hindex d'' ih ih' ih'' =>
    have hlast : Declares [separator, letter index] [] := (declares_nil.cons (by simp)).cons (by simp)
    have hbody : Declares (ms ++ [separator, letter index]) body.binders := by
      have := ih''.append hlast
      rwa [List.append_nil] at this
    have hvariable : isVariable index = false := (Bool.or_eq_false_iff.1 hindex).1
    apply (link ih (link ih' hbody (by simp)) (by simp)).aggregate (fun rest => ?_) hvariable
    have hletter : Joins 0 [letter index] := joins_nil.cons rfl
    have hargs : arguments? (ks ++ separator :: (ls ++ separator :: (ms ++ separator ::
        ([letter index] ++ rparen :: rest)))) = some [ks, ls, ms, [letter index]] := by
      rw [(d.joins 0).arguments?_separator, (d'.joins 0).arguments?_separator,
        (d''.joins 0).arguments?_separator, hletter.arguments?_close]
      rfl
    simp only [List.append_assoc, List.cons_append, List.nil_append] at hargs ⊢
    rw [declared?, hargs]
  | power _ ih | product _ ih | sum _ ih => exact ih
  | pow _ _ ih ih' | factor _ _ _ ih ih' | term _ _ _ ih ih' => exact link ih ih' (by simp)

theorem unmarked (d : Derivation l scope ks e) : ∀ k ∈ ks, k.isMark = false := by
  have link {js ks : List Lexeme} {j : Lexeme} (hjs : ∀ k ∈ js, k.isMark = false)
      (hj : j.isMark = false) (hks : ∀ k ∈ ks, k.isMark = false) :
      ∀ k ∈ js ++ j :: ks, k.isMark = false :=
    List.forall_mem_append.2 ⟨hjs, List.forall_mem_cons.2 ⟨hj, hks⟩⟩
  have parens {ks : List Lexeme} (hks : ∀ k ∈ ks, k.isMark = false) :
      ∀ k ∈ lparen :: ks ++ [rparen], k.isMark = false :=
    link (List.forall_mem_cons.2 ⟨rfl, hks⟩) rfl (by simp)
  induction d with
  | number | constant | bound | unit => exact List.forall_mem_singleton.2 rfl
  | parens _ ih => exact parens ih
  | call f _ ih => exact List.forall_mem_cons.2 ⟨rfl, parens ih⟩
  | log _ _ ih ih' => exact List.forall_mem_cons.2 ⟨rfl, parens (link ih rfl ih')⟩
  | aggregate _ _ _ _ _ ih ih' ih'' =>
    have hindex : ∀ c, ∀ k ∈ [letter c], k.isMark = false := fun c =>
      List.forall_mem_singleton.2 rfl
    exact List.forall_mem_cons.2
      ⟨rfl, parens (link ih rfl (link ih' rfl (link ih'' rfl (hindex _))))⟩
  | power _ ih | product _ ih | sum _ ih => exact ih
  | pow _ _ ih ih' | factor _ _ _ ih ih' | term _ _ _ ih ih' => exact link ih rfl ih'

/-- A letter is a name in scope, the imaginary unit or an index. -/
theorem allowed_of_mem (d : Derivation l scope ks e) {c : Char} (hc : letter c ∈ ks) :
    isBound scope c = true ∨ c = 'i' ∨ c ∈ e.binders := by
  induction d with
  | number | constant => simp at hc
  | bound h =>
    rw [List.mem_singleton, letter.injEq] at hc
    exact .inl (hc ▸ h)
  | unit =>
    rw [List.mem_singleton, letter.injEq] at hc
    exact .inr (.inl hc)
  | parens _ ih => exact ih (by simpa using hc)
  | call f _ ih => exact ih (by simpa using hc)
  | log _ _ ih ih' | pow _ _ ih ih' | factor _ _ _ ih ih' | term _ _ _ ih ih' =>
    simp only [List.cons_append, List.mem_cons, List.mem_append, reduceCtorEq, false_or,
      List.not_mem_nil, or_false] at hc
    rw [binders, List.mem_append]
    rcases hc with hc | hc
    · exact (ih hc).imp_right (Or.imp_right .inl)
    · exact (ih' hc).imp_right (Or.imp_right .inr)
  | aggregate _ _ _ _ _ ih ih' ih'' =>
    simp only [List.cons_append, List.mem_cons, List.mem_append, reduceCtorEq, false_or,
      List.not_mem_nil, or_false, letter.injEq] at hc
    rw [binders, List.mem_cons, List.mem_append, List.mem_append]
    rcases hc with hc | hc | hc | hc
    · exact (ih hc).imp_right (Or.imp_right fun h => .inr (.inl h))
    · exact (ih' hc).imp_right (Or.imp_right fun h => .inr (.inr (.inl h)))
    · rcases ih'' hc with h | h | h
      · rcases (isBound_cons _ _ _).1 h with h | h
        · exact .inr (.inr (.inl h))
        · exact .inl h
      · exact .inr (.inl h)
      · exact .inr (.inr (.inr (.inr (.inr h))))
    · exact .inr (.inr (.inl hc))
  | power _ ih | product _ ih | sum _ ih => exact ih hc

/-- A derived list that can be read is in normal form. -/
theorem normal (d : Derivation l [] ks e) (hread : ∀ k ∈ ks, k.Readable)
    (hletters : letter 'E' ∉ ks) : Normal e.binders ks where
  admitted k hk := by
    refine ⟨hread k hk, ?_⟩
    rintro c rfl
    refine ⟨fun hc => hletters (hc ▸ hk), ?_⟩
    simp only [Allowed, Bool.or_eq_true, decide_eq_true_eq, List.contains_iff_mem, or_assoc]
    simpa [isBound] using d.allowed_of_mem hk
  balanced := d.balanced
  settled := d.fits.isChain
  declares := by
    have h : indices (ks ++ []) = .ok (e.binders ++ []) := d.declares rfl
    rwa [List.append_nil, List.append_nil] at h
  unmarked := d.unmarked

end Derivation

end Expr

end ComplexSeries
