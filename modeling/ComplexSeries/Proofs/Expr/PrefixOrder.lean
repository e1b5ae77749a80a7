import Mathlib.Data.List.Forall2
import ComplexSeries.Token.OfExpr
import ComplexSeries.Proofs.Integral.Nearest

/-! Prefix order without brackets keeps trees apart. The tokens of a tree, with whatever behind them,
tell where the tree ends and which tree it is, but for the names of its constants. This holds for
tokens that are equal, and as well for tokens that are equal by value, which is how the memory of
integrals compares bodies. -/
namespace ComplexSeries

variable {R : Type}

/-- The same token, but for literals, which are related. -/
def Token.Agrees (related : Complex R → Complex R → Prop) : Token R → Token R → Prop
  | .literal z, .literal w => related z w
  | .var c, .var d => c = d
  | .operation o, .operation p => o = p
  | .binder c, .binder d => c = d
  | _, _ => False

namespace Expr

/-- The same tree, but for literals, which are related. -/
def Agrees (related : Complex R → Complex R → Prop) : Expr R → Expr R → Prop
  | const z, const w => related z w
  | constant c, constant d => c = d
  | var c, var d => c = d
  | binary o a b, binary p a' b' => o = p ∧ a.Agrees related a' ∧ b.Agrees related b'
  | call f a, call g a' => f = g ∧ a.Agrees related a'
  | log a b, log a' b' => a.Agrees related a' ∧ b.Agrees related b'
  | aggregate k lower upper body index, aggregate k' lower' upper' body' index' =>
    k = k' ∧ lower.Agrees related lower' ∧ upper.Agrees related upper' ∧
      body.Agrees related body' ∧ index = index'
  | _, _ => False

theorem agrees_eq_iff {e₁ e₂ : Expr R} : e₁.Agrees (· = ·) e₂ ↔ e₁ = e₂ := by
  induction e₁ generalizing e₂ with
  | const | constant | var => cases e₂ <;> simp [Agrees]
  | binary o a b iha ihb | log a b iha ihb => cases e₂ <;> simp [Agrees, iha, ihb]
  | call f a ih => cases e₂ <;> simp [Agrees, ih]
  | aggregate k lower upper body index ihl ihu ihb => cases e₂ <;> simp [Agrees, ihl, ihu, ihb]

end Expr

theorem Token.agrees_eq_iff {t u : Token R} : t.Agrees (· = ·) u ↔ t = u := by
  cases t <;> cases u <;> simp [Token.Agrees]

variable [Scalar R]

theorem Token.agrees_beq_iff {t u : Token R} : t.Agrees (· == ·) u ↔ (t == u) = true := by
  change _ ↔ Token.same t u = true
  cases t <;> cases u <;> simp [Token.Agrees, Token.same]

theorem forall₂_agrees_beq_iff {ts us : List (Token R)} :
    List.Forall₂ (Token.Agrees (· == ·)) ts us ↔ (ts == us) = true := by
  induction ts generalizing us with
  | nil => cases us <;> simp
  | cons t ts ih => cases us <;> simp [Token.agrees_beq_iff, ih]

namespace Expr

/-- The tree with the value of each named constant in its place. -/
def unnamed : Expr R → Expr R
  | const z => const z
  | constant c => const (Complex.ofConstant c)
  | var name => var name
  | binary o a b => binary o a.unnamed b.unnamed
  | call f a => call f a.unnamed
  | log a b => log a.unnamed b.unnamed
  | aggregate k lower upper body index =>
    aggregate k lower.unnamed upper.unnamed body.unnamed index

/-- No two trees collide: wherever the tokens run alike, the trees do, and so does what follows. -/
theorem forall₂_tokens_append_iff (related : Complex R → Complex R → Prop) (e₁ e₂ : Expr R)
    (r₁ r₂ : List (Token R)) :
    List.Forall₂ (Token.Agrees related) (e₁.tokens ++ r₁) (e₂.tokens ++ r₂) ↔
      e₁.unnamed.Agrees related e₂.unnamed ∧ List.Forall₂ (Token.Agrees related) r₁ r₂ := by
  induction e₁ generalizing e₂ r₁ r₂ with
  | const | constant | var => cases e₂ <;> simp [tokens, unnamed, Agrees, Token.Agrees]
  | binary o a b iha ihb | log a b iha ihb =>
    cases e₂ <;> simp [tokens, unnamed, Agrees, Token.Agrees, iha, ihb, and_assoc]
  | call f a ih => cases e₂ <;> simp [tokens, unnamed, Agrees, Token.Agrees, ih, and_assoc]
  | aggregate k lower upper body index ihl ihu ihb =>
    cases e₂ <;> simp [tokens, unnamed, Agrees, Token.Agrees, ihl, ihu, ihb, and_assoc]

/-- The tokens of two trees, with something behind them, are equal if and only if the trees are, with
the values of constants in place of their names, and what is behind them is. So a stored integral fits
a request exactly if both are of the same tree, where literals are compared by value. -/
theorem tokens_append_eq_iff (e₁ e₂ : Expr R) (r₁ r₂ : List (Token R)) :
    (e₁.tokens ++ r₁ = e₂.tokens ++ r₂ ↔ e₁.unnamed = e₂.unnamed ∧ r₁ = r₂) ∧
      ((e₁.tokens ++ r₁ == e₂.tokens ++ r₂) = true ↔
        e₁.unnamed.Agrees (· == ·) e₂.unnamed ∧ (r₁ == r₂) = true) ∧
      ∀ (index₁ index₂ : Char) (bindings₁ bindings₂ : List (Char × Complex R))
        (lower₁ upper₁ lower₂ upper₂ : R) (value : Complex R),
        (⟨⟨e₁.tokens, index₁, bindings₁, lower₁, upper₁⟩, value⟩ : Integral.Entry R).fits
            ⟨e₂.tokens, index₂, bindings₂, lower₂, upper₂⟩ = true ↔
          index₁ = index₂ ∧ (bindings₁ == bindings₂) = true ∧
            e₁.unnamed.Agrees (· == ·) e₂.unnamed := by
  have hequal : e₁.tokens ++ r₁ = e₂.tokens ++ r₂ ↔ e₁.unnamed = e₂.unnamed ∧ r₁ = r₂ := by
    have h := forall₂_tokens_append_iff (· = ·) e₁ e₂ r₁ r₂
    rwa [funext₂ fun t u => propext (Token.agrees_eq_iff (t := t) (u := u)), agrees_eq_iff,
      List.forall₂_eq_eq_eq] at h
  have hvalue (r₁ r₂ : List (Token R)) : (e₁.tokens ++ r₁ == e₂.tokens ++ r₂) = true ↔
      e₁.unnamed.Agrees (· == ·) e₂.unnamed ∧ (r₁ == r₂) = true := by
    rw [← forall₂_agrees_beq_iff, ← forall₂_agrees_beq_iff]
    exact forall₂_tokens_append_iff (· == ·) e₁ e₂ r₁ r₂
  refine ⟨hequal, hvalue r₁ r₂, fun _ _ _ _ _ _ _ _ _ => ?_⟩
  have hbody := hvalue [] []
  rw [List.append_nil, List.append_nil, and_iff_left (by rfl)] at hbody
  rw [Integral.Entry.fits_iff, beq_iff_eq]
  exact and_congr_right fun _ => and_congr_right fun _ => hbody

end Expr

end ComplexSeries
