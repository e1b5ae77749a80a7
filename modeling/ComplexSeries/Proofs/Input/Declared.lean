import ComplexSeries.Input.Letters
import ComplexSeries.Proofs.Lexeme.Arguments

/-! Which letters the aggregates of a list declare, told by one pass over each argument list. The
pass keeps how many brackets are open, how many separators it has met outside of them, and whether
the present argument is empty, a single letter, or anything else. Two lists declare the same letters
if the pass cannot tell them apart. -/
namespace ComplexSeries.Input

open Lexeme

/-- What the argument being read has consisted of so far. -/
inductive Content where
  | empty
  | letter (c : Char)
  | other
deriving DecidableEq

namespace Content

def push : Content → Lexeme → Content
  | empty, .letter c => letter c
  | _, _ => other

def letter? : Content → Option Char
  | letter c => some c
  | _ => none

def ofList (ls : List Lexeme) : Content := ls.foldl push empty

@[simp] theorem push_other (l : Lexeme) : other.push l = other := rfl

theorem push_ne_empty (t : Content) (l : Lexeme) : t.push l ≠ empty := by
  cases t <;> cases l <;> simp [push]

theorem push_eq_other {t : Content} (h : t ≠ empty) (l : Lexeme) : t.push l = other := by
  cases t <;> first | rfl | contradiction

theorem push_push (t : Content) (k l : Lexeme) : (t.push k).push l = other :=
  push_eq_other (push_ne_empty t k) l

theorem ofList_append_singleton (ls : List Lexeme) (l : Lexeme) :
    ofList (ls ++ [l]) = (ofList ls).push l := by
  simp [ofList]

end Content

/-- The letter declared by an argument list of which `separators` and `content` have been read, with
`depth` inner brackets open. -/
def declaredFrom : (depth separators : Nat) → (content : Content) → List Lexeme → Option Char
  | _, _, _, [] => none
  | 0, n, t, rparen :: _ => if n = 3 then t.letter? else none
  | depth + 1, n, t, rparen :: ls => declaredFrom depth n (t.push rparen) ls
  | depth, n, t, lparen :: ls => declaredFrom (depth + 1) n (t.push lparen) ls
  | 0, n, _, separator :: ls => declaredFrom 0 (n + 1) .empty ls
  | depth, n, t, l :: ls => declaredFrom depth n (t.push l) ls

variable {depth n : Nat} {t : Content} {ls : List Lexeme}

@[simp] theorem declaredFrom_nil : declaredFrom depth n t [] = none := by
  cases depth <;> rfl

@[simp] theorem declaredFrom_close :
    declaredFrom 0 n t (rparen :: ls) = if n = 3 then t.letter? else none := rfl

@[simp] theorem declaredFrom_succ_rparen :
    declaredFrom (depth + 1) n t (rparen :: ls) = declaredFrom depth n .other ls := by
  cases t <;> rfl

@[simp] theorem declaredFrom_lparen :
    declaredFrom depth n t (lparen :: ls) = declaredFrom (depth + 1) n .other ls := by
  cases depth <;> cases t <;> rfl

@[simp] theorem declaredFrom_separator :
    declaredFrom 0 n t (separator :: ls) = declaredFrom 0 (n + 1) .empty ls := rfl

@[simp] theorem declaredFrom_succ_separator :
    declaredFrom (depth + 1) n t (separator :: ls) = declaredFrom (depth + 1) n .other ls := by
  cases t <;> rfl

theorem declaredFrom_cons {l : Lexeme} (h : l.isPlain) :
    declaredFrom depth n t (l :: ls) = declaredFrom depth n (t.push l) ls := by
  cases l <;> first | (cases depth <;> rfl) | cases h

/-! ### The pass finds what is declared -/

/-- The letter declared if `separators` and `present` were read before the arguments that are left,
of which the first goes on with `present`. -/
def finish (separators : Nat) (present : List Lexeme) : List (List Lexeme) → Option Char
  | [] => none
  | [a] => if separators = 3 then (Content.ofList (present ++ a)).letter? else none
  | _ :: b :: as => finish (separators + 1) [] (b :: as)

theorem finish_joinFirst (n : Nat) (present : List Lexeme) (l : Lexeme) {as : List (List Lexeme)}
    (h : as ≠ []) : finish n present (joinFirst l as) = finish n (present ++ [l]) as := by
  match as with
  | [a] => simp [joinFirst, finish]
  | _ :: _ :: _ => simp [joinFirst, finish]

theorem bind_joinFirst (depth n : Nat) (present : List Lexeme) (l : Lexeme) (ls : List Lexeme) :
    ((argumentsFrom? depth ls).map (joinFirst l)).bind (finish n present) =
      (argumentsFrom? depth ls).bind (finish n (present ++ [l])) := by
  cases h : argumentsFrom? depth ls with
  | none => rfl
  | some as => exact finish_joinFirst n present l (argumentsFrom?_ne_nil h)

theorem bind_nil_cons (depth n : Nat) (present ls : List Lexeme) :
    ((argumentsFrom? depth ls).map ([] :: ·)).bind (finish n present) =
      (argumentsFrom? depth ls).bind (finish (n + 1) []) := by
  cases h : argumentsFrom? depth ls with
  | none => rfl
  | some as =>
    obtain ⟨a, as, rfl⟩ := List.exists_cons_of_ne_nil (argumentsFrom?_ne_nil h)
    rfl

theorem Content.ofList_append_of_ne_letter (present : List Lexeme) {l : Lexeme}
    (h : ∀ c, l ≠ .letter c) : ofList (present ++ [l]) = other := by
  rw [ofList_append_singleton]
  cases ofList present <;> cases l <;> first | rfl | exact absurd rfl (h _)

theorem declaredFrom_eq (depth n : Nat) (present ls : List Lexeme) :
    declaredFrom depth n (Content.ofList present) ls =
      (argumentsFrom? depth ls).bind (finish n present) := by
  induction ls generalizing depth n present with
  | nil => simp
  | cons l ls ih =>
    rcases plain_cases l with rfl | rfl | rfl | hl
    · rw [declaredFrom_lparen, argumentsFrom?_lparen, bind_joinFirst, ← ih,
        Content.ofList_append_of_ne_letter present (by simp)]
    · cases depth with
      | zero => simp [finish]
      | succ depth =>
        rw [declaredFrom_succ_rparen, argumentsFrom?_succ_rparen, bind_joinFirst, ← ih,
          Content.ofList_append_of_ne_letter present (by simp)]
    · cases depth with
      | zero =>
        rw [declaredFrom_separator, argumentsFrom?_separator, bind_nil_cons, ← ih]
        rfl
      | succ depth =>
        rw [declaredFrom_succ_separator, argumentsFrom?_succ_separator, bind_joinFirst, ← ih,
          Content.ofList_append_of_ne_letter present (by simp)]
    · rw [declaredFrom_cons hl, argumentsFrom?_cons hl, bind_joinFirst, ← ih,
        Content.ofList_append_singleton]

theorem Content.letter?_ofList_eq_some_iff {a : List Lexeme} {c : Char} :
    (ofList a).letter? = some c ↔ a = [.letter c] := by
  match a with
  | [] => simp [ofList, letter?]
  | [l] => cases l <;> simp [ofList, push, letter?]
  | k :: l :: a =>
    have hother : ∀ bs : List Lexeme, bs.foldl push other = other := by
      intro bs
      induction bs with
      | nil => rfl
      | cons b bs ih => exact ih
    simp [ofList, push_push, hother, letter?]

theorem finish_eq_none {present : List Lexeme} {as : List (List Lexeme)} (h : 3 < n) :
    finish n present as = none := by
  induction as generalizing n present with
  | nil => rfl
  | cons a as ih =>
    cases as with
    | nil => exact if_neg (by omega)
    | cons b as => exact ih (Nat.lt_succ_of_lt h)

theorem declared?_eq (ls : List Lexeme) : declared? ls = declaredFrom 0 0 .empty ls := by
  rw [show Content.empty = Content.ofList [] from rfl, declaredFrom_eq, declared?, arguments?]
  cases argumentsFrom? 0 ls with
  | none => rfl
  | some as =>
    rcases as with _ | ⟨lower, _ | ⟨upper, _ | ⟨body, _ | ⟨a, _ | ⟨b, as⟩⟩⟩⟩⟩
    case nil | cons.nil | cons.cons.nil | cons.cons.cons.nil => rfl
    case cons.cons.cons.cons.nil =>
      ext c
      simp only [Option.bind_some, finish, List.nil_append, if_true,
        Content.letter?_ofList_eq_some_iff]
      split <;> simp_all
    case cons.cons.cons.cons.cons =>
      simp only [Option.bind_some, finish, finish_eq_none (show 3 < 0 + 1 + 1 + 1 + 1 by decide)]

end ComplexSeries.Input
