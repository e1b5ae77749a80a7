/-! Second spellings. At each place of a text the first alias of the list that begins there gives
way to its proper spelling; what is written is not read again. -/
namespace ComplexSeries.Input

structure Alias where
  typed : List Char
  proper : List Char

/-- The longer of two aliases that begin alike stands first. The decimal comma is one of them. -/
def aliases : List Alias :=
  [⟨['a', 'r', 'c', 's', 'i', 'n', 'h'], ['a', 's', 'i', 'n', 'h']⟩,
   ⟨['a', 'r', 'c', 'c', 'o', 's', 'h'], ['a', 'c', 'o', 's', 'h']⟩,
   ⟨['a', 'r', 'c', 't', 'a', 'n', 'h'], ['a', 't', 'a', 'n', 'h']⟩,
   ⟨['a', 'r', 'c', 'c', 'o', 't', 'h'], ['a', 'c', 'o', 't', 'h']⟩,
   ⟨['a', 'r', 'c', 's', 'i', 'n'], ['a', 's', 'i', 'n']⟩,
   ⟨['a', 'r', 'c', 'c', 'o', 's'], ['a', 'c', 'o', 's']⟩,
   ⟨['a', 'r', 'c', 't', 'a', 'n'], ['a', 't', 'a', 'n']⟩,
   ⟨['a', 'r', 'c', 'c', 'o', 't'], ['a', 'c', 'o', 't']⟩,
   ⟨['i', 'n', 't', 'e', 'g', 'r', 'a', 'l'], ['i', 'n', 't']⟩,
   ⟨['p', 'r', 'o', 'd', 'u', 'c', 't'], ['p', 'r', 'o', 'd']⟩,
   ⟨['P', 'I'], ['p', 'i']⟩,
   ⟨['P', 'i'], ['p', 'i']⟩,
   ⟨['E'], ['e']⟩,
   ⟨[','], ['.']⟩]

def alias? (cs : List Char) : Option Alias := aliases.find? (·.typed.isPrefixOf cs)

/-- Skips `taken` characters, then respells the rest. -/
def respellFrom : (taken : Nat) → List Char → List Char
  | _, [] => []
  | taken + 1, _ :: cs => respellFrom taken cs
  | 0, c :: cs =>
    match alias? (c :: cs) with
    | some a => a.proper ++ respellFrom (a.typed.length - 1) cs
    | none => c :: respellFrom 0 cs

def respell (cs : List Char) : List Char := respellFrom 0 cs

end ComplexSeries.Input
