/-! Names of variables are single characters. Every formula may use `x` and `n`; all other names are
indices, bound by an aggregate. -/
namespace ComplexSeries

def isVariable (c : Char) : Bool := c = 'x' || c = 'n'

/-- Puts a name into its place in an ascending list without repetition. -/
def insertName (c : Char) : List Char → List Char
  | [] => [c]
  | d :: ds => if c < d then c :: d :: ds else if c = d then d :: ds else d :: insertName c ds

/-- Each name once, in ascending order. -/
def sortNames (names : List Char) : List Char := names.foldr insertName []

@[simp] theorem mem_insertName {a c : Char} {ds : List Char} :
    a ∈ insertName c ds ↔ a = c ∨ a ∈ ds := by
  induction ds with
  | nil => simp [insertName]
  | cons d ds ih =>
    unfold insertName
    split
    · simp
    · split
      · next h => subst h; simp
      · simp only [List.mem_cons, ih]
        exact or_left_comm

@[simp] theorem mem_sortNames {a : Char} {names : List Char} : a ∈ sortNames names ↔ a ∈ names := by
  induction names with
  | nil => simp [sortNames]
  | cons c cs ih =>
    simp only [sortNames, List.foldr_cons, mem_insertName, List.mem_cons] at ih ⊢
    rw [ih]

end ComplexSeries
