import ComplexSeries.ParseError

/-! Splitting a text without blanks into lexemes. A run of digits and points is one number, letters
are split at the longest name that begins them, and a letter that begins no name stands alone.
Reading is a recursion on the text that skips the characters its last lexeme has taken. -/
namespace ComplexSeries.Lexeme

def isNumeral (c : Char) : Bool := c.isDigit || c = '.'

/-- One point at most, and a digit at least. -/
def wellFormed (run : List Char) : Bool := run.count '.' ≤ 1 && run != ['.']

/-- A number that begins with its point gets a zero before it. -/
def ofRun (run : List Char) : Except ParseError Lexeme :=
  if wellFormed run then
    .ok (number (if run.head? = some '.' then '0' :: run else run))
  else .error (.malformedNumber run)

/-- Signs of one character. -/
def ofSymbol : Char → Except ParseError Lexeme
  | '+' => .ok (operator .add)
  | '-' => .ok (operator .sub)
  | '*' => .ok (operator .mul)
  | '/' => .ok (operator .div)
  | '^' => .ok (operator .pow)
  | '(' => .ok lparen
  | ')' => .ok rparen
  | ';' => .ok separator
  | '°' => .ok degree
  | '%' => .ok percent
  | c => .error (.disallowedCharacter c)

/-- The lexeme that begins `c :: cs`, and how many characters of `cs` belong to it. -/
def first (c : Char) (cs : List Char) : Except ParseError (Lexeme × Nat) :=
  if isNumeral c then
    let tail := cs.takeWhile isNumeral
    (ofRun (c :: tail)).map (·, tail.length)
  else if c.isAlpha then
    match Keyword.longest? (c :: cs) with
    | some k => .ok (keyword k, k.letters.length - 1)
    | none => .ok (letter c, 0)
  else (ofSymbol c).map (·, 0)

/-- Skips `taken` characters, then splits the rest. -/
def scanFrom : (taken : Nat) → List Char → Except ParseError (List Lexeme)
  | _, [] => .ok []
  | taken + 1, _ :: cs => scanFrom taken cs
  | 0, c :: cs => do
    let (l, taken) ← first c cs
    let ls ← scanFrom taken cs
    return l :: ls

def scan (cs : List Char) : Except ParseError (List Lexeme) := scanFrom 0 cs

theorem scanFrom_eq_scan_drop (n : Nat) (cs : List Char) : scanFrom n cs = scan (cs.drop n) := by
  induction cs generalizing n with
  | nil => cases n <;> rfl
  | cons c cs ih =>
    cases n with
    | zero => rfl
    | succ n => exact ih n

theorem scan_cons (c : Char) (cs : List Char) :
    scan (c :: cs) = (first c cs).bind fun r => (scan (cs.drop r.2)).map (r.1 :: ·) := by
  change ((first c cs).bind fun r => (scanFrom r.2 cs).bind fun ls => .ok (r.1 :: ls)) = _
  simp only [scanFrom_eq_scan_drop]
  rfl

end ComplexSeries.Lexeme
