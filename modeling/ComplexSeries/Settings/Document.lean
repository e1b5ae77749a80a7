import ComplexSeries.Text.Blank
import ComplexSeries.Text.Line
import ComplexSeries.Settings.Value

/-! Settings documents: titled sections of keys, each with a colon and a list of values between
commas. A key stands on one line with its colon, which tells it from a title. Blank lines and lines
that begin with a hash or two slashes are left out. Sections of one title are merged, and the last
value of a key counts. -/
namespace ComplexSeries.Settings

abbrev Section := List (String × List Value)

/-- Titles, and keys within a section, stand in the order of their first appearance. -/
abbrev Document := List (String × Section)

inductive DocumentError where
  /-- The text does not begin with a section. -/
  | noSection
  | leftOver (rest : List Char)

/-- Where no section is found, the sentence goes on with a colon and the section reader's own report of
what it sought, and where. That report is left out. -/
def DocumentError.message : DocumentError → String
  | noSection => "Parsing error"
  | leftOver rest =>
    s!"Failed to parse entire document. Remaining: '{String.ofList rest}'"

/-- Sets the value of a key. -/
def put {β : Type} (key : String) (value : β) : List (String × β) → List (String × β)
  | [] => [(key, value)]
  | (k, v) :: pairs => if k = key then (k, value) :: pairs else (k, v) :: put key value pairs

def putAll {β : Type} (pairs : List (String × β)) (new : List (String × β)) : List (String × β) :=
  new.foldl (fun pairs (key, value) => put key value pairs) pairs

/-- The pairs of `part` win over those that the section holds already. -/
def Document.merge (document : Document) (title : String) (part : Section) : Document :=
  put title (putAll ((document.lookup title).getD []) part) document

namespace Reader

/-- As many items as there are, `most` at most. -/
def repeated {α : Type} (item : List Char → Option (α × List Char)) :
    (most : Nat) → List Char → List α × List Char
  | 0, cs => ([], cs)
  | most + 1, cs =>
    match item cs with
    | none => ([], cs)
    | some (a, rest) =>
      let (as, rest) := repeated item most rest
      (a :: as, rest)

/-- Items that each take a character at least cannot outnumber the text. -/
def many {α : Type} (item : List Char → Option (α × List Char)) (cs : List Char) :
    List α × List Char :=
  repeated item cs.length cs

def many1? {α : Type} (item : List Char → Option (α × List Char)) (cs : List Char) :
    Option (List α × List Char) :=
  match many item cs with
  | ([], _) => none
  | found => some found

def isSpace (c : Char) : Bool := c = ' ' || c = '\t'

def isGap (c : Char) : Bool := isSpace c || c = '\n' || c = '\r'

def skipSpaces (cs : List Char) : List Char := cs.dropWhile isSpace

def skipGaps (cs : List Char) : List Char := cs.dropWhile isGap

def startsName (c : Char) : Bool := c.isAlpha || c = '_'

def continuesName (c : Char) : Bool := c.isAlphanum || c = '_'

def name? : List Char → Option (String × List Char)
  | [] => none
  | c :: cs =>
    if startsName c then
      some (String.ofList (c :: cs.takeWhile continuesName), cs.dropWhile continuesName)
    else none

def inWord (c : Char) : Bool := c != ',' && !isGap c

def value? (cs : List Char) : Option (Value × List Char) :=
  let word := cs.takeWhile inWord
  if word.isEmpty then none else some (.ofWord word, cs.dropWhile inWord)

def nextValue? (cs : List Char) : Option (Value × List Char) :=
  match skipSpaces cs with
  | ',' :: rest => value? (skipSpaces rest)
  | _ => none

/-- A comma that no value follows is left alone. -/
def values? (cs : List Char) : Option (List Value × List Char) := do
  let (first, rest) ← value? cs
  let (others, rest) := many nextValue? rest
  return (first :: others, rest)

def pair? (cs : List Char) : Option ((String × List Value) × List Char) := do
  let (key, rest) ← name? cs
  match skipSpaces rest with
  | ':' :: rest => do
    let (values, rest) ← values? (skipSpaces rest)
    return ((key, values), skipGaps rest)
  | _ => none

def section? (cs : List Char) : Option ((String × Section) × List Char) := do
  let (title, rest) ← name? (skipGaps cs)
  let (pairs, rest) ← many1? pair? (skipGaps rest)
  return ((title, pairs), skipGaps rest)

end Reader

/-- Lines that say nothing. -/
def isComment (line : List Char) : Bool :=
  match Text.trim line with
  | [] => true
  | '#' :: _ => true
  | '/' :: '/' :: _ => true
  | _ => false

def withoutComments (cs : List Char) : List Char :=
  Text.unlines ((Text.lines cs).filter (!isComment ·))

def Document.read (cs : List Char) : Except DocumentError Document :=
  let body := withoutComments cs
  if (Text.trim body).isEmpty then .ok []
  else
    match Reader.many1? Reader.section? body with
    | none => .error .noSection
    | some (parts, rest) =>
      if (Text.trim rest).isEmpty then
        .ok (parts.foldl (fun document (title, part) => document.merge title part) [])
      else .error (.leftOver rest)

end ComplexSeries.Settings
