import Legible.Text.Space

namespace Legible.Settings

def isLineEnd (c : Char) : Bool :=
  c == '\n' || c == '\r'

def isBlank (c : Char) : Bool :=
  Text.isSpace c && !isLineEnd c

def dropBlanks (cs : List Char) : List Char :=
  cs.dropWhile isBlank

def dropLine (cs : List Char) : List Char :=
  cs.dropWhile (!isLineEnd ·)

def dropExport (cs : List Char) : List Char :=
  let word := "export".toList
  if word.isPrefixOf cs && ((cs.drop word.length).head?).any isBlank then
    dropBlanks (cs.drop word.length)
  else cs

def quotedPart (quote : Char) : List Char → Option (List Char × List Char)
  | [] => none
  | '\\' :: c :: cs =>
    if c = quote then (quotedPart quote cs).map fun r => ('\\' :: c :: r.1, r.2)
    else (quotedPart quote (c :: cs)).map fun r => ('\\' :: r.1, r.2)
  | c :: cs => if c = quote then some ([], cs) else (quotedPart quote cs).map fun r => (c :: r.1, r.2)

def escapes : List (Char × Char) :=
  [('\\', '\\'), ('\x27', '\x27'), ('"', '"'), ('a', '\x07'), ('b', '\x08'), ('f', '\x0c'),
   ('n', '\n'), ('r', '\r'), ('t', '\t'), ('v', '\x0b')]

def unescape (table : List (Char × Char)) : List Char → List Char
  | '\\' :: c :: cs =>
    match table.lookup c with
    | some d => d :: unescape table cs
    | none => '\\' :: unescape table (c :: cs)
  | c :: cs => c :: unescape table cs
  | [] => []

def withoutComment : List Char → List Char
  | [] => []
  | c :: cs =>
    if Text.isSpace c && (cs.dropWhile Text.isSpace).head? == some '#' then []
    else c :: withoutComment cs

def value? (cs : List Char) : Option (String × List Char) :=
  match cs with
  | '\x27' :: rest => do
    let (v, rest) ← quotedPart '\x27' rest
    return (String.ofList (unescape (escapes.take 2) v), rest)
  | '"' :: rest => do
    let (v, rest) ← quotedPart '"' rest
    return (String.ofList (unescape escapes v), rest)
  | cs =>
    let line := cs.takeWhile (!isLineEnd ·)
    some (String.ofList (Text.dropSpacesRight (withoutComment line)), cs.drop line.length)

def name? (cs : List Char) : Option (String × List Char) :=
  match cs with
  | '\x27' :: rest =>
    let w := rest.takeWhile (· != '\x27')
    if w.isEmpty || w.length = rest.length then none
    else some (String.ofList w, rest.drop (w.length + 1))
  | cs =>
    let w := cs.takeWhile fun c => c != '=' && c != '#' && !Text.isSpace c
    if w.isEmpty then none else some (String.ofList w, cs.drop w.length)

def atLineEnd? (cs : List Char) : Option (List Char) :=
  let rest := dropBlanks cs
  let rest := if rest.head? == some '#' then dropLine rest else rest
  if rest.isEmpty || rest.head?.any isLineEnd then some rest else none

def assignment? (cs : List Char) : Option ((String × Option String) × List Char) := do
  let (name, rest) ← name? (dropExport cs)
  match dropBlanks rest with
  | '=' :: rest => do
    let (v, rest) ← value? (dropBlanks rest)
    return ((name, some v), ← atLineEnd? rest)
  | rest => return ((name, none), ← atLineEnd? rest)

def assignments : Nat → List Char → List (String × Option String)
  | 0, _ => []
  | fuel + 1, cs =>
    match cs.dropWhile Text.isSpace with
    | [] => []
    | cs =>
      match assignment? cs with
      | some (a, rest) => a :: assignments fuel rest
      | none => assignments fuel (dropLine cs)

def variablesOf (text : String) : List (String × String) :=
  (assignments (text.length + 1) text.toList).reverse.filterMap fun a => a.2.map fun v => (a.1, v)

end Legible.Settings
