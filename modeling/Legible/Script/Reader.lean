import Legible.Script.Pattern

/-!
Reading token by token, with one token of lookahead. What a word may be depends on what was read
before it, so the reader keeps it: strictness, the sense of `yield`, and whether the expression at
hand may still become a pattern.
-/

namespace Legible.Script

structure Reader where
  next : Lexeme
  afterLineEnd : Bool
  place : Place
  strict : Bool
  yieldIsName : Bool
  mayBind : Bool
  needsPattern : Bool

def Reader.ofText? (cs : List Char) : Option Reader := do
  let (next, place) ← (Place.mk cs 0 []).lexeme? true
  return { next, afterLineEnd := false, place, strict := false, yieldIsName := true,
           mayBind := true, needsPattern := false }

abbrev Read := StateT Reader Option

structure Context where
  allowIn : Bool := true
  awaitIsOperator : Bool := false
  inFunction : Bool := false
  inLoop : Bool := false
  inSwitch : Bool := false
  labels : List String := []

namespace Read

/-! ### Tokens -/

/-- Makes the first token from a place on the next one. The token before it ended on `line`. Strict
code reserves further words, but only those that are met from now on. -/
def goTo (place : Place) (line : Nat) : Read Unit := do
  let (t, place) ← place.lexeme? false
  modify fun r =>
    { r with next := { t with token := if r.strict then t.token.inStrict else t.token },
             afterLineEnd := line != t.line, place }

def advance : Read Lexeme := do
  let r ← get
  goTo r.place r.next.line
  return r.next

def peek : Read Lexeme := do
  let (t, place) ← (← get).place.lexeme? false
  modify fun r => { r with place := { r.place with braces := place.braces } }
  return t

def token : Read Token :=
  return (← get).next.token

def line : Read Nat :=
  return (← get).next.line

def afterLineEnd : Read Bool :=
  return (← get).afterLineEnd

def isPunct (s : String) : Read Bool :=
  return (← token) == .punct s

def isKeyword (w : String) : Read Bool :=
  return (← token) == .keyword w

def isName (w : String) : Read Bool :=
  return (← token) == .name w

def isAnyName : Read Bool := do
  match ← token with
  | .name _ => return true
  | _ => return false

def accept (t : Token) : Read Bool := do
  let found := (← token) == t
  if found then let _ ← advance
  return found

def acceptPunct (s : String) : Read Bool := accept (.punct s)

def acceptKeyword (w : String) : Read Bool := accept (.keyword w)

def acceptName (w : String) : Read Bool := accept (.name w)

def expectPunct (s : String) : Read Unit := do
  guard (← acceptPunct s)

def expectKeyword (w : String) : Read Unit := do
  guard (← acceptKeyword w)

def expectName (w : String) : Read Unit := do
  guard (← acceptName w)

def anyWord : Read String := do
  match (← advance).token with
  | .name w | .keyword w => return w
  | _ => failure

def endStatement : Read Unit := do
  if ← acceptPunct ";" then return ()
  guard ((← afterLineEnd) || (← isPunct "\x7d") || (← token) == .done)

def stringLiteral : Read Tree := do
  let t ← advance
  match t.token with
  | .string s => return Form.literal (.text s) t.raw
  | _ => failure

/-! ### Modes -/

variable {α β : Type}

def isStrict : Read Bool :=
  return (← get).strict

def setStrict (b : Bool) : Read Unit :=
  modify fun r => { r with strict := b }

/-- Strictness that comes up inside ends with the part, but not before the token behind it is
met. -/
def keepStrict (p : Read α) : Read α := do
  let before ← isStrict
  let a ← p
  setStrict before
  return a

def yieldIsName : Read Bool :=
  return (← get).yieldIsName

def setYieldIsName (b : Bool) : Read Unit :=
  modify fun r => { r with yieldIsName := b }

def withYieldIsName (b : Bool) (p : Read α) : Read α := do
  let before ← yieldIsName
  setYieldIsName b
  let a ← p
  setYieldIsName before
  return a

def mayBind : Read Bool :=
  return (← get).mayBind

def setMayBind (b : Bool) : Read Unit :=
  modify fun r => { r with mayBind := b }

def setNeedsPattern (b : Bool) : Read Unit :=
  modify fun r => { r with needsPattern := b }

def isolated (p : Read α) : Read α := do
  let r ← get
  setMayBind true
  setNeedsPattern false
  let a ← p
  guard (!(← get).needsPattern)
  setMayBind r.mayBind
  setNeedsPattern r.needsPattern
  return a

def shared (p : Read α) : Read α := do
  let r ← get
  setMayBind true
  setNeedsPattern false
  let a ← p
  modify fun s =>
    { s with mayBind := r.mayBind && s.mayBind, needsPattern := r.needsPattern || s.needsPattern }
  return a

/-! ### Repetition -/

def repeatStep (step : α → Read (α ⊕ β)) : Nat → α → Read β
  | 0, _ => failure
  | fuel + 1, a => do
    match ← step a with
    | .inl a => repeatStep step fuel a
    | .inr b => return b

def itemsUntil (close : String) (item : Read Tree) (fuel : Nat) : Read (List Tree) :=
  repeatStep (fun acc => do
    if ← acceptPunct close then return .inr acc.reverse
    return .inl ((← item) :: acc)) fuel []

def separatedList (separator : Read Unit) (close : String) (item : Read Tree) (fuel : Nat) :
    Read (List Tree) :=
  repeatStep (fun acc => do
    if ← acceptPunct close then return .inr acc.reverse
    let t ← item
    if !(← isPunct close) then separator
    return .inl (t :: acc)) fuel []

def commaList (close : String) (item : Read Tree) (fuel : Nat) : Read (List Tree) :=
  separatedList (expectPunct ",") close item fuel

/-- A list that is read on where a comma is missing or a semicolon stands in its place. -/
def looseList (close : String) (item : Read Tree) (fuel : Nat) : Read (List Tree) :=
  separatedList (do if !(← acceptPunct ",") then let _ ← acceptPunct ";") close item fuel

end Read

structure Grammar where
  fuel : Nat
  assignment : Context → Read Tree
  power : Context → Read Tree
  unary : Context → Read Tree
  member : Context → Read Tree
  call : Context → Read Tree
  binding : Context → Bool → Read Tree
  statement : Context → Read Tree
  item : Context → Read Tree

end Legible.Script
