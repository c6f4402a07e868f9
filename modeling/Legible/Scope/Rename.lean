import Legible.Scope
import Legible.Text.Digits
import Legible.Tree.Tags

/-!
Choosing free names and renaming variables. The scopes keep the names that occurrences had when they
were found; `Names` holds the current ones.
-/

namespace Legible

def reservedWords : List String :=
  ["arguments", "await", "break", "case", "catch", "class", "const", "continue", "debugger",
   "default", "delete", "do", "else", "enum", "eval", "export", "extends", "false", "finally",
   "for", "function", "if", "implements", "import", "in", "instanceof", "interface", "let", "new",
   "null", "package", "private", "protected", "public", "return", "static", "super", "switch",
   "this", "throw", "true", "try", "typeof", "undefined", "var", "void", "while", "with", "yield"]

namespace Names

def current (names : Names) (o : Occurrence) : String :=
  names.getD o.tag o.name

def setAll (names : Names) (tags : List Nat) (name : String) : Names :=
  tags.foldl (fun names tag => names.insert tag name) names

def replaceName (names : Names) (os : List Occurrence) (old new : String) : Names :=
  os.foldl (fun names o => if names.current o = old then names.insert o.tag new else names) names

end Names

namespace Scope

def declares (s : Scope) (name : String) : Bool :=
  s.table.any fun e => e.1 == name

def position? (s : Scope) (name : String) : Option Nat :=
  s.table.lookup name

def isTaken (scopes : List Scope) (name : String) : Bool :=
  reservedWords.contains name || scopes.any (·.declares name)

def nameStem (candidate : String) : String :=
  match candidate.toList with
  | c :: _ => if Text.isAnyDigit c then "_" ++ candidate else candidate
  | [] => candidate

def firstFree (scopes : List Scope) (stem : String) : Nat → Nat → String
  | 0, k => stem ++ toString k
  | fuel + 1, k =>
    let name := stem ++ toString k
    if isTaken scopes name then firstFree scopes stem fuel (k + 1) else name

def takenCount (scopes : List Scope) : Nat :=
  reservedWords.length + (scopes.flatMap (·.table)).length

/-- The candidate, or the candidate with the least number from 2 on, that is neither reserved nor
visible in the innermost of the scopes. -/
def uniqueNameIn (scopes : List Scope) (candidate : String) : String :=
  let stem := nameStem candidate
  if isTaken scopes stem then firstFree scopes stem (takenCount scopes) 2 else stem

def uniqueName (root : Scope) (path : Path) (candidate : String) : String :=
  uniqueNameIn (root.along path) candidate

mutual

def renameThrough (old new : String) (names : Names) : Scope → Names
  | ⟨_, _, _, _, _, table, _, through, children⟩ =>
    if table.any fun e => e.1 == old then names
    else renameChildren old new (names.replaceName through old new) children
termination_by structural s => s

def renameChildren (old new : String) (names : Names) : List Scope → Names
  | [] => names
  | c :: cs => renameChildren old new (renameThrough old new names c) cs
termination_by structural cs => cs

end

/-- The names after a variable of a scope is renamed: those of its declaring identifiers, of its
references, of references made in the scope under the old name, and of what passes through the
scopes inside. -/
def renamedNames (s : Scope) (v : Variable) (new : String) (names : Names) : Names :=
  let names := names.setAll (v.identifiers ++ v.references) new
  let names := names.replaceName (s.references.map (·.occurrence)) v.name new
  renameChildren v.name new names s.children

def renamedScope (s : Scope) (i : Nat) (v : Variable) (new : String) : Scope :=
  let table := if s.position? v.name = some i then s.table.filter (·.1 != v.name) else s.table
  { s with
    declared := s.declared.set i { v with name := new, keepName := true }
    table := (new, i) :: table.filter (·.1 != new) }

def rename (root : Scope) (path : Path) (i : Nat) (new : String) (names : Names) : Scope × Names :=
  match root.at? path with
  | none => (root, names)
  | some s =>
    match s.declared[i]? with
    | none => (root, names)
    | some v => (root.modifyAt (fun s => renamedScope s i v new) path, renamedNames s v new names)

def lookup? (root : Scope) (path : Path) (name : String) : Option (Path × Nat) :=
  (List.range (path.length + 1)).reverse.findSome? fun n =>
    let p := path.take n
    ((root.at? p).bind (·.position? name)).map fun i => (p, i)

end Scope

end Legible
