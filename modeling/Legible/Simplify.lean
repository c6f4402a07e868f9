import Legible.Simplify.Rules
import Legible.Scope.Rename
import Legible.Tree.Walk

/-!
Simplifying a tree with the rules. A node is matched against all rules, its replacement against the
rules not applied yet, and so on; then come the children of what it has become.
-/

namespace Legible

mutual

def Tree.weight : Tree → Nat
  | .object _ fs =>
    (if (fs.lookup "type").bind Tree.text? = some "ForStatement" then 2 else 1) +
      Tree.weightOfFields fs
  | .list ts => Tree.weightOfItems ts
  | .scalar _ => 0
termination_by structural t => t

def Tree.weightOfItems : List Tree → Nat
  | [] => 0
  | t :: ts => t.weight + Tree.weightOfItems ts
termination_by structural ts => ts

def Tree.weightOfFields : List (String × Tree) → Nat
  | [] => 0
  | (_, v) :: fs => v.weight + Tree.weightOfFields fs
termination_by structural fs => fs

end

namespace Simplify

def Rule.apply? (r : Rule) (t : Tree) : Option Tree :=
  (r.pattern.matches? t).bind fun c => (r.replacement.fill c).toOption

def applyFirst (t : Tree) : List Rule → Option (Tree × List Rule)
  | [] => none
  | r :: rs =>
    match r.apply? t with
    | some u => some (u, rs)
    | none => (applyFirst t rs).map fun x => (x.1, r :: x.2)

structure State where
  scopes : Scope
  names : Names
  count : Nat

def isFunction (t : Tree) : Bool :=
  t.isKind "FunctionDeclaration"

def withName (t : Tree) (name : String) : Tree :=
  t.set "id" ((t.get "id").set "name" (.text name))

def renameFunction (old new : Tree) (s : State) : Tree × State :=
  let oldName := (old.get "id").name
  let newName := (new.get "id").name
  let declared : Option (Scope.Path × Nat × Variable) := do
    let path ← s.scopes.acquire? old.tag
    guard !path.isEmpty
    let upper ← s.scopes.at? path.dropLast
    let i ← upper.position? oldName
    return (path.dropLast, i, ← upper.declared[i]?)
  match declared with
  | none => (withName new oldName, s)
  | some (upper, i, v) =>
    if v.name = newName then (new, s)
    else
      let unique := s.scopes.uniqueName upper newName
      let (scopes, names) := s.scopes.rename upper i unique s.names
      (withName new unique, { s with scopes, names })

/-- Applies rules to a node, each at most once and always the first that applies, until none does;
there are at most `fuel` steps. -/
def settle : Nat → List Rule → Tree → State → Option Tree × State
  | 0, _, _, s => (none, s)
  | fuel + 1, rs, t, s =>
    match applyFirst t rs with
    | none => (none, s)
    | some (u, rs) =>
      let (u, s) := if isFunction t && isFunction u then renameFunction t u s else (u, s)
      let (v, s) := settle fuel rs u s
      (v.getD u, s)

def isLoopHead (t : Tree) (place : Place) : Bool :=
  t.isKind "VariableDeclaration" &&
    (place.key == some "init" || place.key == some "left") &&
    match place.parent.bind Tree.kind? with
    | some k => ["ForStatement", "ForInStatement", "ForOfStatement"].contains k
    | none => false

def enter : Replacer State := fun t place s =>
  if !t.isNode || isLoopHead t place then (none, s)
  else
    match settle rules.length rules (if s.names.isEmpty then t else s.names.apply t) s with
    | (some u, s) => (some u, { s with count := s.count + 1 })
    | (none, s) => (none, s)

def statementField? (kind : String) : Option String :=
  match kind with
  | "Program" | "BlockStatement" => some "body"
  | "SwitchCase" => some "consequent"
  | _ => none

mutual

def flattened : Tree → List Tree
  | .object tag fs =>
    if (Tree.object tag fs).isKind "Program" then flattenedField fs else [.object tag fs]
  | t => [t]
termination_by structural t => t

def flattenedField : List (String × Tree) → List Tree
  | [] => []
  | (k, v) :: fs =>
    if k = "body" then
      match v with
      | .list ts => flattenedItems ts
      | _ => []
    else flattenedField fs
termination_by structural fs => fs

def flattenedItems : List Tree → List Tree
  | [] => []
  | t :: ts => flattened t ++ flattenedItems ts
termination_by structural ts => ts

end

def asBlock (t : Tree) (place : Place) : Tree :=
  match place.parent with
  | none => t
  | some parent =>
    if t.isKind "Program" && statementField? parent.kind != place.key then
      (t.set "type" (.text "BlockStatement")).erase "sourceType"
    else t

def flattenStatements (t : Tree) : Tree :=
  match statementField? t.kind with
  | none => t
  | some field =>
    let statements := (t.get field).items
    if statements.any (·.isKind "Program") then t.set field (.list (flattenedItems statements))
    else t

def leave : Replacer State := fun t place s =>
  if t.isNode then (some (flattenStatements (asBlock t place)), s) else (none, s)

mutual

/-- The given tree with the objects that are in the result as they are there. So the object at
the root stays, even if the walk has put another one in its place. -/
def graft (result : Tree) : Tree → Tree
  | .object tag fs =>
    match result.find? tag with
    | some t => t
    | none => .object tag (graftFields result fs)
  | .list ts => .list (graftItems result ts)
  | .scalar s => .scalar s
termination_by structural t => t

def graftItems (result : Tree) : List Tree → List Tree
  | [] => []
  | t :: ts => graft result t :: graftItems result ts
termination_by structural ts => ts

def graftFields (result : Tree) : List (String × Tree) → Fields
  | [] => []
  | (k, v) :: fs => (k, graft result v) :: graftFields result fs
termination_by structural fs => fs

end

structure Outcome where
  tree : Tree
  names : Names
  count : Nat

/-- The walk over a numbered tree. Every rule leaves children of less weight than the node had. -/
def walk (t : Tree) : Option (Tree × State) :=
  (Tree.replace? enter leave (t.weight + 1) ⟨none, none⟩ t).run ⟨Scope.ofTree t, ∅, 0⟩

def run (t : Tree) : Outcome :=
  match walk t with
  | some (u, s) => ⟨graft u t, s.names, s.count⟩
  | none => ⟨t, ∅, 0⟩

def simplify (t : Tree) : Tree × Nat :=
  let r := run t.numbered
  (r.names.apply r.tree, r.count)

end Simplify

end Legible
