import Legible.Bundle.Names
import Legible.Parser
import Legible.Scope.Rename

namespace Legible.Bundle

structure Module where
  id : Id
  name : String
  factory : Tree
  scopes : Scope
  path : Scope.Path
  names : Names

def Module.body (m : Module) : Tree :=
  m.names.apply (m.factory.get "body")

def Format.parameterNames : Format → List String
  | .browserify => ["require", "module", "exports"]
  | .webpack => ["module", "exports", "require"]

/-! ### Code in a text -/

def evaluatedText? (statement : Tree) : Option String := do
  let c ← evalStatement.matches? statement
  ((captured "expression1" c).get "value").text?

/-- Puts the statements of a text in the place of a last statement that evaluates the text. -/
def inlineEval (parse : Parser) (factory : Tree) : Except Error Tree :=
  let body := factory.get "body"
  let statements := (body.get "body").items
  match statements.getLast?.bind evaluatedText? with
  | none => .ok factory
  | some source =>
    match parse source with
    | .error message => .error (.unreadable message)
    | .ok program =>
      let all := statements.dropLast ++ (program.get "body").items
      .ok (factory.set "body" (body.set "body" (.list all)))

/-! ### Names of the parameters -/

def parameterPairs (s : Scope) (parameters : List Tree) (names : List String) :
    List (Nat × String) :=
  (parameters.zip names).filterMap fun (p, new) =>
    if p.isKind "Identifier" then (s.position? p.name).map fun i => (i, new) else none

abbrev Renaming := Scope × Names

def variableName (s : Scope) (path : Scope.Path) (i : Nat) : String :=
  (((s.at? path).bind (·.declared[i]?)).map (·.name)).getD ""

def moveAway (path : Scope.Path) (targets : List String) (r : Renaming) (p : Nat × String) :
    Renaming :=
  let name := variableName r.1 path p.1
  if targets.contains name && name != p.2 then
    r.1.rename path p.1 (r.1.uniqueName path ("_" ++ p.2)) r.2
  else r

/-- Gives parameters their new names, all at once: those in the way are moved first. -/
def renameParameters (path : Scope.Path) (pairs : List (Nat × String)) (r : Renaming) : Renaming :=
  let r := pairs.foldl (moveAway path (pairs.map (·.2))) r
  pairs.foldl (fun r p => r.1.rename path p.1 p.2 r.2) r

/-! ### Modules -/

def moduleOf (parse : Parser) (format : Format) (id : Id) (name : String)
    (factory : Tree) : Except Error Module :=
  match firstMatch factories factory with
  | none => .error (.shape .badCode)
  | some c => do
    let factory := (← inlineEval parse factory).numbered
    let scopes := Scope.ofTree factory
    let path := (scopes.acquire? factory.tag).getD []
    let pairs := match scopes.at? path with
      | some s => parameterPairs s (captured "expression1" c).items format.parameterNames
      | none => []
    let (scopes, names) := renameParameters path pairs (scopes, ∅)
    return ⟨id, withoutFinalSlashes name, factory, scopes, path, names⟩

/-- The modules of a bundle up to the first one that cannot be split out, and what was wrong with
that one. -/
structure Split where
  modules : List Module
  failure : Option Error

def splitNamed (parse : Parser) (l : Layout) : List (Id × String) → Split
  | [] => ⟨[], none⟩
  | (id, name) :: rest =>
    match l.modules.get? id with
    | none => splitNamed parse l rest
    | some entry =>
      match moduleOf parse l.format id name entry.factory with
      | .error e => ⟨[], some e⟩
      | .ok m =>
        let s := splitNamed parse l rest
        ⟨m :: s.modules, s.failure⟩

def split (parse : Parser) (t : Tree) : Split :=
  match Layout.ofTree t with
  | .error e => ⟨[], some e⟩
  | .ok l =>
    match resolve l with
    | .error e => ⟨[], some (.shape e)⟩
    | .ok r => splitNamed parse l r.names

end Legible.Bundle
