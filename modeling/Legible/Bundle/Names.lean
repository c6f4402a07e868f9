import Legible.Bundle
import Legible.FilePath.Collapse

/-!
Paths for the modules of a bundle. Entries are called `/main`, packages and modules with a text for
an id lie below the root, and other modules are named by what modules with a name require them as.
-/

namespace Legible.Bundle

structure Edge where
  parent : Id
  required : String
  target : Id

structure Warning where
  target : Id
  parentName : String
  rejected : String
  kept : String

def Warning.text (w : Warning) : String :=
  "Got different names for module " ++ spelled w.target ++ " included from " ++ w.parentName ++
    ": " ++ w.rejected ++ " and " ++ w.kept

/-- A truth value or null instead of a reference marks a module that is not in the bundle. -/
def isExcluded : Id → Bool
  | .null | .bool _ => true
  | _ => false

def edge? (parent : Id) (name : Id) (value : Tree) : Except ShapeError (Option Edge) :=
  if value.isKind "Literal" then
    let target := literalValue value
    .ok (if isExcluded target then none else some ⟨parent, spelled name, target⟩)
  else .error .badReference

def edgesOf (id : Id) (e : Entry) : Except ShapeError (List Edge) :=
  match e.dependencies with
  | none => .ok []
  | some t => do
    let es ← (pairs t).mapM fun pair => do
      let (name, value) ← pair
      edge? id name value
    return es.filterMap (·)

def edges (l : Layout) : Except ShapeError (List Edge) := do
  return (← l.modules.mapM fun m => edgesOf m.1 m.2).flatten

/-! ### Names known from the start -/

def entryNames (ids : List Id) : Table String :=
  match ids with
  | [id] => [(id, "/main")]
  | ids => ids.zipIdx.foldl (fun t (id, i) => t.insert id ("/main" ++ toString (i + 1))) []

def hasStart (start s : String) : Bool :=
  start.toList.isPrefixOf s.toList

def hasFinalSlash (s : String) : Bool :=
  s.toList.getLast? == some '/'

def isRelative (required : String) : Bool :=
  hasStart "./" required || hasStart "../" required

def packageName (required : String) : String :=
  "/" ++ required ++ if hasFinalSlash required then "" else "/"

structure Seeds where
  names : Table String
  absolute : List Id

def Seeds.add (s : Seeds) (id : Id) (name : String) : Seeds :=
  ⟨s.names.insert id name, id :: s.absolute⟩

def packageSeeds (es : List Edge) (names : Table String) : Seeds :=
  es.foldl (fun s e => if isRelative e.required then s else s.add e.target (packageName e.required))
    ⟨names, []⟩

def textSeeds (modules : List Id) (s : Seeds) : Seeds :=
  modules.foldl (fun s id =>
    match id with
    | .text name => if containsId s.absolute id then s else s.add id ("/" ++ name)
    | _ => s) s

/-! ### Names along dependencies -/

def requiredName (parentName required : String) : String :=
  let required := if hasFinalSlash required then required ++ "index" else required
  let base :=
    if hasStart "./" required then
      String.ofList (FilePath.withoutLastPart parentName.toList)
    else parentName
  FilePath.collapse (base ++ "/" ++ required)

structure Resolution where
  names : Table String
  warnings : List Warning

def follow (absolute : List Id) (r : Resolution) (e : Edge) : Resolution :=
  if containsId absolute e.target then r
  else
    match r.names.get? e.parent with
    | none => r
    | some parentName =>
      let name := requiredName parentName e.required
      match r.names.get? e.target with
      | none => { r with names := r.names.insert e.target name }
      | some kept =>
        if kept = name || r.warnings.any (sameId ·.target e.target) then r
        else { r with warnings := r.warnings ++ [⟨e.target, parentName, name, kept⟩] }

def round (absolute : List Id) (es : List Edge) (r : Resolution) : Resolution :=
  es.foldl (follow absolute) r

def settle (absolute : List Id) (es : List Edge) : Nat → Resolution → Resolution
  | 0, r => r
  | fuel + 1, r =>
    let s := round absolute es r
    if s.names.length = r.names.length then s else settle absolute es fuel s

/-- Names of a bundle with dependencies. Every round but the last names the target of an edge. -/
def resolveEdges (modules : List Id) (es : List Edge) (names : Table String) : Resolution :=
  let seeds := textSeeds modules (packageSeeds es names)
  settle seeds.absolute es (es.length + 1) ⟨seeds.names, []⟩

def nameRest (modules : List Id) (names : Table String) : Table String :=
  modules.foldl (fun t id => if t.contains id then t else t.insert id ("/" ++ spelled id)) names

def resolveFormat (l : Layout) : Except ShapeError Resolution :=
  match l.format with
  | .browserify => (edges l).map fun es => resolveEdges (l.modules.map (·.1)) es (entryNames l.entries)
  | .webpack => .ok ⟨entryNames l.entries, []⟩

def resolve (l : Layout) : Except ShapeError Resolution :=
  (resolveFormat l).map fun r => { r with names := nameRest (l.modules.map (·.1)) r.names }

def withoutFinalSlashes (name : String) : String :=
  match FilePath.dropSlashesRight name.toList with
  | [] => "/"
  | cs => String.ofList cs

end Legible.Bundle
