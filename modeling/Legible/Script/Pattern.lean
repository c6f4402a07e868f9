import Legible.Form
import Legible.Script.Token

namespace Legible.Script

mutual

def asPattern : Tree → Tree
  | .object tag fs =>
    match ((fs.lookup "type").bind Tree.text?).getD "" with
    | "SpreadElement" => Form.restElement (patternField "argument" fs)
    | "ArrayExpression" => Form.node "ArrayPattern" [("elements", patternField "elements" fs)]
    | "ObjectExpression" => Form.node "ObjectPattern" [("properties", patternField "properties" fs)]
    | "AssignmentExpression" =>
      Form.assignmentPattern (patternField "left" fs) ((fs.lookup "right").getD .null)
    | "Property" => .object tag (patternValue fs)
    | _ => .object tag fs
  | t => t
termination_by structural t => t

def patternField (key : String) : List (String × Tree) → Tree
  | [] => .null
  | (k, v) :: fs =>
    if k = key then
      match v with
      | .list ts => .list (patternItems ts)
      | v => asPattern v
    else patternField key fs
termination_by structural fs => fs

def patternValue : List (String × Tree) → Fields
  | [] => []
  | (k, v) :: fs => (k, if k = "value" then asPattern v else v) :: patternValue fs
termination_by structural fs => fs

def patternItems : List Tree → List Tree
  | [] => []
  | t :: ts => asPattern t :: patternItems ts
termination_by structural ts => ts

end

mutual

def boundNames : Tree → List String
  | .object _ fs =>
    match ((fs.lookup "type").bind Tree.text?).getD "" with
    | "Identifier" => [(((fs.lookup "name").bind Tree.text?).getD "")]
    | "RestElement" => boundField "argument" fs
    | "AssignmentPattern" => boundField "left" fs
    | "ArrayPattern" => boundField "elements" fs
    | "ObjectPattern" => boundField "properties" fs
    | "Property" => boundField "value" fs
    | _ => []
  | _ => []
termination_by structural t => t

def boundField (key : String) : List (String × Tree) → List String
  | [] => []
  | (k, v) :: fs =>
    if k = key then
      match v with
      | .list ts => boundItems ts
      | v => boundNames v
    else boundField key fs
termination_by structural fs => fs

def boundItems : List Tree → List String
  | [] => []
  | t :: ts => boundNames t ++ boundItems ts
termination_by structural ts => ts

end

/-! ### Parameters -/

def isRestricted (w : String) : Bool :=
  w == "eval" || w == "arguments" || strictWords.contains w

/-- Whether a name given twice is what is wrong with parameters. In strict code the last fault
counts; elsewhere a restricted name ends the search. -/
def repeatsName (strict : Bool) (names : List String) : Bool :=
  let rec search (seen : List String) (repeated : Bool) : List String → Bool
    | [] => repeated
    | w :: ws =>
      if strict then
        if seen.contains w then search (w :: seen) true ws
        else search (w :: seen) (repeated && !(w == "eval" || w == "arguments")) ws
      else if isRestricted w then false
      else search (w :: seen) (repeated || seen.contains w) ws
  search [] false names

def yieldAsName (param : Tree) : Option Tree :=
  let right := param.get "right"
  if param.isKind "AssignmentPattern" && right.isKind "YieldExpression" then
    if (right.get "argument").isNull then
      some (Form.assignmentPattern (param.get "left") (Form.identifier "yield"))
    else none
  else some param

def arrowParameters? (e : Tree) : Option (List Tree × Bool) :=
  if e.isKind "Identifier" then some ([e], false)
  else if e.isKind "ArrowParameterPlaceHolder" then some ((e.get "params").items, e.flag "isAsync")
  else none

def checkedParameters (strict isAsync : Bool) (params : List Tree) : Option (List Tree) := do
  let params ← params.mapM yieldAsName
  guard (!(isAsync && params.any fun p => p.isKind "Identifier" && p.name == "await"))
  guard (!params.any fun p => p.isKind "YieldExpression")
  guard (!repeatsName strict (boundItems params))
  return params

end Legible.Script
