import Legible.Bundle.Id
import Legible.Bundle.Shape
import Legible.Parser
import Legible.Pattern.Match

namespace Legible.Bundle

inductive Format where
  | browserify
  | webpack
deriving DecidableEq, Inhabited

def Format.text : Format → String
  | .browserify => "browserify"
  | .webpack => "webpack"

inductive ShapeError where
  | notTable (kind : String)
  | badKey
  | badEntries
  | notPair
  | notFunction
  | badReference
  | badCode
deriving DecidableEq

def ShapeError.message : ShapeError → String
  | .notTable kind => "Object expected, got " ++ kind
  | .badKey => "Literal or identifier property name expected"
  | .badEntries => "Entry points are not an array"
  | .notPair => "Module entry is not a two elements array"
  | .notFunction => "Module entry is not a function"
  | .badReference => "Expected module reference to be a literal expression"
  | .badCode => "Module code doesn't have the expected format"

inductive Error where
  | unknownFormat
  | shape (e : ShapeError)
  | unreadable (message : String)
deriving DecidableEq

def Error.message : Error → String
  | .unknownFormat => "The script is not in a known Webpack or Browserify format."
  | .shape e => e.message
  | .unreadable message => unreadableMessage message

structure Entry where
  id : Id
  factory : Tree
  dependencies : Option Tree

structure Layout where
  format : Format
  modules : Table Entry
  entries : List Id

/-! ### Tables in a script -/

def idOf : Tree → Id
  | .scalar s => s
  | _ => .null

def literalValue (t : Tree) : Id :=
  idOf (t.get "value")

def captured (name : String) (c : Captures) : Tree :=
  (c.lookup name).getD .null

def firstMatch (ps : List Pattern) (t : Tree) : Option Captures :=
  ps.findSome? (·.matches? t)

def keyOf? (property : Tree) : Option Id :=
  if !property.isKind "Property" then none
  else
    let key := property.get "key"
    if key.isKind "Identifier" && !property.flag "computed" then some (idOf (key.get "name"))
    else if key.isKind "Literal" then some (literalValue key)
    else none

/-- The pairs of an array or object, in order. Holes of an array are left out, and its keys are
positions. -/
def pairs (t : Tree) : List (Except ShapeError (Id × Tree)) :=
  if t.isKind "ArrayExpression" then
    let items := ((elements.matches? t).map (captured "expression1")).getD .null
    items.items.zipIdx.filterMap fun (item, i) =>
      if item.isNull then none else some (.ok (.number (.ofInt i), item))
  else if t.isKind "ObjectExpression" then
    (t.get "properties").items.map fun property =>
      match keyOf? property with
      | some key => .ok (key, property.get "value")
      | none => .error .badKey
  else [.error (.notTable ((t.kind?).getD "None"))]

def pairsOf (t : Tree) : Except ShapeError (List (Id × Tree)) :=
  (pairs t).mapM id

/-! ### Reading the layout -/

def entryOf? (statement : Tree) : Option Id :=
  (entryShapes.findSome? fun
    | .direct p => p.matches? statement
    | .later outer inner => do
      let c ← outer.matches? statement
      (captured "expression1" c).items.findSome? inner.matches?).map
    fun c => literalValue (captured "expression1" c)

def entriesOf (loader : Tree) : List Id :=
  loader.items.filterMap entryOf?

def browserifyEntry (id : Id) (t : Tree) : Except ShapeError Entry :=
  match codeAndDependencies.matches? t with
  | some c => .ok ⟨id, captured "expression1" c, some (captured "expression2" c)⟩
  | none => .error .notPair

def webpackEntry (id : Id) (t : Tree) : Except ShapeError Entry :=
  if (firstMatch factories t).isSome then .ok ⟨id, t, none⟩ else .error .notFunction

def readTable (entry : Id → Tree → Except ShapeError Entry) (t : Tree) :
    Except ShapeError (Table Entry) :=
  (pairs t).foldlM (fun table pair => do
    let (id, value) ← pair
    return table.insert id (← entry id value)) []

def readBrowserify (c : Captures) : Except ShapeError Layout := do
  match literalElements.matches? (captured "expression3" c) with
  | none => throw .badEntries
  | some e =>
    let modules ← readTable browserifyEntry (captured "expression1" c)
    return ⟨.browserify, modules, (captured "expression1" e).items.map literalValue⟩

def readWebpack (c : Captures) : Except ShapeError Layout := do
  let modules ← readTable webpackEntry (captured "expression1" c)
  return ⟨.webpack, modules, entriesOf (captured "statement1" c)⟩

def Layout.ofTree (t : Tree) : Except Error Layout :=
  match firstMatch browserifyShapes t with
  | some c => (readBrowserify c).mapError .shape
  | none =>
    match firstMatch webpackShapes t with
    | some c => (readWebpack c).mapError .shape
    | none => .error .unknownFormat

def isBundle (t : Tree) : Bool :=
  t.isNode && (firstMatch (browserifyShapes ++ webpackShapes) t).isSome

end Legible.Bundle
