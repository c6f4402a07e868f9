import Legible.Naming.Derive
import Legible.Pattern.Match
import Legible.Pattern.Vocabulary

namespace Legible.Naming

open Pattern

inductive Hint where
  | path
  | className
  | property
  | fixed (name : String)
deriving DecidableEq

structure Idiom where
  pattern : Pattern
  hint : Hint

def capturedText (key : String) (c : Captures) : String :=
  ((c.lookup key).bind Tree.text?).getD ""

def Hint.name? (h : Hint) (c : Captures) : Option String :=
  let captured := capturedText "placeholder2" c
  let name := match h with
    | .path => nameOfPath captured
    | .className => nameOfClass captured
    | .property => some captured
    | .fixed name => some name
  name.filter (· != "")

def declaration (kind : String) (init : Pattern) : Pattern :=
  Form.variableDeclaration kind [Form.variableDeclarator (anyName "placeholder1") init]

def required : Pattern :=
  Form.callExpression (Form.identifier "require") [anyString "placeholder2"]

def interopRequired : Pattern :=
  Form.callExpression (Form.identifier "_interopRequireDefault") [required]

def requiredMethod : Pattern :=
  Form.callExpression (Form.memberExpression false required (anyName "placeholder3")) []

def anyProperty : Pattern :=
  Form.memberExpression false (anyExpression "expression1") (anyName "placeholder2")

def calledWithString : Pattern :=
  Form.callExpression (anyExpression "expression1") [anyString "placeholder2"]

def newInstance : Pattern :=
  Form.newExpression (anyName "placeholder2") [expressions "expression1"]

def countingLoop (kind : String) : Pattern :=
  Form.forStatement (declaration kind (anyExpression "expression1"))
    (optionalExpression "expression2") (optionalExpression "expression3")
    (anyStatement "statement1")

def keyLoop (kind : String) : Pattern :=
  Form.forInStatement (declaration kind Form.null) (anyExpression "expression1")
    (anyStatement "statement1")

def itemLoop (kind : String) : Pattern :=
  Form.forOfStatement (declaration kind Form.null) (anyExpression "expression1")
    (anyStatement "statement1")

def declarations (hint : Hint) (init : Pattern) : List Idiom :=
  ["var", "let", "const"].map fun kind => ⟨declaration kind init, hint⟩

def loops (name : String) (loop : String → Pattern) : List Idiom :=
  ["var", "let"].map fun kind => ⟨loop kind, .fixed name⟩

def idioms : List Idiom :=
  declarations .path required ++ declarations .path interopRequired ++
    declarations .path requiredMethod ++ declarations .property anyProperty ++
    loops "index" countingLoop ++ loops "key" keyLoop ++ loops "item" itemLoop ++
    declarations .path calledWithString ++ declarations .className newInstance

end Legible.Naming
