import Legible.Pattern

namespace Legible.Pattern

def anyExpression (name : String) : Pattern :=
  .hole ⟨name, .expression .any false false, false, false⟩

def optionalExpression (name : String) : Pattern :=
  .hole ⟨name, .expression .any false false, true, false⟩

def expressionRun (name : String) : Pattern :=
  .hole ⟨name, .expression .any false false, false, true⟩

def expressions (name : String) : Pattern :=
  .hole ⟨name, .expression .any false false, true, true⟩

def anyIdentifier (name : String) : Pattern :=
  .hole ⟨name, .expression .identifier false false, false, false⟩

def anyLiteral (name : String) : Pattern :=
  .hole ⟨name, .expression .literal false false, false, false⟩

def literalRun (name : String) : Pattern :=
  .hole ⟨name, .expression .literal false false, false, true⟩

def literals (name : String) : Pattern :=
  .hole ⟨name, .expression .literal false false, true, true⟩

def loopVariable (name : String) : Pattern :=
  .hole ⟨name, .expression .any true false, false, false⟩

def optionalLoopVariable (name : String) : Pattern :=
  .hole ⟨name, .expression .any true false, true, false⟩

def anyDeclarator (name : String) : Pattern :=
  .hole ⟨name, .expression .any false true, false, false⟩

def declaratorRun (name : String) : Pattern :=
  .hole ⟨name, .expression .any false true, false, true⟩

def anyStatement (name : String) : Pattern :=
  .hole ⟨name, .statement .any false, false, false⟩

def optionalStatement (name : String) : Pattern :=
  .hole ⟨name, .statement .any false, true, false⟩

def multiLineStatement (name : String) : Pattern :=
  .hole ⟨name, .statement .any true, false, false⟩

def statements (name : String) : Pattern :=
  .hole ⟨name, .statement .any false, true, true⟩

def anyText (name : String) : Pattern :=
  .hole ⟨name, .text, false, false⟩

def anyName (name : String) : Pattern :=
  Form.node "Identifier" [("name", anyText name)]

def anyString (name : String) : Pattern :=
  Form.node "Literal" [("value", anyText name), ("raw", Form.text ("'" ++ name ++ "'"))]

def integer (n : Nat) : Pattern :=
  Form.literal (.number (.ofInt n)) (toString n)

def boolean (b : Bool) : Pattern :=
  Form.literal (.bool b) (if b then "true" else "false")

def negated (p : Pattern) : Pattern :=
  Form.unaryExpression "!" p

end Legible.Pattern
