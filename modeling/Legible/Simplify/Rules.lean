import Legible.Pattern.Fill
import Legible.Pattern.Vocabulary

namespace Legible.Simplify

open Pattern

structure Rule where
  pattern : Pattern
  replacement : Pattern

def do_ (p : Pattern) : Pattern := Form.expressionStatement p

def falseRule : Rule := ⟨negated (integer 1), boolean false⟩

def trueRule : Rule := ⟨negated (integer 0), boolean true⟩

def undefinedRule : Rule :=
  ⟨Form.unaryExpression "void" (integer 0), Form.identifier "undefined"⟩

def andRule : Rule :=
  ⟨do_ (Form.binaryExpression "&&" (anyExpression "expression1") (anyExpression "expression2")),
   Form.ifStatement (anyExpression "expression1") (do_ (anyExpression "expression2")) Form.null⟩

def orRule : Rule :=
  ⟨do_ (Form.binaryExpression "||" (anyExpression "expression1") (anyExpression "expression2")),
   Form.ifStatement (negated (anyExpression "expression1")) (do_ (anyExpression "expression2"))
     Form.null⟩

def conditional : Pattern :=
  Form.conditionalExpression (anyExpression "expression1") (anyExpression "expression2")
    (anyExpression "expression3")

def conditionalRule : Rule :=
  ⟨do_ conditional,
   Form.ifStatement (anyExpression "expression1") (do_ (anyExpression "expression2"))
     (do_ (anyExpression "expression3"))⟩

def returnConditionalRule : Rule :=
  ⟨Form.returnStatement conditional,
   Form.ifStatement (anyExpression "expression1")
     (Form.returnStatement (anyExpression "expression2"))
     (Form.returnStatement (anyExpression "expression3"))⟩

def pair : Pattern :=
  Form.sequenceExpression [anyExpression "expression1", anyExpression "expression2"]

def longSequence : Pattern :=
  Form.sequenceExpression
    [anyExpression "expression1", anyExpression "expression2", expressionRun "expression3"]

def sequenceRest : Pattern :=
  Form.sequenceExpression [anyExpression "expression2", anyExpression "expression3"]

def pairRule : Rule :=
  ⟨do_ pair,
   Form.program [do_ (anyExpression "expression1"), do_ (anyExpression "expression2")]⟩

def sequenceRule : Rule :=
  ⟨do_ longSequence, Form.program [do_ (anyExpression "expression1"), do_ sequenceRest]⟩

def returnPairRule : Rule :=
  ⟨Form.returnStatement pair,
   Form.program [do_ (anyExpression "expression1"),
     Form.returnStatement (anyExpression "expression2")]⟩

def returnSequenceRule : Rule :=
  ⟨Form.returnStatement longSequence,
   Form.program [do_ (anyExpression "expression1"), Form.returnStatement sequenceRest]⟩

def splitRule (kind : String) : Rule :=
  ⟨Form.variableDeclaration kind [anyDeclarator "expression1", declaratorRun "expression2"],
   Form.program [Form.variableDeclaration kind [anyDeclarator "expression1"],
     Form.variableDeclaration kind [anyDeclarator "expression2"]]⟩

def braced (name : String) : Pattern :=
  Form.blockStatement [anyStatement name]

def thenBraceRule : Rule :=
  ⟨Form.ifStatement (anyExpression "expression1") (multiLineStatement "statement1")
     (optionalStatement "statement2"),
   Form.ifStatement (anyExpression "expression1") (braced "statement1")
     (anyStatement "statement2")⟩

def elseBraceRule : Rule :=
  ⟨Form.ifStatement (anyExpression "expression1") (anyStatement "statement1")
     (multiLineStatement "statement2"),
   Form.ifStatement (anyExpression "expression1") (anyStatement "statement1")
     (braced "statement2")⟩

def whileBraceRule : Rule :=
  ⟨Form.whileStatement (anyExpression "expression1") (multiLineStatement "statement1"),
   Form.whileStatement (anyExpression "expression1") (braced "statement1")⟩

def doWhileBraceRule : Rule :=
  ⟨Form.doWhileStatement (multiLineStatement "statement1") (anyExpression "expression1"),
   Form.doWhileStatement (braced "statement1") (anyExpression "expression1")⟩

def forBraceRule : Rule :=
  ⟨Form.forStatement (optionalLoopVariable "expression1") (optionalExpression "expression2")
     (optionalExpression "expression3") (multiLineStatement "statement1"),
   Form.forStatement (anyExpression "expression1") (anyExpression "expression2")
     (anyExpression "expression3") (braced "statement1")⟩

def forInBraceRule : Rule :=
  ⟨Form.forInStatement (loopVariable "expression1") (anyExpression "expression2")
     (multiLineStatement "statement1"),
   Form.forInStatement (anyExpression "expression1") (anyExpression "expression2")
     (braced "statement1")⟩

def forOfBraceRule : Rule :=
  ⟨Form.forOfStatement (loopVariable "expression1") (anyExpression "expression2")
     (multiLineStatement "statement1"),
   Form.forOfStatement (anyExpression "expression1") (anyExpression "expression2")
     (braced "statement1")⟩

def interopFunction (name : Pattern) (module : Pattern) : Pattern :=
  Form.functionDeclaration name [module]
    (Form.blockStatement [Form.returnStatement
      (Form.conditionalExpression
        (Form.binaryExpression "&&" module
          (Form.memberExpression false module (Form.identifier "__esModule")))
        module
        (Form.objectExpression [Form.property (Form.identifier "default") false module "init"
          false]))])

def interopRule : Rule :=
  ⟨interopFunction (anyName "placeholder1") (anyName "placeholder2"),
   interopFunction (Form.identifier "_interopRequireDefault") (Form.identifier "obj")⟩

def rules : List Rule :=
  [falseRule, trueRule, undefinedRule, andRule, orRule, conditionalRule, returnConditionalRule,
   pairRule, sequenceRule, returnPairRule, returnSequenceRule, splitRule "var", splitRule "let",
   thenBraceRule, elseBraceRule, whileBraceRule, doWhileBraceRule, forBraceRule, forInBraceRule,
   forOfBraceRule, interopRule, splitRule "const"]

end Legible.Simplify
