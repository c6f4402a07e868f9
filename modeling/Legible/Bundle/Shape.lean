import Legible.Pattern.Vocabulary

namespace Legible.Bundle

open Pattern

def loaderBody : Pattern :=
  Form.blockStatement [statements "statement1"]

def scriptOf (statement : Pattern) : Pattern :=
  Form.program [statement, statements "statement2"]

def script (expression : Pattern) : Pattern :=
  scriptOf (Form.expressionStatement expression)

def assigned (name : String) (value : Pattern) : Pattern :=
  Form.assignmentExpression "=" (anyExpression name) value

/-! ### Bundles whose modules list their dependencies

The loader takes the table, a cache and the list of entries. -/

def loaderArguments : List Pattern :=
  [anyExpression "expression1", anyExpression "expression2", anyExpression "expression3"]

def doubleCall : Pattern :=
  Form.callExpression
    (Form.callExpression (Form.functionExpression Form.null [] loaderBody) []) loaderArguments

def namedLoader (name parameters : String) : Pattern :=
  Form.callExpression
    (Form.functionExpression (anyName name) [expressionRun parameters] loaderBody) loaderArguments

def standalone : Pattern :=
  negated (Form.callExpression
    (Form.functionExpression Form.null [expressionRun "expression0"]
      (Form.blockStatement [statements "statement0"]))
    [Form.functionExpression Form.null []
      (Form.blockStatement
        [Form.variableDeclaration "var"
          [Form.variableDeclarator (anyName "placeholder00") Form.null],
         Form.returnStatement
          (Form.callExpression (namedLoader "placeholder1" "expression00")
            [anyExpression "expression4"])])])

def browserifyShapes : List Pattern :=
  [script doubleCall,
   script (assigned "expression0" doubleCall),
   script (negated doubleCall),
   script (assigned "expression00" (namedLoader "placeholder0" "expression0")),
   script (negated (namedLoader "placeholder0" "expression0")),
   script standalone]

/-! ### Bundles whose loader takes the table alone -/

def tableLoader (parameter : String) : Pattern :=
  Form.callExpression (Form.functionExpression Form.null [anyExpression parameter] loaderBody)
    [anyExpression "expression1"]

def globalProperty : Pattern :=
  Form.memberExpression false (anyName "placeholder1") (anyName "placeholder2")

def chunkIds : Pattern :=
  Form.arrayExpression [literalRun "expression0"]

def chunk (contents : List Pattern) : Pattern :=
  Form.callExpression
    (Form.memberExpression false
      (Form.assignmentExpression "=" globalProperty
        (Form.binaryExpression "||" globalProperty (Form.arrayExpression [])))
      (Form.identifier "push"))
    [Form.arrayExpression (chunkIds :: contents)]

def shortChunk : Pattern := chunk [anyExpression "expression1"]

def longChunk : Pattern := chunk [anyExpression "expression1", anyExpression "expression2"]

def useStrict : Pattern :=
  Form.directive (Form.literal (.text "use strict") "\"use strict\"") "use strict"

def strictScript (expression : Pattern) : Pattern :=
  Form.program [useStrict, Form.expressionStatement expression, statements "statement2"]

def chunkCall : Pattern :=
  Form.variableDeclaration "var"
    [Form.variableDeclarator (anyName "placeholder1")
      (Form.callExpression (anyName "placeholder2")
        [chunkIds, anyExpression "expression1", anyExpression "expression2"])]

def universal : Pattern :=
  negated (Form.callExpression
    (Form.functionExpression Form.null [expressionRun "expression0"]
      (Form.blockStatement [statements "statement0"]))
    [anyName "placeholder00",
     Form.functionExpression Form.null []
      (Form.blockStatement
        [Form.returnStatement
          (Form.memberExpression false (tableLoader "expression00") (anyName "placeholder1"))])])

def webpackShapes : List Pattern :=
  [script (tableLoader "expression0"),
   script (negated (tableLoader "expression0")),
   script (Form.assignmentExpression "=" globalProperty (tableLoader "expression0")),
   script shortChunk,
   script longChunk,
   strictScript shortChunk,
   strictScript longChunk,
   scriptOf chunkCall,
   script universal]

/-! ### Statements of a loader that start the entry module -/

def entryCall : Pattern :=
  Form.callExpression (anyName "placeholder1")
    [Form.assignmentExpression "="
      (Form.memberExpression false (anyName "placeholder1") (Form.identifier "s"))
      (anyLiteral "expression1")]

def entryPush : Pattern :=
  Form.callExpression
    (Form.memberExpression false (anyName "placeholder1") (Form.identifier "push"))
    [Form.arrayExpression [anyLiteral "expression1", literals "expression2"]]

inductive EntryShape where
  | direct (p : Pattern)
  | later (outer inner : Pattern)

def sequenceFrom (first : Pattern) (rest : String) : Pattern :=
  Form.sequenceExpression [first, expressionRun rest]

def entryShapes : List EntryShape :=
  let shapes (wrap : Pattern → Pattern) : List EntryShape :=
    [.direct (wrap entryCall),
     .direct (wrap (sequenceFrom entryCall "expression2")),
     .later (wrap (sequenceFrom (anyExpression "expression0") "expression1")) entryCall]
  shapes Form.returnStatement ++ shapes Form.expressionStatement ++
    [.direct (Form.expressionStatement entryPush),
     .direct (Form.expressionStatement (sequenceFrom entryPush "expression3"))]

/-! ### Modules -/

def codeAndDependencies : Pattern :=
  Form.arrayExpression [anyExpression "expression1", anyExpression "expression2"]

def factories : List Pattern :=
  [Form.functionExpression Form.null [expressions "expression1"] loaderBody,
   Form.arrowFunction false [expressions "expression1"] loaderBody false]

def evalStatement : Pattern :=
  Form.expressionStatement
    (Form.callExpression (Form.identifier "eval") [anyLiteral "expression1"])

def elements : Pattern :=
  Form.arrayExpression [expressions "expression1"]

def literalElements : Pattern :=
  Form.arrayExpression [literals "expression1"]

end Legible.Bundle
