import Legible.Tree

namespace Legible

class Form (α : Type) where
  scalar : Scalar → α
  list : List α → α
  object : List (String × α) → α

instance : Form Tree where
  scalar := .scalar
  list := .list
  object := .object 0

namespace Form

variable {α : Type} [Form α]

def null : α := scalar .null
def text (s : String) : α := scalar (.text s)
def bool (b : Bool) : α := scalar (.bool b)

def node (kind : String) (fields : List (String × α)) : α :=
  object (("type", text kind) :: fields)

def program (body : List α) : α :=
  node "Program" [("sourceType", text "script"), ("body", list body)]

def expressionStatement (expression : α) : α :=
  node "ExpressionStatement" [("expression", expression)]

def directive (expression : α) (raw : String) : α :=
  node "ExpressionStatement" [("expression", expression), ("directive", text raw)]

def blockStatement (body : List α) : α :=
  node "BlockStatement" [("body", list body)]

def emptyStatement : α := node "EmptyStatement" []

def debuggerStatement : α := node "DebuggerStatement" []

def ifStatement (test consequent alternate : α) : α :=
  node "IfStatement" [("test", test), ("consequent", consequent), ("alternate", alternate)]

def forStatement (init test update body : α) : α :=
  node "ForStatement" [("init", init), ("test", test), ("update", update), ("body", body)]

def forInStatement (left right body : α) : α :=
  node "ForInStatement" [("each", bool false), ("left", left), ("right", right), ("body", body)]

def forOfStatement (left right body : α) : α :=
  node "ForOfStatement" [("left", left), ("right", right), ("body", body)]

def whileStatement (test body : α) : α :=
  node "WhileStatement" [("test", test), ("body", body)]

def doWhileStatement (body test : α) : α :=
  node "DoWhileStatement" [("body", body), ("test", test)]

def returnStatement (argument : α) : α :=
  node "ReturnStatement" [("argument", argument)]

def throwStatement (argument : α) : α :=
  node "ThrowStatement" [("argument", argument)]

def breakStatement (label : α) : α :=
  node "BreakStatement" [("label", label)]

def continueStatement (label : α) : α :=
  node "ContinueStatement" [("label", label)]

def labeledStatement (label body : α) : α :=
  node "LabeledStatement" [("label", label), ("body", body)]

def switchStatement (discriminant : α) (cases : List α) : α :=
  node "SwitchStatement" [("discriminant", discriminant), ("cases", list cases)]

def switchCase (test : α) (consequent : List α) : α :=
  node "SwitchCase" [("test", test), ("consequent", list consequent)]

def tryStatement (block handler finalizer : α) : α :=
  node "TryStatement" [("block", block), ("handler", handler), ("finalizer", finalizer)]

def catchClause (param body : α) : α :=
  node "CatchClause" [("param", param), ("body", body)]

def withStatement (object body : α) : α :=
  node "WithStatement" [("object", object), ("body", body)]

def variableDeclaration (kind : String) (declarations : List α) : α :=
  node "VariableDeclaration" [("declarations", list declarations), ("kind", text kind)]

def variableDeclarator (id init : α) : α :=
  node "VariableDeclarator" [("id", id), ("init", init)]

def function (kind : String) (isAsync : Bool) (id : α) (params : List α) (body : α)
    (generator : Bool) : α :=
  node kind [("expression", bool false), ("isAsync", bool isAsync), ("id", id),
    ("params", list params), ("body", body), ("generator", bool generator)]

def functionExpression (id : α) (params : List α) (body : α) : α :=
  function "FunctionExpression" false id params body false

def functionDeclaration (id : α) (params : List α) (body : α) : α :=
  function "FunctionDeclaration" false id params body false

def arrowFunction (isAsync : Bool) (params : List α) (body : α) (expression : Bool) : α :=
  node "ArrowFunctionExpression" [("generator", bool false), ("isAsync", bool isAsync),
    ("params", list params), ("body", body), ("expression", bool expression)]

def arrowParameters (params : List α) (isAsync : Bool) : α :=
  node "ArrowParameterPlaceHolder" [("params", list params), ("isAsync", bool isAsync)]

def class_ (kind : String) (id superClass body : α) : α :=
  node kind [("id", id), ("superClass", superClass), ("body", body)]

def classBody (body : List α) : α :=
  node "ClassBody" [("body", list body)]

def methodDefinition (key : α) (computed : Bool) (value : α) (kind : String) (isStatic : Bool) : α :=
  node "MethodDefinition" [("key", key), ("computed", bool computed), ("value", value),
    ("kind", text kind), ("static", bool isStatic)]

def identifier (name : String) : α :=
  node "Identifier" [("name", text name)]

def literal (value : Scalar) (raw : String) : α :=
  node "Literal" [("value", scalar value), ("raw", text raw)]

def regexLiteral (pattern flags raw : String) : α :=
  node "Literal" [("value", scalar (.regex pattern flags)), ("raw", text raw),
    ("regex", object [("pattern", text pattern), ("flags", text flags)])]

def templateLiteral (quasis expressions : List α) : α :=
  node "TemplateLiteral" [("quasis", list quasis), ("expressions", list expressions)]

def templateElement (raw cooked : String) (tail : Bool) : α :=
  node "TemplateElement" [("value", object [("raw", text raw), ("cooked", text cooked)]),
    ("tail", bool tail)]

def taggedTemplate (tag quasi : α) : α :=
  node "TaggedTemplateExpression" [("tag", tag), ("quasi", quasi)]

def thisExpression : α := node "ThisExpression" []

def superReference : α := node "Super" []

def importReference : α := node "Import" []

def arrayExpression (elements : List α) : α :=
  node "ArrayExpression" [("elements", list elements)]

def arrayPattern (elements : List α) : α :=
  node "ArrayPattern" [("elements", list elements)]

def objectExpression (properties : List α) : α :=
  node "ObjectExpression" [("properties", list properties)]

def objectPattern (properties : List α) : α :=
  node "ObjectPattern" [("properties", list properties)]

def property (key : α) (computed : Bool) (value : α) (kind : String) (method : Bool) : α :=
  node "Property" [("key", key), ("computed", bool computed), ("value", value),
    ("kind", text kind), ("method", bool method), ("shorthand", bool false)]

def spreadElement (argument : α) : α :=
  node "SpreadElement" [("argument", argument)]

def restElement (argument : α) : α :=
  node "RestElement" [("argument", argument)]

def assignmentPattern (left right : α) : α :=
  node "AssignmentPattern" [("left", left), ("right", right)]

def unaryExpression (operator : String) (argument : α) : α :=
  node "UnaryExpression" [("prefix", bool true), ("operator", text operator),
    ("argument", argument)]

def updateExpression (operator : String) (argument : α) (before : Bool) : α :=
  node "UpdateExpression" [("operator", text operator), ("argument", argument),
    ("prefix", bool before)]

def binaryExpression (operator : String) (left right : α) : α :=
  node (if operator == "&&" || operator == "||" then "LogicalExpression" else "BinaryExpression")
    [("operator", text operator), ("left", left), ("right", right)]

def assignmentExpression (operator : String) (left right : α) : α :=
  node "AssignmentExpression" [("operator", text operator), ("left", left), ("right", right)]

def conditionalExpression (test consequent alternate : α) : α :=
  node "ConditionalExpression"
    [("test", test), ("consequent", consequent), ("alternate", alternate)]

def callExpression (callee : α) (arguments : List α) : α :=
  node "CallExpression" [("callee", callee), ("arguments", list arguments)]

def newExpression (callee : α) (arguments : List α) : α :=
  node "NewExpression" [("callee", callee), ("arguments", list arguments)]

def memberExpression (computed : Bool) (object property : α) : α :=
  node "MemberExpression" [("computed", bool computed), ("object", object), ("property", property)]

def sequenceExpression (expressions : List α) : α :=
  node "SequenceExpression" [("expressions", list expressions)]

def yieldExpression (argument : α) (delegate : Bool) : α :=
  node "YieldExpression" [("argument", argument), ("delegate", bool delegate)]

def awaitExpression (argument : α) : α :=
  node "AwaitExpression" [("argument", argument)]

def metaProperty (word property : α) : α :=
  node "MetaProperty" [("meta", word), ("property", property)]

def importDeclaration (specifiers : List α) (source : α) : α :=
  node "ImportDeclaration" [("specifiers", list specifiers), ("source", source)]

def importDefaultSpecifier (name : α) : α :=
  node "ImportDefaultSpecifier" [("local", name)]

def importNamespaceSpecifier (name : α) : α :=
  node "ImportNamespaceSpecifier" [("local", name)]

def importSpecifier (name imported : α) : α :=
  node "ImportSpecifier" [("local", name), ("imported", imported)]

def exportNamedDeclaration (declaration : α) (specifiers : List α) (source : α) : α :=
  node "ExportNamedDeclaration"
    [("declaration", declaration), ("specifiers", list specifiers), ("source", source)]

def exportSpecifier (exported name : α) : α :=
  node "ExportSpecifier" [("exported", exported), ("local", name)]

def exportDefaultDeclaration (declaration : α) : α :=
  node "ExportDefaultDeclaration" [("declaration", declaration)]

def exportAllDeclaration (source : α) : α :=
  node "ExportAllDeclaration" [("source", source)]

end Form

end Legible
