import Legible.Script.Operator

namespace Legible.Script

open Read

/-! ### Declarations of variables -/

def initialValue (g : Grammar) (c : Context) : Read (Option Tree) := do
  if ← acceptPunct "=" then return some (← isolated (g.assignment c))
  return none

def variableBinding (g : Grammar) (c : Context) (inHead : Bool) : Read Tree := do
  let id ← g.binding c true
  let init ← initialValue g c
  guard (init.isSome || id.isKind "Identifier" || inHead)
  return Form.variableDeclarator id (init.getD .null)

def lexicalBinding (g : Grammar) (c : Context) (kind : String) (inHead : Bool) : Read Tree := do
  let id ← g.binding c false
  let init ← initialValue g c
  let bare ← if kind == "const" then
      do pure ((← isKeyword "in") || (← isName "of"))
    else pure (inHead || id.isKind "Identifier")
  guard (init.isSome || bare)
  return Form.variableDeclarator id (init.getD .null)

def bindingList (g : Grammar) (c : Context) (kind : String) (inHead : Bool) :
    Read (List Tree) := do
  let one := if kind == "var" then variableBinding g c inHead else lexicalBinding g c kind inHead
  let first ← one
  repeatStep (fun acc => do
    if ← acceptPunct "," then return .inl ((← one) :: acc)
    return .inr acc.reverse) g.fuel [first]

def variableStatement (g : Grammar) (c : Context) : Read Tree := do
  let kind ← anyWord
  let ds ← bindingList g c kind false
  endStatement
  return Form.variableDeclaration kind ds

def isLetDeclaration : Read Bool := do
  match (← peek).token with
  | .name _ => return true
  | .keyword w => return w == "let" || w == "yield"
  | .punct s => return s == "[" || s == "\x7b"
  | _ => return false

/-! ### Loops -/

inductive LoopHead where
  | counting (init test update : Tree)
  | inKeys (left right : Tree)
  | ofItems (left right : Tree)

def declarationHead (g : Grammar) (c : Context) (kind : String) :
    Read (Tree ⊕ LoopHead) := do
  let ds ← bindingList g { c with allowIn := false } kind true
  let declaration := Form.variableDeclaration kind ds
  if let [d] := ds then
    let bare := (d.get "init").isNull
    if (bare || kind == "var") && (← acceptKeyword "in") then
      return .inr (.inKeys declaration (← expression g c))
    if bare && (← acceptName "of") then
      return .inr (.ofItems declaration (← g.assignment c))
  if kind == "var" then expectPunct ";" else endStatement
  return .inl declaration

def expressionHead (g : Grammar) (c : Context) : Read (Tree ⊕ LoopHead) := do
  let first ← shared (g.assignment { c with allowIn := false })
  if ← acceptKeyword "in" then
    return .inr (.inKeys (asPattern first) (← expression g c))
  if ← acceptName "of" then
    return .inr (.ofItems (asPattern first) (← g.assignment c))
  let es ← repeatStep (fun acc => do
    if ← acceptPunct "," then return .inl ((← isolated (g.assignment c)) :: acc)
    return .inr acc.reverse) g.fuel [first]
  expectPunct ";"
  match es with
  | [e] => return .inl e
  | _ => return .inl (Form.sequenceExpression es)

def lexicalHead (g : Grammar) (c : Context) (kind : String) : Read (Tree ⊕ LoopHead) := do
  let _ ← advance
  if !(← isStrict) && (← token).spelling == "in" then
    let _ ← advance
    return .inr (.inKeys (Form.identifier kind) (← expression g c))
  declarationHead g c kind

def loopHead (g : Grammar) (c : Context) : Read LoopHead := do
  let start : Tree ⊕ LoopHead ←
    if ← acceptPunct ";" then pure (.inl .null)
    else if ← acceptKeyword "var" then declarationHead g c "var"
    else if ← isKeyword "const" then lexicalHead g c "const"
    else if ← isKeyword "let" then lexicalHead g c "let"
    else expressionHead g c
  match start with
  | .inr head => return head
  | .inl init =>
    let test ← if ← isPunct ";" then pure .null else expression g c
    expectPunct ";"
    let update ← if ← isPunct ")" then pure .null else expression g c
    return .counting init test update

/-- The statement behind a head in parentheses. Where these are not closed, a token is passed over
and the statement is empty. -/
def behindHead (body : Read Tree) : Read Tree := do
  if ← acceptPunct ")" then body
  else
    let _ ← advance
    return Form.emptyStatement

def forStatement (g : Grammar) (c : Context) : Read Tree := do
  expectKeyword "for"
  expectPunct "("
  let head ← loopHead g c
  let body ← behindHead (isolated (g.statement { c with inLoop := true }))
  match head with
  | .counting init test update => return Form.forStatement init test update body
  | .inKeys left right => return Form.forInStatement left right body
  | .ofItems left right => return Form.forOfStatement left right body

/-! ### Other statements -/

def inParentheses (p : Read Tree) : Read Tree := do
  expectPunct "("
  let t ← p
  expectPunct ")"
  return t

def block (g : Grammar) (c : Context) : Read Tree := do
  expectPunct "\x7b"
  return Form.blockStatement (← itemsUntil "\x7d" (g.item c) g.fuel)

def ifStatement (g : Grammar) (c : Context) : Read Tree := do
  expectKeyword "if"
  expectPunct "("
  let test ← expression g c
  let closed ← isPunct ")"
  let consequent ← behindHead (g.statement c)
  let alternate ← if closed && (← acceptKeyword "else") then g.statement c else pure .null
  return Form.ifStatement test consequent alternate

def whileStatement (g : Grammar) (c : Context) : Read Tree := do
  expectKeyword "while"
  expectPunct "("
  let test ← expression g c
  return Form.whileStatement test (← behindHead (g.statement { c with inLoop := true }))

def doWhileStatement (g : Grammar) (c : Context) : Read Tree := do
  expectKeyword "do"
  let body ← g.statement { c with inLoop := true }
  expectKeyword "while"
  expectPunct "("
  let test ← expression g c
  if ← acceptPunct ")" then let _ ← acceptPunct ";"
  else let _ ← advance
  return Form.doWhileStatement body test

def jumpStatement (c : Context) : Read Tree := do
  let word ← anyWord
  let hasLabel := (← isAnyName) && !(← afterLineEnd)
  let label ← if hasLabel then bindingName false else pure .null
  guard (!hasLabel || c.labels.contains label.name)
  endStatement
  if word == "break" then
    guard (hasLabel || c.inLoop || c.inSwitch)
    return Form.breakStatement label
  guard (hasLabel || c.inLoop)
  return Form.continueStatement label

def returnStatement (g : Grammar) (c : Context) : Read Tree := do
  expectKeyword "return"
  let t ← token
  let literal := match t with
    | .string _ | .template .. => true
    | _ => false
  let argument ←
    if literal || !(t == .punct ";" || t == .punct "\x7d" || t == .done || (← afterLineEnd)) then
      expression g c
    else pure .null
  endStatement
  return Form.returnStatement argument

def throwStatement (g : Grammar) (c : Context) : Read Tree := do
  expectKeyword "throw"
  guard (!(← afterLineEnd))
  let argument ← expression g c
  endStatement
  return Form.throwStatement argument

def withStatement (g : Grammar) (c : Context) : Read Tree := do
  expectKeyword "with"
  expectPunct "("
  let object ← expression g c
  return Form.withStatement object (← behindHead (g.statement c))

def switchCase (g : Grammar) (c : Context) : Read Tree := do
  let test ← if ← acceptKeyword "default" then pure .null else do
    expectKeyword "case"
    expression g c
  expectPunct ":"
  let body ← repeatStep (fun acc => do
    if (← isPunct "\x7d") || (← isKeyword "default") || (← isKeyword "case") then
      return .inr acc.reverse
    return .inl ((← g.item c) :: acc)) g.fuel []
  return Form.switchCase test body

def switchStatement (g : Grammar) (c : Context) : Read Tree := do
  expectKeyword "switch"
  let discriminant ← inParentheses (expression g c)
  expectPunct "\x7b"
  let cases ← itemsUntil "\x7d" (switchCase g { c with inSwitch := true }) g.fuel
  guard ((cases.filter fun t => (t.get "test").isNull).length ≤ 1)
  return Form.switchStatement discriminant cases

def tryStatement (g : Grammar) (c : Context) : Read Tree := do
  expectKeyword "try"
  let body ← block g c
  let handler ← if ← acceptKeyword "catch" then
      let param ← inParentheses (g.binding c false)
      pure (Form.catchClause param (← block g c))
    else pure .null
  let finalizer ← if ← acceptKeyword "finally" then block g c else pure .null
  guard (!(handler.isNull && finalizer.isNull))
  return Form.tryStatement body handler finalizer

def expressionStatement (g : Grammar) (c : Context) : Read Tree := do
  let e ← expression g c
  endStatement
  return Form.expressionStatement e

def labeledStatement (g : Grammar) (c : Context) : Read Tree := do
  let e ← expression g c
  if e.isKind "Identifier" && (← acceptPunct ":") then
    guard (!c.labels.contains e.name)
    let c := { c with labels := e.name :: c.labels }
    if ← isKeyword "function" then
      return Form.labeledStatement e (← functionDeclaration g c false)
    guard (!(← isKeyword "class"))
    return Form.labeledStatement e (← g.statement c)
  endStatement
  return Form.expressionStatement e

def statement (g : Grammar) (c : Context) : Read Tree := do
  match ← token with
  | .punct "\x7b" => block g c
  | .punct ";" =>
    let _ ← advance
    return Form.emptyStatement
  | .name _ =>
    if ← isAsyncFunction then functionDeclaration g c false else labeledStatement g c
  | .keyword "break" | .keyword "continue" => jumpStatement c
  | .keyword "debugger" =>
    let _ ← advance
    endStatement
    return Form.debuggerStatement
  | .keyword "do" => doWhileStatement g c
  | .keyword "for" => forStatement g c
  | .keyword "function" => functionDeclaration g c false
  | .keyword "if" => ifStatement g c
  | .keyword "return" => returnStatement g c
  | .keyword "switch" => switchStatement g c
  | .keyword "throw" => throwStatement g c
  | .keyword "try" => tryStatement g c
  | .keyword "var" => variableStatement g c
  | .keyword "while" => whileStatement g c
  | .keyword "with" => withStatement g c
  | .done => failure
  | _ => expressionStatement g c

/-! ### Imports and exports -/

def sourceClause : Read Tree := do
  expectName "from"
  stringLiteral

def importSpecifier : Read Tree := do
  let isName ← isAnyName
  let imported ← anyWord
  if ← acceptName "as" then
    return Form.importSpecifier (← bindingName false) (Form.identifier imported)
  guard isName
  return Form.importSpecifier (Form.identifier imported) (Form.identifier imported)

def namedImports (g : Grammar) : Read (List Tree) := do
  expectPunct "\x7b"
  commaList "\x7d" importSpecifier g.fuel

def namespaceImport : Read Tree := do
  expectPunct "*"
  expectName "as"
  return Form.importNamespaceSpecifier (Form.identifier (← anyWord))

def importClause (g : Grammar) : Read (List Tree) := do
  if ← isPunct "\x7b" then namedImports g
  else if ← isPunct "*" then return [← namespaceImport]
  else
    guard (!(← isKeyword "default"))
    let first := Form.importDefaultSpecifier (Form.identifier (← anyWord))
    if !(← acceptPunct ",") then return [first]
    if ← isPunct "*" then return [first, ← namespaceImport]
    return first :: (← namedImports g)

def importDeclaration (g : Grammar) (c : Context) : Read Tree := do
  guard (!c.inFunction)
  expectKeyword "import"
  match ← token with
  | .string _ =>
    let source ← stringLiteral
    endStatement
    return Form.importDeclaration [] source
  | _ =>
    let specifiers ← importClause g
    let source ← sourceClause
    endStatement
    return Form.importDeclaration specifiers source

def exportSpecifier : Read Tree := do
  let name ← anyWord
  let exported ← if ← acceptName "as" then anyWord else pure name
  return Form.exportSpecifier (Form.identifier exported) (Form.identifier name)

def exportDefault (g : Grammar) (c : Context) : Read Tree := do
  if ← isKeyword "function" then
    return Form.exportDefaultDeclaration (← functionDeclaration g c true)
  if ← isKeyword "class" then
    return Form.exportDefaultDeclaration (← classTail g c "ClassDeclaration" true)
  if ← isName "async" then
    if ← isAsyncFunction then
      return Form.exportDefaultDeclaration (← functionDeclaration g c true)
    return Form.exportDefaultDeclaration (← g.assignment c)
  guard (!(← isName "from"))
  let value ←
    if ← isPunct "\x7b" then objectInitializer g c
    else if ← isPunct "[" then arrayInitializer g c
    else g.assignment c
  endStatement
  return Form.exportDefaultDeclaration value

def exportNames (g : Grammar) : Read Tree := do
  expectPunct "\x7b"
  let specifiers ← commaList "\x7d" exportSpecifier g.fuel
  if ← isName "from" then
    let source ← sourceClause
    endStatement
    return Form.exportNamedDeclaration .null specifiers source
  guard (!specifiers.any fun s => (s.get "local").name == "default")
  endStatement
  return Form.exportNamedDeclaration .null specifiers .null

def exportDeclaration (g : Grammar) (c : Context) : Read Tree := do
  guard (!c.inFunction)
  expectKeyword "export"
  if ← acceptKeyword "default" then return ← exportDefault g c
  if ← acceptPunct "*" then
    let source ← sourceClause
    endStatement
    return Form.exportAllDeclaration source
  match ← token with
  | .keyword "let" | .keyword "const" =>
    return Form.exportNamedDeclaration (← variableStatement g c) [] .null
  | .keyword "var" | .keyword "class" | .keyword "function" =>
    return Form.exportNamedDeclaration (← g.item c) [] .null
  | _ =>
    if ← isAsyncFunction then
      return Form.exportNamedDeclaration (← functionDeclaration g c false) [] .null
    exportNames g

def statementItem (g : Grammar) (c : Context) : Read Tree := do
  setMayBind true
  match ← token with
  | .keyword "export" => exportDeclaration g c
  | .keyword "import" =>
    if ← isImportCall then expressionStatement g c else importDeclaration g c
  | .keyword "const" => variableStatement g c
  | .keyword "function" => functionDeclaration g c false
  | .keyword "class" => classTail g c "ClassDeclaration" false
  | .keyword "let" => if ← isLetDeclaration then variableStatement g c else statement g c
  | _ => statement g c

end Legible.Script
