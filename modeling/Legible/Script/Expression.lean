import Legible.Script.Function

namespace Legible.Script

open Read

/-! ### Primary expressions -/

def templateElement : Read (Tree × Bool) := do
  match (← advance).token with
  | .template raw cooked _ closes => return (Form.templateElement raw cooked closes, closes)
  | _ => failure

def startsTemplate : Token → Bool
  | .template _ _ opens _ => opens
  | _ => false

def templateLiteral (g : Grammar) (c : Context) : Read Tree := do
  guard (startsTemplate (← token))
  let (head, closed) ← templateElement
  repeatStep (fun (quasis, expressions, closed) => do
    if closed then return .inr (Form.templateLiteral quasis.reverse expressions.reverse)
    let e ← expression g c
    let (quasi, closed) ← templateElement
    return .inl (quasi :: quasis, e :: expressions, closed)) g.fuel ([head], [], closed)

def regexLiteral : Read Tree := do
  let r ← get
  let (body, rest) ← regexBody (r.next.start.drop 1) false false []
  let flags := rest.takeWhile isNamePart
  goTo { r.place with text := rest.drop flags.length } r.next.line
  let body := String.ofList body
  let flags := String.ofList flags
  return Form.regexLiteral body flags ("/" ++ body ++ "/" ++ flags)

def group (g : Grammar) (c : Context) : Read Tree := do
  expectPunct "("
  let lastParameter : Read Tree := do
    let last ← restElement g c false ")"
    expectPunct ")"
    guard (← isPunct "=>")
    return last
  if ← acceptPunct ")" then
    guard (← isPunct "=>")
    return Form.arrowParameters [] false
  if ← isPunct "..." then return Form.arrowParameters [← lastParameter] false
  setMayBind true
  let first ← shared (g.assignment c)
  let (ts, isArrow) ← repeatStep (fun acc => do
    if !(← acceptPunct ",") then return .inr (acc.reverse, false)
    if ← acceptPunct ")" then return .inr (acc.reverse, true)
    if ← isPunct "..." then
      guard (← mayBind)
      let last ← lastParameter
      setMayBind false
      return .inr ((last :: acc).reverse, true)
    return .inl ((← shared (g.assignment c)) :: acc)) g.fuel [first]
  if isArrow then return Form.arrowParameters (ts.map asPattern) false
  expectPunct ")"
  if ← isPunct "=>" then
    let isYield := match ts with
      | [t] => t.isKind "Identifier" && t.name == "yield"
      | _ => false
    guard (isYield || (← mayBind))
    setMayBind false
    return Form.arrowParameters (ts.map asPattern) false
  setMayBind false
  match ts with
  | [t] => return t
  | _ => return Form.sequenceExpression ts

def spreadElement (g : Grammar) (c : Context) : Read Tree := do
  expectPunct "..."
  return Form.spreadElement (← shared (g.assignment c))

def arrayInitializer (g : Grammar) (c : Context) : Read Tree := do
  expectPunct "["
  let elements ← repeatStep (fun acc => do
    if ← acceptPunct "]" then return .inr acc.reverse
    if ← acceptPunct "," then return .inl (Tree.null :: acc)
    let spread ← isPunct "..."
    let e ← if spread then spreadElement g c else shared (g.assignment c)
    if !(← isPunct "]") then
      if spread then setMayBind false
      expectPunct ","
    return .inl (e :: acc)) g.fuel []
  return Form.arrayExpression elements

def objectProperty (g : Grammar) (c : Context) : Read Tree := do
  let first ← token
  let name? := match first with
    | .name w => some w
    | _ => none
  let mut computed := false
  let mut isAsync := false
  let mut key := Tree.null
  if let some w := name? then
    let _ ← advance
    computed ← isPunct "["
    isAsync := w == "async" && !(← afterLineEnd) && !(← isPunct ":") && !(← isPunct "(") &&
      !(← isPunct "*") && !(← isPunct ",")
    key ← if isAsync then propertyKey g c else pure (Form.identifier w)
  else if !(← acceptPunct "*") then
    computed ← isPunct "["
    key ← propertyKey g c
  let keyFollows := isKeyStart (← token)
  if !isAsync && keyFollows && (first == .name "get" || first == .name "set") then
    computed ← isPunct "["
    key ← propertyKey g c
    if first == .name "get" then
      return Form.property key computed (← method g c .getter) "get" false
    return Form.property key computed (← method g c .plain) "set" false
  if first == .punct "*" then
    guard keyFollows
    computed ← isPunct "["
    key ← propertyKey g c
    return Form.property key computed (← method g c .generator) "init" true
  if !isAsync && (← acceptPunct ":") then
    return Form.property key computed (← shared (g.assignment c)) "init" false
  if ← isPunct "(" then
    let value ← method g c (if isAsync then .asynchronous else .plain)
    return Form.property key computed value "init" true
  let some w := name? | failure
  let value := Form.identifier w
  if ← acceptPunct "=" then
    setNeedsPattern true
    let value := Form.assignmentPattern value (← isolated (g.assignment c))
    return Form.property key computed value "init" false
  return Form.property key computed value "init" false

def objectInitializer (g : Grammar) (c : Context) : Read Tree := do
  expectPunct "\x7b"
  let properties ← looseList "\x7d" (do
    if ← isPunct "..." then spreadElement g c else objectProperty g c) g.fuel
  return Form.objectExpression properties

def isImportCall : Read Bool := do
  if !(← isKeyword "import") then return false
  return (← peek).token == .punct "("

def keywordExpression (g : Grammar) (c : Context) (w : String) : Read Tree := do
  if !(← isStrict) && (w == "let" || (w == "yield" && (← yieldIsName))) then
    let _ ← advance
    return Form.identifier w
  setMayBind false
  match w with
  | "function" => functionExpression g c
  | "class" => classTail g c "ClassExpression" true
  | "import" =>
    guard (← isImportCall)
    let _ ← advance
    return Form.importReference
  | _ =>
    let _ ← advance
    match w with
    | "this" => return Form.thisExpression
    | "null" => return Form.literal .null "null"
    | "true" => return Form.literal (.bool true) "true"
    | "false" => return Form.literal (.bool false) "false"
    | _ => failure

def primary (g : Grammar) (c : Context) : Read Tree := do
  let t := (← get).next
  match t.token with
  | .name w =>
    if ← isAsyncFunction then return ← functionExpression g c
    let _ ← advance
    return Form.identifier w
  | .keyword w => keywordExpression g c w
  | .number n =>
    setMayBind false
    let _ ← advance
    return Form.literal (.number n) t.raw
  | .string s =>
    setMayBind false
    let _ ← advance
    return Form.literal (.text s) t.raw
  | .template .. => templateLiteral g c
  | .punct "(" =>
    setMayBind false
    shared (group g c)
  | .punct "[" => shared (arrayInitializer g c)
  | .punct "\x7b" => shared (objectInitializer g c)
  | .punct "/" | .punct "/=" =>
    setMayBind false
    regexLiteral
  | _ => failure

/-! ### Members and calls -/

def arguments (g : Grammar) (c : Context) : Read (List Tree) := do
  expectPunct "("
  looseList ")" (do
    if ← isPunct "..." then spreadElement g c else isolated (g.assignment c)) g.fuel

def asyncArguments (g : Grammar) (c : Context) : Read (List Tree) := do
  expectPunct "("
  looseList ")" (do
    if ← isPunct "..." then spreadElement g c
    else isolated do
      let e ← g.assignment c
      setNeedsPattern false
      return e) g.fuel

def newExpression (g : Grammar) (c : Context) : Read Tree := do
  expectKeyword "new"
  if ← acceptPunct "." then
    guard c.inFunction
    expectName "target"
    return Form.metaProperty (Form.identifier "new") (Form.identifier "target")
  guard (!(← isKeyword "import"))
  let callee ← isolated (g.member c)
  let args ← if ← isPunct "(" then arguments g c else pure []
  setMayBind false
  return Form.newExpression callee args

def superReference (calls : Bool) : Read Tree := do
  expectKeyword "super"
  guard ((← isPunct ".") || (← isPunct "[") || (calls && (← isPunct "(")))
  return Form.superReference

def chain (g : Grammar) (c : Context) (calls : Bool) : Read Tree := do
  let c := { c with allowIn := true }
  let first := (← get).next
  let start ←
    if c.inFunction && (← isKeyword "super") then superReference calls
    else if ← isKeyword "new" then shared (newExpression g c)
    else shared (primary g c)
  repeatStep (fun e => do
    if ← isPunct "." then
      setMayBind false
      expectPunct "."
      let name ← anyWord
      return .inl (Form.memberExpression false e (Form.identifier name))
    else if ← isPunct "[" then
      setMayBind false
      expectPunct "["
      let key ← isolated (expression g c)
      expectPunct "]"
      return .inl (Form.memberExpression true e key)
    else if calls && (← isPunct "(") then
      setMayBind false
      if first.token == .name "async" && first.line == (← line) then
        let args ← asyncArguments g c
        if ← isPunct "=>" then return .inl (Form.arrowParameters (args.map asPattern) true)
        return .inl (Form.callExpression e args)
      return .inl (Form.callExpression e (← arguments g c))
    else if startsTemplate (← token) then
      return .inl (Form.taggedTemplate e (← templateLiteral g c))
    else
      return .inr e) g.fuel start

end Legible.Script
