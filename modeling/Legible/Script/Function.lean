import Legible.Script.Reader

namespace Legible.Script

open Read

/-! ### Patterns -/

def bindingName (letIsName : Bool) : Read Tree := do
  match (← advance).token with
  | .name w => return Form.identifier w
  | .keyword w =>
    if ← isStrict then guard (strictWords.contains w)
    else guard ((w == "yield" && (← yieldIsName)) || (w == "let" && letIsName))
    return Form.identifier w
  | _ => failure

def propertyKey (g : Grammar) (c : Context) : Read Tree := do
  let t ← advance
  match t.token with
  | .string s => return Form.literal (.text s) t.raw
  | .number n => return Form.literal (.number n) t.raw
  | .name w | .keyword w => return Form.identifier w
  | .punct "[" =>
    let e ← isolated (g.assignment c)
    expectPunct "]"
    return e
  | _ => failure

def isKeyStart : Token → Bool
  | .name _ | .keyword _ | .string _ | .number _ => true
  | .punct s => s == "["
  | _ => false

def bindingWithDefault (g : Grammar) (c : Context) (letIsName : Bool) : Read Tree := do
  let target ← g.binding c letIsName
  if ← acceptPunct "=" then
    return Form.assignmentPattern target (← withYieldIsName true (isolated (g.assignment c)))
  return target

def restElement (g : Grammar) (c : Context) (letIsName : Bool) (close : String) : Read Tree := do
  expectPunct "..."
  let target ← g.binding c letIsName
  guard (← isPunct close)
  return Form.restElement target

def arrayBinding (g : Grammar) (c : Context) (letIsName : Bool) : Read Tree := do
  expectPunct "["
  let elements ← repeatStep (fun acc => do
    if ← acceptPunct "]" then return .inr acc.reverse
    if ← acceptPunct "," then return .inl (Tree.null :: acc)
    let t ← if ← isPunct "..." then restElement g c letIsName "]"
      else bindingWithDefault g c letIsName
    if !(← isPunct "]") then expectPunct ","
    return .inl (t :: acc)) g.fuel []
  return Form.arrayPattern elements

def propertyBinding (g : Grammar) (c : Context) (letIsName : Bool) : Read Tree := do
  if ← isAnyName then
    let key ← bindingName false
    if ← acceptPunct "=" then
      return Form.property key false (Form.assignmentPattern key (← g.assignment c)) "init" false
    if ← acceptPunct ":" then
      return Form.property key false (← bindingWithDefault g c letIsName) "init" false
    return Form.property key false key "init" false
  let computed ← isPunct "["
  let key ← propertyKey g c
  expectPunct ":"
  return Form.property key computed (← bindingWithDefault g c letIsName) "init" false

def objectBinding (g : Grammar) (c : Context) (letIsName : Bool) : Read Tree := do
  expectPunct "\x7b"
  let properties ← commaList "\x7d" (do
    if ← isPunct "..." then restElement g c false "\x7d" else propertyBinding g c letIsName) g.fuel
  return Form.objectPattern properties

def binding (g : Grammar) (c : Context) (letIsName : Bool) : Read Tree := do
  if ← isPunct "[" then arrayBinding g c letIsName
  else if ← isPunct "\x7b" then objectBinding g c letIsName
  else bindingName letIsName

/-! ### Functions -/

def parameters (g : Grammar) (c : Context) : Read (List Tree) := do
  expectPunct "("
  commaList ")" (do
    if ← isPunct "..." then restElement g c false ")" else bindingWithDefault g c false) g.fuel

def expression (g : Grammar) (c : Context) : Read Tree := do
  let first ← isolated (g.assignment c)
  if ← isPunct "," then
    let es ← repeatStep (fun acc => do
      if ← acceptPunct "," then return .inl ((← isolated (g.assignment c)) :: acc)
      return .inr acc.reverse) g.fuel [first]
    return Form.sequenceExpression es
  return first

def innerText (raw : String) : String :=
  String.ofList ((raw.toList.drop 1).dropLast)

def directives (g : Grammar) (c : Context) : Read (List Tree) :=
  repeatStep (fun acc => do
    let t := (← get).next
    match t.token with
    | .string _ =>
      let e ← expression g c
      endStatement
      let text := innerText t.raw
      if e.isKind "Literal" && text != "" then
        if text == "use strict" then setStrict true
        return .inl (Form.directive e text :: acc)
      return .inr (Form.expressionStatement e :: acc).reverse
    | _ => return .inr acc.reverse) g.fuel []

def functionBody (g : Grammar) (c : Context) : Read Tree := do
  expectPunct "\x7b"
  let start ← directives g c
  let inner := { c with inFunction := true, inLoop := false, inSwitch := false, labels := [] }
  let rest ← itemsUntil "\x7d" (g.item inner) g.fuel
  return Form.blockStatement (start ++ rest)

def bodyAfter (names : List String) (body : Read Tree) : Read Tree := do
  let strictBefore ← isStrict
  keepStrict do
    let b ← body
    guard (strictBefore || !(← isStrict) || !names.any isRestricted)
    return b

def functionTail (g : Grammar) (kind : String) (c : Context) (isAsync generator : Bool)
    (id : Tree) : Read Tree :=
  withYieldIsName (!generator) do
    let c := { c with awaitIsOperator := isAsync }
    let ps ← parameters g c
    let body ← bodyAfter (boundNames id ++ boundItems ps) (functionBody g c)
    return Form.function kind isAsync id ps body generator

def isAsyncFunction : Read Bool := do
  if !(← isName "async") then return false
  let line ← line
  let t ← peek
  return t.line == line && t.token == .keyword "function"

def functionHead : Read (Bool × Bool) := do
  let isAsync ← acceptName "async"
  expectKeyword "function"
  if isAsync then return (true, false)
  return (false, ← acceptPunct "*")

def functionExpression (g : Grammar) (c : Context) : Read Tree := do
  let (isAsync, generator) ← functionHead
  let id ← if ← isPunct "(" then pure .null
    else withYieldIsName (!generator) (bindingName false)
  functionTail g "FunctionExpression" c isAsync generator id

def functionDeclaration (g : Grammar) (c : Context) (nameOptional : Bool) : Read Tree := do
  let (isAsync, generator) ← functionHead
  let id ← if nameOptional && (← isPunct "(") then pure .null else bindingName false
  functionTail g "FunctionDeclaration" c isAsync generator id

inductive MethodSort where
  | plain
  | getter
  | asynchronous
  | generator
deriving DecidableEq

def methodBody (g : Grammar) (c : Context) : Read Tree := do
  setMayBind false
  keepStrict (isolated (functionBody g c))

def method (g : Grammar) (c : Context) (sort : MethodSort) : Read Tree := do
  if sort == .getter then setYieldIsName false
  match sort with
  | .plain | .getter =>
    withYieldIsName true do
      let ps ← parameters g c
      return Form.function "FunctionExpression" false .null ps (← methodBody g c) false
  | .asynchronous =>
    withYieldIsName false do
      let c := { c with awaitIsOperator := true }
      let ps ← parameters g c
      return Form.function "FunctionExpression" true .null ps (← methodBody g c) false
  | .generator =>
    withYieldIsName true do
      let ps ← parameters g c
      setYieldIsName false
      return Form.function "FunctionExpression" false .null ps (← methodBody g c) true

/-! ### Classes -/

def isPropertyKey (key : Tree) (name : String) : Bool :=
  (key.isKind "Identifier" && key.name == name) ||
    (key.isKind "Literal" && (key.get "value").text? == some name)

def classElement (g : Grammar) (c : Context) : Read (Tree × Bool) := do
  let finish (key : Tree) (computed : Bool) (value : Tree) (kind : String) (isStatic : Bool) :
      Read (Tree × Bool) := do
    if computed then return (Form.methodDefinition key computed value kind isStatic, false)
    guard (!(isStatic && isPropertyKey key "prototype"))
    if !isStatic && isPropertyKey key "constructor" then
      guard (kind == "method" && !value.flag "generator")
      return (Form.methodDefinition key computed value "constructor" isStatic, true)
    return (Form.methodDefinition key computed value kind isStatic, false)
  if ← acceptPunct "*" then
    let computed ← isPunct "["
    let key ← propertyKey g c
    return ← finish key computed (← method g c .generator) "method" false
  let mut first ← token
  let mut computed ← isPunct "["
  let mut key ← propertyKey g c
  let mut isStatic := false
  if key.isKind "Identifier" && key.name == "static" &&
      (isKeyStart (← token) || (← isPunct "*")) then
    first ← token
    isStatic := true
    computed ← isPunct "["
    if !(← acceptPunct "*") then
      key ← propertyKey g c
  let mut isAsync := false
  if first == .name "async" && !(← afterLineEnd) &&
      !([":", "(", "*"].contains (← token).spelling) then
    isAsync := true
    first ← token
    key ← propertyKey g c
  if isKeyStart (← token) && (first == .name "get" || first == .name "set" ||
      first == .punct "*") then
    computed ← isPunct "["
    key ← propertyKey g c
    match first with
    | .punct _ => finish key computed (← method g c .generator) "method" isStatic
    | .name "get" => finish key computed (← method g c .getter) "get" isStatic
    | _ => finish key computed (← method g c .plain) "set" isStatic
  else
    guard (← isPunct "(")
    finish key computed (← method g c (if isAsync then .asynchronous else .plain)) "method" isStatic

def classBody (g : Grammar) (c : Context) : Read Tree := do
  expectPunct "\x7b"
  let elements ← repeatStep (fun (acc, constructed) => do
    if ← acceptPunct "\x7d" then return .inr acc.reverse
    if ← acceptPunct ";" then return .inl (acc, constructed)
    let (t, isConstructor) ← classElement g c
    guard (!(constructed && isConstructor))
    return .inl (t :: acc, constructed || isConstructor)) g.fuel ([], false)
  return Form.classBody elements

def classTail (g : Grammar) (c : Context) (kind : String) (nameOptional : Bool) : Read Tree :=
  keepStrict do
    setStrict true
    expectKeyword "class"
    let id ← if nameOptional && !(← isAnyName) then pure .null else bindingName false
    let superClass ← if ← acceptKeyword "extends" then isolated (g.call c) else pure .null
    return Form.class_ kind id superClass (← classBody g c)

end Legible.Script
