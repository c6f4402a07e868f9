import Legible.Script.Expression

namespace Legible.Script

open Read

def unaryOperators : List Token :=
  [.punct "+", .punct "-", .punct "~", .punct "!", .keyword "delete", .keyword "void",
   .keyword "typeof"]

def isUpdate (t : Token) : Bool :=
  t == .punct "++" || t == .punct "--"

def update (g : Grammar) (c : Context) : Read Tree := do
  let t ← token
  if isUpdate t then
    let _ ← advance
    let e ← shared (g.unary c)
    setMayBind false
    return Form.updateExpression t.spelling e true
  let e ← shared (chain g c true)
  let t ← token
  if isUpdate t && !(← afterLineEnd) then
    setMayBind false
    let _ ← advance
    return Form.updateExpression t.spelling e false
  return e

def unary (g : Grammar) (c : Context) : Read Tree := do
  let t ← token
  if unaryOperators.contains t then
    let _ ← advance
    let e ← shared (g.unary c)
    setMayBind false
    return Form.unaryExpression t.spelling e
  if c.awaitIsOperator && t == .name "await" then
    let _ ← advance
    return Form.awaitExpression (← g.unary c)
  update g c

def power (g : Grammar) (c : Context) : Read Tree := do
  let base ← shared (unary g c)
  if !base.isKind "UnaryExpression" && (← acceptPunct "**") then
    setMayBind false
    return Form.binaryExpression "**" base (← isolated (g.power c))
  return base

def precedence (c : Context) : Token → Nat
  | .keyword w => if w == "instanceof" || (w == "in" && c.allowIn) then 7 else 0
  | .punct s =>
    match s with
    | "||" => 1
    | "&&" => 2
    | "|" => 3
    | "^" => 4
    | "&" => 5
    | "==" | "!=" | "===" | "!==" => 6
    | "<" | ">" | "<=" | ">=" => 7
    | "<<" | ">>" | ">>>" => 8
    | "+" | "-" => 9
    | "*" | "/" | "%" => 11
    | _ => 0
  | _ => 0

structure Pending where
  left : Tree
  operator : String
  strength : Nat

def settle (strength : Nat) : List Pending → Tree → List Pending × Tree
  | [], t => ([], t)
  | p :: ps, t =>
    if strength ≤ p.strength then settle strength ps (Form.binaryExpression p.operator p.left t)
    else (p :: ps, t)

def binary (g : Grammar) (c : Context) : Read Tree := do
  let first ← shared (power g c)
  if precedence c (← token) = 0 then return first
  setMayBind false
  repeatStep (fun ((ps, t) : List Pending × Tree) => do
    let op ← token
    let strength := precedence c op
    if strength = 0 then return .inr (settle 0 ps t).2
    let _ ← advance
    let (ps, t) := settle strength ps t
    return .inl (⟨t, op.spelling, strength⟩ :: ps, ← isolated (power g c))) g.fuel ([], first)

def conditional (g : Grammar) (c : Context) : Read Tree := do
  let test ← shared (binary g c)
  if ← acceptPunct "?" then
    let consequent ← isolated (g.assignment { c with allowIn := true })
    expectPunct ":"
    let alternate ← isolated (g.assignment c)
    setMayBind false
    return Form.conditionalExpression test consequent alternate
  return test

def assignmentOperators : List String :=
  ["=", "*=", "**=", "/=", "%=", "+=", "-=", "<<=", ">>=", ">>>=", "&=", "^=", "|="]

def startsExpression : Token → Bool
  | .punct s =>
    ["[", "(", "\x7b", "+", "-", "!", "~", "++", "--", "/", "/="].contains s
  | .keyword w =>
    ["class", "delete", "function", "let", "new", "super", "this", "typeof", "void", "yield",
      "null", "true", "false"].contains w
  | _ => true

def yieldExpression (g : Grammar) (c : Context) : Read Tree := do
  expectKeyword "yield"
  if ← afterLineEnd then return Form.yieldExpression .null false
  withYieldIsName false do
    if ← acceptPunct "*" then return Form.yieldExpression (← g.assignment c) true
    if startsExpression (← token) then return Form.yieldExpression (← g.assignment c) false
    return Form.yieldExpression .null false

def arrowTail (g : Grammar) (c : Context) (params : List Tree) (isAsync : Bool) : Read Tree := do
  let params ← checkedParameters (← isStrict) isAsync params
  guard (!(← afterLineEnd))
  setNeedsPattern false
  withYieldIsName true do
    let c := { c with awaitIsOperator := isAsync }
    expectPunct "=>"
    let inBraces ← isPunct "\x7b"
    let body ← bodyAfter (boundItems params) (
      if inBraces then functionBody g { c with allowIn := true } else isolated (g.assignment c))
    return Form.arrowFunction isAsync params body (!inBraces)

def assignmentTail (g : Grammar) (c : Context) (left : Tree) : Read Tree := do
  match ← token with
  | .punct op =>
    if !assignmentOperators.contains op then return left
    if op != "=" then setMayBind false
    let _ ← advance
    let right ← isolated (g.assignment c)
    setNeedsPattern false
    return Form.assignmentExpression op (if op == "=" then asPattern left else left) right
  | _ => return left

def isAsyncParameter (first : Lexeme) : Read Bool := do
  if first.token != .name "async" || first.line != (← line) then return false
  return (← isAnyName) || (← isKeyword "yield")

def assignment (g : Grammar) (c : Context) : Read Tree := do
  let first := (← get).next
  if first.token == .keyword "yield" && !(← yieldIsName) then return ← yieldExpression g c
  let e ← conditional g c
  let e ← if ← isAsyncParameter first then
      do pure (Form.arrowParameters [asPattern (← primary g c)] true)
    else pure e
  if e.isKind "ArrowParameterPlaceHolder" || (← isPunct "=>") then
    setMayBind false
    match arrowParameters? e with
    | some (params, isAsync) => arrowTail g c params isAsync
    | none => return e
  else assignmentTail g c e

end Legible.Script
