import Legible.Form

namespace Legible

inductive ExpressionSort where
  | any
  | strict
  | identifier
  | literal
deriving DecidableEq, Inhabited

inductive StatementSort where
  | any
  | strict
  | declaration
  | only (kind : String)
deriving DecidableEq, Inhabited

inductive Slot where
  | expression (sort : ExpressionSort) (orDeclaration declarator : Bool)
  | statement (sort : StatementSort) (multiLine : Bool)
  | text
deriving DecidableEq, Inhabited

structure Placeholder where
  name : String
  slot : Slot
  optional : Bool
  repeatable : Bool
deriving DecidableEq, Inhabited

inductive Pattern where
  | hole (p : Placeholder)
  | scalar (value : Scalar)
  | list (items : List Pattern)
  | object (fields : List (String × Pattern))

instance : Form Pattern where
  scalar := .scalar
  list := .list
  object := .object

instance : Inhabited Pattern := ⟨.scalar .null⟩

def singleLineKinds : List String :=
  ["EmptyStatement", "BlockStatement", "ExpressionStatement", "ReturnStatement", "ThrowStatement"]

def declarationKinds : List String :=
  ["VariableDeclaration", "FunctionDeclaration", "ClassDeclaration"]

def expressionLikeKinds : List String :=
  ["Identifier", "Literal", "TemplateLiteral", "MetaProperty", "Super"]

def hasEnding (ending s : String) : Bool :=
  ending.toList.isSuffixOf s.toList

namespace Slot

def takes (kind : String) : Slot → Bool
  | .expression _ _ true => kind == "VariableDeclarator"
  | .expression sort orDeclaration false =>
    (orDeclaration && kind == "VariableDeclaration") ||
      match sort with
      | .identifier => kind == "Identifier"
      | .literal => kind == "Literal"
      | .strict => hasEnding "Expression" kind
      | .any => hasEnding "Expression" kind || expressionLikeKinds.contains kind
  | .statement sort multiLine =>
    !(multiLine && singleLineKinds.contains kind) &&
      match sort with
      | .strict => hasEnding "Statement" kind
      | .declaration => declarationKinds.contains kind
      | .only k => kind == k
      | .any => hasEnding "Statement" kind || hasEnding "Declaration" kind
  | .text => false

end Slot

namespace Placeholder

def accepts (p : Placeholder) (t : Tree) : Bool :=
  match p.slot with
  | .text => t.text?.isSome
  | slot => if t.isNull then p.optional else t.isNode && slot.takes t.kind

end Placeholder

namespace Pattern

def field? (key : String) : Pattern → Option Pattern
  | .object fs => fs.lookup key
  | _ => none

def kind? (p : Pattern) : Option String :=
  match p.field? "type" with
  | some (.scalar (.text s)) => some s
  | _ => none

def isKind (p : Pattern) (kind : String) : Bool :=
  p.kind? == some kind

mutual

def ofTree : Tree → Pattern
  | .scalar s => .scalar s
  | .list ts => .list (ofItems ts)
  | .object _ fs => .object (ofFields fs)
termination_by structural t => t

def ofItems : List Tree → List Pattern
  | [] => []
  | t :: ts => ofTree t :: ofItems ts
termination_by structural ts => ts

def ofFields : List (String × Tree) → List (String × Pattern)
  | [] => []
  | (k, v) :: fs => (k, ofTree v) :: ofFields fs
termination_by structural fs => fs

end

end Pattern

end Legible
