import Legible.Tree.Shape

/-!
What a tree says about names, in the order in which it is walked: declarations, references, and
scopes with items of their own.
-/

namespace Legible

inductive VariableKind where
  | variable
  | parameter
  | function
  | classLike
  | caught
  | implicit
  | imported
deriving DecidableEq, Inhabited

inductive ScopeKind where
  | global
  | module
  | function
  | functionName
  | block
  | loop
  | caught
  | classBody
  | switch
  | withBody
deriving DecidableEq, Inhabited

def ScopeKind.receives : ScopeKind → Bool
  | .global | .module | .function => true
  | _ => false

structure Occurrence where
  tag : Nat
  name : String
deriving DecidableEq, Inhabited

structure Block where
  tag : Nat
  kind : String
deriving DecidableEq, Inhabited

inductive Item where
  | declare (kind : VariableKind) (hoisted : Bool) (name : String) (identifier : Option Nat)
  | refer (o : Occurrence)
  | scope (kind : ScopeKind) (block : Block) (dynamic : Bool) (items : List Item)

inductive Binding where
  | declare (kind : VariableKind) (hoisted : Bool)
  | refer

inductive View where
  | visit
  | target (b : Binding)
  | property (b : Binding)
  | declarator (hoisted : Bool)
  | functionBody
  | importSpecifier
  | exportSpecifier

def View.takesUntyped : View → Bool
  | .property _ | .declarator _ | .importSpecifier | .exportSpecifier => true
  | .visit | .target _ | .functionBody => false

inductive Arity where
  | one
  | many
  | either
deriving DecidableEq

inductive Step where
  | look (arity : Arity) (view : View) (key : String)
  | bind (b : Binding) (key : String)
  | self (b : Binding)
  | arguments
  | scope (kind : ScopeKind) (dynamic : Bool) (steps : List Step)

namespace Fields

def get (key : String) (fs : Fields) : Tree :=
  (fs.lookup key).getD .null

def kind (fs : Fields) : String :=
  ((fs.lookup "type").bind Tree.text?).getD ""

def flag (key : String) (fs : Fields) : Bool :=
  match fs.get key with
  | .scalar (.bool b) => b
  | _ => false

end Fields

namespace Step

def declareIf (kind : VariableKind) (fs : Fields) : List Step :=
  if (fs.get "id").isNull then [] else [.bind (.declare kind false) "id"]

def functionScope (fs : Fields) : Step :=
  .scope .function false
    ((if fs.kind = "ArrowFunctionExpression" then [] else [.arguments]) ++
      [.look .many (.target (.declare .parameter false)) "params", .look .one .functionBody "body"])

def classScope (fs : Fields) : List Step :=
  [.look .one .visit "superClass",
    .scope .classBody false
      ((if fs.kind = "ClassExpression" then declareIf .classLike fs else []) ++
        [.look .one .visit "body"])]

def loopScope (head : Tree) (steps : List Step) : List Step :=
  if head.isKind "VariableDeclaration" && (head.get "kind").text? != some "var" then
    [.scope .loop false steps]
  else steps

def ofNode (fs : Fields) : List Step :=
  match fs.kind with
  | "Program" =>
    if (fs.get "sourceType").text? = some "module" then
      [.scope .module false [.look .many .visit "body"]]
    else [.scope .global true [.look .many .visit "body"]]
  | "FunctionDeclaration" => declareIf .function fs ++ [functionScope fs]
  | "FunctionExpression" =>
    if (fs.get "id").isNull then [functionScope fs]
    else [.scope .functionName false (declareIf .function fs ++ [functionScope fs])]
  | "ArrowFunctionExpression" | "function" => [functionScope fs]
  | "ClassDeclaration" => declareIf .classLike fs ++ classScope fs
  | "ClassExpression" | "class" => classScope fs
  | "BlockStatement" => [.scope .block false [.look .many .visit "body"]]
  | "ForStatement" =>
    loopScope (fs.get "init")
      [.look .one .visit "init", .look .one .visit "test", .look .one .visit "update",
        .look .one .visit "body"]
  | "ForInStatement" | "ForOfStatement" | "for_each" =>
    loopScope (fs.get "left")
      [if (fs.get "left").isKind "VariableDeclaration" then .look .one .visit "left"
        else .look .one (.target .refer) "left",
        .look .one .visit "right", .look .one .visit "body"]
  | "CatchClause" =>
    [.scope .caught false
      [.look .one (.target (.declare .caught false)) "param", .look .one .visit "body"]]
  | "SwitchStatement" =>
    [.look .one .visit "discriminant", .scope .switch false [.look .many .visit "cases"]]
  | "WithStatement" =>
    [.look .one .visit "object", .scope .withBody true [.look .one .visit "body"]]
  | "VariableDeclaration" =>
    [.look .many (.declarator ((fs.get "kind").text? == some "var")) "declarations"]
  | "Identifier" => [.self .refer]
  | "AssignmentExpression" => [.look .one (.target .refer) "left", .look .one .visit "right"]
  | "MemberExpression" =>
    .look .one .visit "object" ::
      if fs.flag "computed" then [.look .one .visit "property"] else []
  | "Property" | "MethodDefinition" =>
    (if fs.flag "computed" then [.look .one .visit "key"] else []) ++ [.look .one .visit "value"]
  | "LabeledStatement" => [.look .one .visit "body"]
  | "BreakStatement" | "ContinueStatement" | "MetaProperty" | "ExportAllDeclaration" => []
  | "ImportDeclaration" => [.look .many .importSpecifier "specifiers"]
  | "ExportNamedDeclaration" =>
    if !(fs.get "declaration").isNull then [.look .one .visit "declaration"]
    else if (fs.get "source").isNull then [.look .many .exportSpecifier "specifiers"]
    else []
  | _ => fs.childKeys.map (.look .either .visit)

def ofTarget (b : Binding) (fs : Fields) : List Step :=
  match fs.kind with
  | "Identifier" => [.self b]
  | "ObjectPattern" => [.look .many (.property b) "properties"]
  | "ArrayPattern" => [.look .many (.target b) "elements"]
  | "RestElement" => [.look .one (.target b) "argument"]
  | "AssignmentPattern" => [.look .one (.target b) "left", .look .one .visit "right"]
  | _ => ofNode fs

def ofProperty (b : Binding) (fs : Fields) : List Step :=
  if fs.kind = "RestElement" then [.look .one (.target b) "argument"]
  else
    (if fs.flag "computed" then [.look .one .visit "key"] else []) ++
      [.look .one (.target b) "value"]

def ofView (fs : Fields) : View → List Step
  | .visit => ofNode fs
  | .target b => ofTarget b fs
  | .property b => ofProperty b fs
  | .declarator hoisted =>
    [.look .one (.target (.declare .variable hoisted)) "id", .look .one .visit "init"]
  | .functionBody =>
    if fs.kind = "BlockStatement" then [.look .many .visit "body"] else ofNode fs
  | .importSpecifier => [.bind (.declare .imported false) "local"]
  | .exportSpecifier => [.bind .refer "local"]

end Step

abbrev Look := Arity → View → String → List Item

namespace Item

def bound (b : Binding) (t : Tree) : Item :=
  match b with
  | .declare kind hoisted => .declare kind hoisted t.name (some t.tag)
  | .refer => .refer ⟨t.tag, t.name⟩

mutual

def ofStep (tag : Nat) (fs : Fields) (look : Look) : Step → List Item
  | .look arity view key => look arity view key
  | .bind b key => [bound b (fs.get key)]
  | .self b => [bound b (.object tag fs)]
  | .arguments => [.declare .implicit false "arguments" none]
  | .scope kind dynamic steps =>
    [.scope kind ⟨tag, fs.kind⟩ dynamic (ofSteps tag fs look steps)]
termination_by structural s => s

def ofSteps (tag : Nat) (fs : Fields) (look : Look) : List Step → List Item
  | [] => []
  | s :: ss => ofStep tag fs look s ++ ofSteps tag fs look ss
termination_by structural ss => ss

end

mutual

def ofTree (view : View) : Tree → List Item
  | .object tag fs =>
    if (Tree.object tag fs).isNode || view.takesUntyped then
      ofSteps tag fs (fun arity view key => ofField arity view key fs) (Step.ofView fs view)
    else []
  | _ => []
termination_by structural t => t

def ofField (arity : Arity) (view : View) (key : String) : List (String × Tree) → List Item
  | [] => []
  | (k, v) :: fs =>
    if k = key then
      match v with
      | .list ts => if arity = .one then [] else ofTrees view ts
      | v => if arity = .many then [] else ofTree view v
    else ofField arity view key fs
termination_by structural fs => fs

def ofTrees (view : View) : List Tree → List Item
  | [] => []
  | t :: ts => ofTree view t ++ ofTrees view ts
termination_by structural ts => ts

end

end Item

end Legible
