import Legible.Parser
import Legible.Pattern
import Legible.Text.Quoted
import Legible.Text.Space
import Legible.Text.Word
import Legible.Tree.Same
import Legible.Tree.Shape

/-!
Patterns written as scripts. `expression1` and `statement1` with any number stand for an expression
and a statement, and take modifiers behind low lines; text `placeholder1` stands for any text.
-/

namespace Legible

inductive CompileError where
  | unreadable (source message : String)
  | unknownExpressionModifier (modifier : String)
  | unknownStatementModifier (modifier : String)
  | conflictingModifiers (name : String)
deriving DecidableEq

def CompileError.message : CompileError → String
  | .unreadable source message =>
    "Invalid pattern " ++ Text.quoted source ++ ": " ++ unreadableMessage message
  | .unknownExpressionModifier m => "Unrecognized expression placeholder modifier: " ++ m
  | .unknownStatementModifier m => "Unrecognized statement placeholder modifier: " ++ m
  | .conflictingModifiers name => "Conflicting modifiers for placeholder " ++ name

def splitNumbered (stem w : String) : Option (String × String) :=
  let cs := w.toList
  if stem.toList.isPrefixOf cs then
    let rest := cs.drop stem.length
    let ds := rest.takeWhile Text.isDecimal
    if ds.isEmpty then none
    else some (String.ofList (stem.toList ++ ds), String.ofList (rest.drop ds.length))
  else none

def isModifierSuffix (suffix : String) : Bool :=
  match suffix.toList with
  | [] => true
  | c :: cs => c == '_' && !cs.isEmpty && cs.all Text.isWordChar

def modifiersOf (suffix : String) : List String :=
  (suffix.toList.splitOn '_').filterMap fun m => if m.isEmpty then none else some (String.ofList m)

def expressionModifier (p : Placeholder) (m : String) : Except CompileError Placeholder :=
  match p.slot with
  | .expression sort orDeclaration declarator =>
    match m with
    | "optional" => .ok { p with optional := true }
    | "repeatable" => .ok { p with repeatable := true }
    | "strict" => .ok { p with slot := .expression .strict orDeclaration declarator }
    | "identifier" => .ok { p with slot := .expression .identifier orDeclaration declarator }
    | "literal" => .ok { p with slot := .expression .literal orDeclaration declarator }
    | "orDeclaration" => .ok { p with slot := .expression sort true declarator }
    | _ => .error (.unknownExpressionModifier m)
  | _ => .error (.unknownExpressionModifier m)

def statementModifier (p : Placeholder) (m : String) : Except CompileError Placeholder :=
  match p.slot with
  | .statement sort multiLine =>
    match m with
    | "optional" => .ok { p with optional := true }
    | "repeatable" => .ok { p with repeatable := true }
    | "multiLine" => .ok { p with slot := .statement sort true }
    | "strict" => .ok { p with slot := .statement .strict multiLine }
    | "declaration" => .ok { p with slot := .statement .declaration multiLine }
    | "classDeclaration" => .ok { p with slot := .statement (.only "ClassDeclaration") multiLine }
    | "functionDeclaration" =>
      .ok { p with slot := .statement (.only "FunctionDeclaration") multiLine }
    | "variableDeclaration" =>
      .ok { p with slot := .statement (.only "VariableDeclaration") multiLine }
    | _ => .error (.unknownStatementModifier m)
  | _ => .error (.unknownStatementModifier m)

def spelledPlaceholder (w : String) : Option (Placeholder × String) :=
  match splitNumbered "expression" w with
  | some (name, suffix) =>
    if isModifierSuffix suffix then
      some (⟨name, .expression .any false false, false, false⟩, suffix)
    else none
  | none =>
    match splitNumbered "statement" w with
    | some (name, suffix) =>
      if isModifierSuffix suffix then some (⟨name, .statement .any false, false, false⟩, suffix)
      else none
    | none => none

def addModifier (p : Placeholder) (m : String) : Except CompileError Placeholder :=
  match p.slot with
  | .expression .. => expressionModifier p m
  | _ => statementModifier p m

abbrev Known := List (String × String × Placeholder)

abbrev Compile := StateT Known (Except CompileError)

def placeholderOf (w : String) : Compile (Option Placeholder) := do
  match spelledPlaceholder w with
  | none => return none
  | some (bare, suffix) =>
    let modifiers := modifiersOf suffix
    match (← get).lookup bare.name with
    | some (first, p) =>
      if modifiers ≠ [] ∧ suffix ≠ first then throw (.conflictingModifiers bare.name)
      return some p
    | none =>
      let p ← modifiers.foldlM (m := Except CompileError) addModifier bare
      modify fun known => (bare.name, suffix, p) :: known
      return some p

def isTextPlaceholder (s : String) : Bool :=
  match splitNumbered "placeholder" s with
  | some (_, rest) => rest == "" || rest == "\n"
  | none => false

namespace Pattern

def ofText (key : String) (p : Pattern) : Pattern :=
  match p with
  | .scalar (.text s) =>
    if !isIgnored key && isTextPlaceholder s then .hole ⟨s, .text, false, false⟩ else p
  | p => p

def ofNode (fs : Fields) (children : List (String × Pattern)) : Compile Pattern := do
  let plain : Pattern :=
    .object (fs.map fun f => (f.1, ofText f.1 ((children.lookup f.1).getD (ofTree f.2))))
  match ((fs.lookup "type").bind Tree.text?).getD "" with
  | "Identifier" =>
    match ← placeholderOf (((fs.lookup "name").bind Tree.text?).getD "") with
    | some p => return .hole p
    | none => return plain
  | "ExpressionStatement" =>
    match children.lookup "expression" with
    | some (.hole ⟨name, .statement sort multiLine, optional, repeatable⟩) =>
      return .hole ⟨name, .statement sort multiLine, optional, repeatable⟩
    | _ => return plain
  | "VariableDeclarator" =>
    match children.lookup "id", (children.lookup "init").getD (.scalar .null) with
    | some (.hole ⟨name, .expression sort orDeclaration _, optional, repeatable⟩), .scalar .null =>
      return .hole ⟨name, .expression sort orDeclaration true, optional, repeatable⟩
    | _, _ => return plain
  | _ => return plain

mutual

def ofSyntax : Tree → Compile Pattern
  | .object tag fs => do
    if (Tree.object tag fs).isNode then
      let children ← (Fields.childKeys fs).mapM fun key => do return (key, ← ofField key fs)
      ofNode fs children
    else
      return ofTree (.object tag fs)
  | t => return ofTree t
termination_by structural t => t

def ofField (key : String) : List (String × Tree) → Compile Pattern
  | [] => return .scalar .null
  | (k, v) :: fs =>
    if k = key then
      match v with
      | .list ts => do return .list (← ofSyntaxItems ts)
      | v => ofSyntax v
    else ofField key fs
termination_by structural fs => fs

def ofSyntaxItems : List Tree → Compile (List Pattern)
  | [] => return []
  | t :: ts => do
    let p ← match t with
      | .list us => pure (ofTree (.list us))
      | t => ofSyntax t
    return p :: (← ofSyntaxItems ts)
termination_by structural ts => ts

end

def endsInSemicolon (source : String) : Bool :=
  (Text.dropSpacesRight source.toList).getLast? == some ';'

def unwrap (source : String) (p : Pattern) : Pattern :=
  let p := match p.isKind "Program", p.field? "body" with
    | true, some (.list [q]) => q
    | _, _ => p
  match p.isKind "ExpressionStatement" && !endsInSemicolon source, p.field? "expression" with
  | true, some q => q
  | _, _ => p

def ofScript (source : String) (t : Tree) : Except CompileError Pattern := do
  let (p, _) ← (ofSyntax t).run []
  return unwrap source p

def compile (parse : Parser) (source : String) :
    Except CompileError Pattern :=
  match parse source with
  | .ok t => ofScript source t
  | .error message => .error (.unreadable source message)

end Pattern

end Legible
