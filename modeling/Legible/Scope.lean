import Legible.Scope.Item

/-!
Scopes: what each declares, which occurrences refer to its variables, and which references pass
through it. A dynamic scope resolves nothing.
-/

namespace Legible

structure Variable where
  name : String
  kind : VariableKind
  identifiers : List Nat
  references : List Nat
  keepName : Bool
deriving Inhabited

structure Reference where
  occurrence : Occurrence
  resolved : Option Nat

structure Scope where
  kind : ScopeKind
  block : Block
  dynamic : Bool
  registered : Bool
  declared : List Variable
  table : List (String × Nat)
  references : List Reference
  through : List Occurrence
  children : List Scope
deriving Inhabited

structure Declaration where
  name : String
  kind : VariableKind
  identifier : Option Nat

namespace Item

mutual

/-- Declarations that leave an item for an enclosing scope. -/
def hoisted : Item → List Declaration
  | .declare kind true name id => [⟨name, kind, id⟩]
  | .declare .. => []
  | .refer _ => []
  | .scope kind _ _ items => if kind.receives then [] else hoistedItems items
termination_by structural i => i

def hoistedItems : List Item → List Declaration
  | [] => []
  | i :: is => hoisted i ++ hoistedItems is
termination_by structural is => is

end

def declared (receives : Bool) : Item → List Declaration
  | .declare kind h name id => if h && !receives then [] else [⟨name, kind, id⟩]
  | i => if receives then hoisted i else []

end Item

namespace Scope

inductive Part where
  | refer (r : Reference)
  | child (s : Scope)

def addDeclaration (vs : List Variable) (d : Declaration) : List Variable :=
  if vs.any (·.name == d.name) then
    vs.map fun v => if v.name == d.name then { v with identifiers := v.identifiers ++ d.identifier.toList }
      else v
  else vs ++ [⟨d.name, d.kind, d.identifier.toList, [], false⟩]

def tableOf (vs : List Variable) : List (String × Nat) :=
  vs.zipIdx.map fun p => (p.1.name, p.2)

def pending (parts : List Part) : List Occurrence :=
  parts.flatMap fun
    | .refer r => [r.occurrence]
    | .child s => s.through

def assemble (kind : ScopeKind) (block : Block) (dynamic registered : Bool)
    (ds : List Declaration) (parts : List Part) : Scope :=
  let vs := ds.foldl addDeclaration []
  let takes (o : Occurrence) : Bool := !dynamic && vs.any (·.name == o.name)
  let incoming := pending parts
  { kind, block, dynamic, registered
    declared := vs.map fun v =>
      { v with references := (incoming.filter fun o => takes o && o.name == v.name).map (·.tag) }
    table := tableOf vs
    references := parts.filterMap fun
      | .refer r => some r
      | .child _ => none
    through := incoming.filter fun o => !takes o
    children := parts.filterMap fun
      | .refer _ => none
      | .child s => some s }

structure Frame where
  names : List String
  dynamic : Bool

def resolve (env : List Frame) (name : String) : Option Nat :=
  env.findIdx? fun f => !f.dynamic && f.names.contains name

mutual

def partsOf (env : List Frame) : Item → List Part
  | .declare .. => []
  | .refer o => [.refer ⟨o, resolve env o.name⟩]
  | .scope kind block dynamic items =>
    let ds := items.flatMap (Item.declared kind.receives)
    [.child (assemble kind block dynamic true ds
      (partsOfItems (⟨ds.map (·.name), dynamic⟩ :: env) items))]
termination_by structural i => i

def partsOfItems (env : List Frame) : List Item → List Part
  | [] => []
  | i :: is => partsOf env i ++ partsOfItems env is
termination_by structural is => is

end

/-- The scopes of a tree whose objects are numbered. A script or module is its own outermost scope;
around anything else stands a global scope that is not dynamic. -/
def ofTree (t : Tree) : Scope :=
  let items := Item.ofTree .visit t
  let around : Scope :=
    let ds := items.flatMap (Item.declared true)
    assemble .global ⟨t.tag, t.kind⟩ false false ds (partsOfItems [⟨ds.map (·.name), false⟩] items)
  if t.isKind "Program" then
    match partsOfItems [] items with
    | [.child s] => s
    | _ => around
  else around

/-! ### Paths

A scope inside another is given by the positions of children on the way to it. -/

abbrev Path := List Nat

def at? (s : Scope) : Path → Option Scope
  | [] => some s
  | i :: p => (s.children[i]?).bind (·.at? p)

def modifyAt (f : Scope → Scope) (s : Scope) : Path → Scope
  | [] => f s
  | i :: p => { s with children := s.children.modify i fun c => c.modifyAt f p }

def along (s : Scope) : Path → List Scope
  | [] => [s]
  | i :: p =>
    match s.children[i]? with
    | some c => s :: c.along p
    | none => [s]

mutual

def paths : Scope → List Path
  | ⟨_, _, _, _, _, _, _, _, children⟩ => [] :: pathsOfChildren 0 children
termination_by structural s => s

def pathsOfChildren (i : Nat) : List Scope → List Path
  | [] => []
  | c :: cs => (paths c).map (i :: ·) ++ pathsOfChildren (i + 1) cs
termination_by structural cs => cs

end

def registeredPaths (s : Scope) : List Path :=
  s.paths.filter fun p => ((s.at? p).map (·.registered)).getD false

def owners (s : Scope) : List (Nat × Path) :=
  s.registeredPaths.filterMap fun p =>
    match s.at? p with
    | some c => if c.kind = .functionName then none else some (c.block.tag, p)
    | none => none

def acquire? (s : Scope) (tag : Nat) : Option Path :=
  s.owners.lookup tag

end Scope

end Legible
