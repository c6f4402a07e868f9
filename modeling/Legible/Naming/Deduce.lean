import Legible.Naming.Idioms
import Legible.Scope.Rename
import Legible.Tree.Walk

namespace Legible.Naming

structure Deduction where
  root : Scope
  names : Names
  entered : List Scope.Path
  count : Nat

def deduceName? (t : Tree) : Option (String × String) :=
  idioms.findSome? fun i => do
    let c ← i.pattern.matches? t
    return (capturedText "placeholder1" c, ← i.hint.name? c)

namespace Deduction

def nameAt (path : Scope.Path) (d : Deduction) (t : Tree) : Deduction :=
  match deduceName? (if d.names.isEmpty then t else d.names.apply t) with
  | none => d
  | some (old, new) =>
    match d.root.lookup? path old with
    | none => d
    | some (p, i) =>
      if new = old then d
      else
        let (root, names) := d.root.rename p i (d.root.uniqueName path new) d.names
        { d with root, names, count := d.count + 1 }

def enter (owned : Option Scope.Path) (d : Deduction) (t : Tree) : Deduction :=
  let d := { d with entered := owned.toList ++ d.entered }
  match d.entered with
  | [] => d
  | path :: _ => d.nameAt path t

def leave (owned : Option Scope.Path) (d : Deduction) : Deduction :=
  if owned.isSome then { d with entered := d.entered.tail } else d

def visit (owners : Std.HashMap Nat Scope.Path) (d : Deduction) (v : Visit) : Deduction :=
  let owned := owners[v.node.tag]?
  match v.phase with
  | .enter => d.enter owned v.node
  | .leave => d.leave owned

end Deduction

structure Deduced where
  names : Names
  count : Nat

def deduceNumbered (t : Tree) : Deduced :=
  let root := Scope.ofTree t
  let owners := root.owners.foldr (fun o m => m.insert o.1 o.2) ∅
  let d := t.traverse.foldl (Deduction.visit owners) ⟨root, ∅, [], 0⟩
  ⟨d.names, d.count⟩

def deduce (t : Tree) : Tree × Nat :=
  let d := deduceNumbered t.numbered
  (d.names.apply t.numbered, d.count)

end Legible.Naming
