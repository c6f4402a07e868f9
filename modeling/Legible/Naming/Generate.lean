import Legible.Naming.Source

namespace Legible.Naming

structure Generation where
  root : Scope
  names : Names
  source : Source
  count : Nat

namespace Generation

def nameVariable (path : Scope.Path) (g : Generation) (i : Nat) : Generation :=
  match (g.root.at? path).bind (·.declared[i]?) with
  | none => g
  | some v =>
    if v.keepName || v.name == "arguments" then g
    else
      let (name, source) := g.source.next
      let (root, names) := g.root.rename path i (g.root.uniqueName path name) g.names
      ⟨root, names, source, g.count + 1⟩

def nameScope (g : Generation) (path : Scope.Path) : Generation :=
  match g.root.at? path with
  | none => g
  | some s =>
    if s.block.kind = "Program" then g
    else (List.range s.declared.length).foldl (nameVariable path) g

def run (g : Generation) (start : Scope.Path) : Generation :=
  match g.root.at? start with
  | none => g
  | some s => (s.paths.map (start ++ ·)).foldl nameScope g

end Generation

def startOf (t : Tree) : Scope × Scope.Path :=
  let root := Scope.ofTree t
  (root, (root.acquire? t.tag).getD [])

def generate (t : Tree) (source : Source) : Tree × Nat :=
  let t := t.numbered
  let (root, start) := startOf t
  let g := Generation.run ⟨root, ∅, source, 0⟩ start
  (g.names.apply t, g.count)

end Legible.Naming
