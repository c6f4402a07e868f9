import Legible.Chain
import Legible.Naming.Deduce
import Legible.Naming.Generate
import Legible.Simplify

namespace Legible.Transform

structure Analysis where
  scopes : Scope
  path : Scope.Path
  names : Names

structure Counts where
  generated : Option Nat := none
  simplified : Option Nat := none
  deduced : Option Nat := none
deriving DecidableEq

/-- A tree on its way through a chain. If its scopes are known already, its names are those of the
analysis. -/
structure Context where
  tree : Tree
  analysis : Option Analysis
  renameVariables : Bool
  simplifyCode : Bool
  counts : Counts

abbrev Error := Naming.UnknownStyle

def generateNames (c : Context) (source : Naming.Source) : Context :=
  match c.analysis with
  | none =>
    let (tree, n) := Naming.generate c.tree source
    { c with tree, counts := { c.counts with generated := some n } }
  | some a =>
    let g := Naming.Generation.run ⟨a.scopes, a.names, source, 0⟩ a.path
    { c with
      tree := g.names.apply c.tree
      analysis := some { a with scopes := g.root, names := g.names }
      counts := { c.counts with generated := some g.count } }

def generatePlugin (style : String) (seed : Int) : Plugin Context Error where
  name := "generate_names"
  priority := 10
  isEnabled c := c.renameVariables
  process c := (Naming.Source.startNamed style seed).map (generateNames c)

def simplifyPlugin : Plugin Context Error where
  name := "rewrite_code"
  priority := 20
  isEnabled c := c.simplifyCode
  process c :=
    let (tree, n) := Simplify.simplify c.tree
    .ok { c with tree, analysis := none, counts := { c.counts with simplified := some n } }

def deducePlugin : Plugin Context Error where
  name := "deduce_names"
  priority := 30
  isEnabled c := c.renameVariables
  process c :=
    let (tree, n) := Naming.deduce c.tree
    .ok { c with tree, counts := { c.counts with deduced := some n } }

def addStandard (style : String) (seed : Int) (c : Chain Context Error) : Chain Context Error :=
  ((c.add (generatePlugin style seed)).add simplifyPlugin).add deducePlugin

def standardChain (style : Naming.Style) (seed : Int) : Chain Context Error :=
  addStandard style.text seed []

end Legible.Transform
