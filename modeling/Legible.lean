import Legible.Bundle.Module
import Legible.Chain
import Legible.Command
import Legible.FilePath.Collapse
import Legible.FilePath.Output
import Legible.Files
import Legible.Main
import Legible.Naming.Deduce
import Legible.Naming.Generate
import Legible.Number.Shortest
import Legible.Pattern.Compile
import Legible.Pattern.Fill
import Legible.Proofs.Bundle.Files
import Legible.Proofs.Bundle.Listing
import Legible.Proofs.Bundle.Parameters
import Legible.Proofs.Bundle.Recovery
import Legible.Proofs.Bundle.Splitting
import Legible.Proofs.Bundle.Stability
import Legible.Proofs.Bundle.Table
import Legible.Proofs.Chain
import Legible.Proofs.Command.Failures
import Legible.Proofs.FilePath.Lexical
import Legible.Proofs.FilePath.Output
import Legible.Proofs.Naming.Declared
import Legible.Proofs.Naming.Dictionary
import Legible.Proofs.Naming.Entered
import Legible.Proofs.Naming.Enumeration
import Legible.Proofs.Naming.Generate
import Legible.Proofs.Naming.Generation
import Legible.Proofs.Naming.Idioms
import Legible.Proofs.Naming.Kept
import Legible.Proofs.Naming.Phonetic
import Legible.Proofs.Naming.Source
import Legible.Proofs.Naming.With
import Legible.Proofs.Pattern.Alike
import Legible.Proofs.Pattern.Build
import Legible.Proofs.Pattern.Compile
import Legible.Proofs.Pattern.Fill
import Legible.Proofs.Pattern.Filling
import Legible.Proofs.Pattern.Instance
import Legible.Proofs.Pattern.Match
import Legible.Proofs.Pattern.Placeholders
import Legible.Proofs.Pattern.RoundTrip
import Legible.Proofs.Scope.Analysis
import Legible.Proofs.Scope.Assembly
import Legible.Proofs.Scope.Capture
import Legible.Proofs.Scope.Enclosing
import Legible.Proofs.Scope.Exact
import Legible.Proofs.Scope.Item
import Legible.Proofs.Scope.Leaves
import Legible.Proofs.Scope.Look
import Legible.Proofs.Scope.Marks
import Legible.Proofs.Scope.Owners
import Legible.Proofs.Scope.Paths
import Legible.Proofs.Scope.Placement
import Legible.Proofs.Scope.Reading
import Legible.Proofs.Scope.Recorded
import Legible.Proofs.Scope.Renaming
import Legible.Proofs.Scope.Resolution
import Legible.Proofs.Scope.Several
import Legible.Proofs.Scope.Standing
import Legible.Proofs.Scope.Successive
import Legible.Proofs.Scope.Tables
import Legible.Proofs.Scope.UniqueName
import Legible.Proofs.Scope.Uses
import Legible.Proofs.Scope.With
import Legible.Proofs.Script.Program
import Legible.Proofs.Semantics.Behaviour
import Legible.Proofs.Semantics.Sense
import Legible.Proofs.Simplify.Distinct
import Legible.Proofs.Simplify.Exhaustion
import Legible.Proofs.Simplify.Leave
import Legible.Proofs.Simplify.Meaning
import Legible.Proofs.Simplify.Preservation
import Legible.Proofs.Simplify.Rules
import Legible.Proofs.Simplify.Sound
import Legible.Proofs.Simplify.Stability
import Legible.Proofs.Simplify.Termination
import Legible.Proofs.Tree.Alike
import Legible.Proofs.Tree.Canonical
import Legible.Proofs.Tree.Children
import Legible.Proofs.Tree.Course
import Legible.Proofs.Tree.Induction
import Legible.Proofs.Tree.Names
import Legible.Proofs.Tree.Objects
import Legible.Proofs.Tree.Same
import Legible.Proofs.Tree.Walk
import Legible.Scope.Rename
import Legible.Script
import Legible.Settings
import Legible.Simplify
import Legible.Transform
import Legible.Tree.Json
import Legible.Tree.Same
import Legible.Tree.Walk
