import Legible.Files
import Legible.Transform

namespace Legible.Command

inductive Line where
  | text (s : String)
  | row (cells : List String)
deriving DecidableEq

def tick : String := "✓"

def cross : String := "✗"

structure Row where
  name : String
  counts : Transform.Counts
  succeeded : Bool
deriving DecidableEq

def Row.failed (name : String) : Row :=
  ⟨name, {}, false⟩

def Row.results (r : Row) : List String :=
  let count (n : Option Nat) := toString (n.getD 0)
  [count r.counts.generated, count r.counts.simplified, count r.counts.deduced,
    if r.succeeded then tick else cross]

inductive Level where
  | info
  | error
deriving DecidableEq

def Level.text : Level → String
  | .info => "INFO    "
  | .error => "ERROR   "

def recordText (l : Level) (message : String) : String :=
  l.text ++ " | " ++ message ++ "\n"

structure Progress where
  files : Files
  lines : List Line
  log : Option String

structure Outcome where
  files : Files
  lines : List Line
  status : Nat

end Legible.Command
