import Legible.Naming.Source
import Legible.Text.Case
import Legible.Text.Space
import Legible.Tree

namespace Legible.Settings

def boolWords : List (String × Bool) :=
  [("1", true), ("t", true), ("y", true), ("on", true), ("yes", true), ("true", true),
   ("0", false), ("f", false), ("n", false), ("no", false), ("off", false), ("false", false)]

def readBool? : Tree → Option Bool
  | .scalar (.bool b) => some b
  | .scalar (.text s) => boolWords.lookup (s.map Char.toLower)
  | .scalar (.number n) =>
    if n.amount = .finite 0 then some false
    else if n.amount = .finite 1 then some true
    else none
  | _ => none

def digitGroup? (cs : List Char) : Option (List Char) :=
  if !cs.isEmpty && cs.all Char.isDigit then some cs else none

def naturalOf? (cs : List Char) : Option Nat := do
  let groups ← (cs.splitOn '_').mapM digitGroup?
  return groups.flatten.foldl (fun n c => 10 * n + (c.toNat - '0'.toNat)) 0

def integerOf? (s : String) : Option Int := do
  let cs := (Text.trim s).toList
  let negative := cs.head? == some '-'
  let cs := if negative || cs.head? == some '+' then cs.tail else cs
  let whole := cs.takeWhile (· != '.')
  guard ((cs.drop (whole.length + 1)).all (· == '0'))
  let n ← naturalOf? whole
  return if negative then -n else n

def readInt? : Tree → Option Int
  | .scalar (.number n) => n.toInt?
  | .scalar (.bool b) => some (if b then 1 else 0)
  | .scalar (.text s) => integerOf? s
  | _ => none

def readFrom? (least : Nat) (t : Tree) : Option Nat := do
  let n ← readInt? t
  guard ((least : Int) ≤ n)
  return n.toNat

def readStyle? (t : Tree) : Option Naming.Style := do
  Naming.Style.ofText? (Text.lower (Text.trim (← t.text?)))

end Legible.Settings
