import Legible.Tree

/-!
Structural equality of trees. Tags and fields named `raw` play no part, and a missing field is the
same as a null one.
-/

namespace Legible

def isIgnored (key : String) : Bool :=
  key == "raw"

def Fields.coveredBy (gs fs : Fields) : Bool :=
  gs.all fun g => isIgnored g.1 || (fs.lookup g.1).isSome || g.2.isNull

mutual

def Tree.same : Tree → Tree → Bool
  | .scalar a, .scalar b => a.same b
  | .list xs, .list ys => Tree.sameItems xs ys
  | .object _ fs, .object _ gs => Tree.sameFields fs gs && Fields.coveredBy gs fs
  | _, _ => false
termination_by structural t => t

def Tree.sameItems : List Tree → List Tree → Bool
  | [], [] => true
  | x :: xs, y :: ys => x.same y && Tree.sameItems xs ys
  | _, _ => false
termination_by structural ts => ts

def Tree.sameFields : List (String × Tree) → Fields → Bool
  | [], _ => true
  | (k, v) :: fs, gs =>
    (isIgnored k || v.same ((gs.lookup k).getD .null)) && Tree.sameFields fs gs
termination_by structural fs => fs

end

end Legible
