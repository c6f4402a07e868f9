import Legible.Tree
import Std.Data.HashMap

namespace Legible

mutual

def Tree.maxTag : Tree → Nat
  | .object tag fs => max tag (Tree.maxTagFields fs)
  | .list ts => Tree.maxTagItems ts
  | .scalar _ => 0
termination_by structural t => t

def Tree.maxTagItems : List Tree → Nat
  | [] => 0
  | t :: ts => max t.maxTag (Tree.maxTagItems ts)
termination_by structural ts => ts

def Tree.maxTagFields : List (String × Tree) → Nat
  | [] => 0
  | (_, v) :: fs => max v.maxTag (Tree.maxTagFields fs)
termination_by structural fs => fs

end

mutual

def Tree.numberFrom (next : Nat) : Tree → Tree × Nat
  | .object tag fs =>
    let fresh := tag = 0
    let r := Tree.numberFields (if fresh then next + 1 else next) fs
    (.object (if fresh then next else tag) r.1, r.2)
  | .list ts =>
    let r := Tree.numberItems next ts
    (.list r.1, r.2)
  | .scalar s => (.scalar s, next)
termination_by structural t => t

def Tree.numberItems (next : Nat) : List Tree → List Tree × Nat
  | [] => ([], next)
  | t :: ts =>
    let r := t.numberFrom next
    let rs := Tree.numberItems r.2 ts
    (r.1 :: rs.1, rs.2)
termination_by structural ts => ts

def Tree.numberFields (next : Nat) : List (String × Tree) → Fields × Nat
  | [] => ([], next)
  | (k, v) :: fs =>
    let r := v.numberFrom next
    let rs := Tree.numberFields r.2 fs
    ((k, r.1) :: rs.1, rs.2)
termination_by structural fs => fs

end

def Tree.numbered (t : Tree) : Tree :=
  (t.numberFrom (t.maxTag + 1)).1

abbrev Names := Std.HashMap Nat String

namespace Names

mutual

def apply (names : Names) : Tree → Tree
  | .object tag fs =>
    let fs := applyFields names fs
    match names[tag]? with
    | some name => .object tag (Fields.set "name" (.text name) fs)
    | none => .object tag fs
  | .list ts => .list (applyItems names ts)
  | .scalar s => .scalar s
termination_by structural t => t

def applyItems (names : Names) : List Tree → List Tree
  | [] => []
  | t :: ts => apply names t :: applyItems names ts
termination_by structural ts => ts

def applyFields (names : Names) : List (String × Tree) → Fields
  | [] => []
  | (k, v) :: fs => (k, apply names v) :: applyFields names fs
termination_by structural fs => fs

end

end Names

mutual

def Tree.find? (tag : Nat) : Tree → Option Tree
  | .object n fs => if n = tag then some (.object n fs) else Tree.findField? tag fs
  | .list ts => Tree.findItem? tag ts
  | .scalar _ => none
termination_by structural t => t

def Tree.findItem? (tag : Nat) : List Tree → Option Tree
  | [] => none
  | t :: ts => (t.find? tag).or (Tree.findItem? tag ts)
termination_by structural ts => ts

def Tree.findField? (tag : Nat) : List (String × Tree) → Option Tree
  | [] => none
  | (_, v) :: fs => (v.find? tag).or (Tree.findField? tag fs)
termination_by structural fs => fs

end

end Legible
