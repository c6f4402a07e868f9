import Legible.Pattern
import Legible.Tree.Same

namespace Legible

abbrev Captures := List (String × Tree)

namespace Captures

def bind (name : String) (t : Tree) (c : Captures) : Option Captures :=
  match c.lookup name with
  | some u => if u.same t then some c else none
  | none => some (c ++ [(name, t)])

end Captures

namespace Pattern

def run? : Pattern → Option Placeholder
  | .hole p => if p.repeatable then some p else none
  | _ => none

def minimumLength : List Pattern → Nat
  | [] => 0
  | p :: ps =>
    (match p.run? with
    | some h => if h.optional then 0 else 1
    | none => 1) + minimumLength ps

mutual

def match? : Pattern → Tree → Captures → Option Captures
  | .hole p, t, c => if p.accepts t then c.bind p.name t else none
  | .scalar s, t, c => if (Tree.scalar s).same t then some c else none
  | .list ps, .list ts, c => matchItems ps ts c
  | .list _, _, _ => none
  | .object fs, .object tag gs, c => matchFields fs (.object tag gs) c
  | .object _, _, _ => none
termination_by structural p => p

def matchItems : List Pattern → List Tree → Captures → Option Captures
  | [], ts, c => if ts.isEmpty then some c else none
  | p :: ps, ts, c =>
    match p.run? with
    | some h =>
      let run := (ts.take (ts.length - minimumLength ps)).takeWhile h.accepts
      if run.isEmpty && !h.optional then none
      else (c.bind h.name (.list run)).bind (matchItems ps (ts.drop run.length))
    | none =>
      match ts with
      | [] => none
      | t :: ts => (p.match? t c).bind (matchItems ps ts)
termination_by structural ps => ps

def matchFields : List (String × Pattern) → Tree → Captures → Option Captures
  | [], _, c => some c
  | (k, p) :: fs, t, c =>
    if isIgnored k then matchFields fs t c
    else (p.match? (t.get k) c).bind (matchFields fs t)
termination_by structural fs => fs

end

def matches? (p : Pattern) (t : Tree) : Option Captures :=
  p.match? t []

end Pattern

end Legible
