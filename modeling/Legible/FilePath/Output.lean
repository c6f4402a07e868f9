import Legible.FilePath

namespace Legible.FilePath

def properParts (cs : List Char) : List Part :=
  (parts cs).filter fun p => !p.isEmpty && p != here

/-- How many slashes an absolute path keeps in front. Exactly two stay two, more become one. -/
def leadingSlashes (cs : List Char) : Nat :=
  match (cs.takeWhile (· == '/')).length with
  | 0 => 0
  | 2 => 2
  | _ => 1

def step (absolute : Bool) (seen : List Part) (p : Part) : List Part :=
  if p.isEmpty || p = here then seen
  else if p = above then
    match seen with
    | [] => if absolute then [] else [above]
    | q :: rest => if q = above then above :: q :: rest else rest
  else p :: seen

def normalParts (absolute : Bool) (ps : List Part) : List Part :=
  (ps.foldl (step absolute) []).reverse

def normal (cs : List Char) : List Char :=
  let slashes := leadingSlashes cs
  match List.replicate slashes '/' ++ joined (normalParts (slashes != 0) (parts cs)) with
  | [] => here
  | cs => cs

def tidy (path : String) : String :=
  let cs := path.toList
  match List.replicate (leadingSlashes cs) '/' ++ joined (properParts cs) with
  | [] => String.ofList here
  | cs => String.ofList cs

def inDirectory (dir file : List Char) : List Char :=
  if dir.isEmpty || dir.getLast? == some '/' then dir ++ file else dir ++ '/' :: file

def commonPrefix : List Part → List Part → List Part
  | p :: ps, q :: qs => if p = q then p :: commonPrefix ps qs else []
  | _, _ => []

def common (xs ys : List Char) : List Char :=
  '/' :: joined (commonPrefix (properParts xs) (properParts ys))

structure EscapeError where
  path : String
deriving DecidableEq

def EscapeError.message (e : EscapeError) : String :=
  "Unexpected module output path outside of target directory: " ++ e.path

def withEnding (cs : List Char) : List Char :=
  if (lastPart cs).contains '.' then cs else cs ++ ['.', 'j', 's']

def output (target name : String) : Except EscapeError String :=
  let root := normal target.toList
  let path := withEnding (normal (inDirectory root (dropSlashes name.toList)))
  if common root path != root || path == root then .error ⟨String.ofList path⟩
  else .ok (String.ofList path)

end Legible.FilePath
