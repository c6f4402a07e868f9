import Legible.Pattern.Match

namespace Legible

inductive FillError where
  | noCapture (name : String)
  | listInField (name field : String)
deriving DecidableEq

def FillError.message : FillError → String
  | .noCapture name => "No capture for placeholder " ++ name
  | .listInField name field =>
    "Placeholder " ++ name ++ " holds a list and cannot fill " ++ field

namespace Pattern

def fillHole (p : Placeholder) (c : Captures) : Except FillError Tree :=
  match c.lookup p.name with
  | some t => .ok t
  | none => .error (.noCapture p.name)

def spliced (p : Pattern) (t : Tree) : List Tree :=
  match p, t with
  | .hole _, .list ts => ts
  | _, t => [t]

mutual

def fill (c : Captures) : Pattern → Except FillError Tree
  | .hole p => fillHole p c
  | .scalar s => .ok (.scalar s)
  | .list ps => (fillItems c ps).map .list
  | .object fs => (fillFields c fs).map (.object 0)
termination_by structural p => p

def fillItems (c : Captures) : List Pattern → Except FillError (List Tree)
  | [] => .ok []
  | p :: ps => do
    let t ← p.fill c
    return p.spliced t ++ (← fillItems c ps)
termination_by structural ps => ps

def fillFields (c : Captures) : List (String × Pattern) → Except FillError Fields
  | [] => .ok []
  | (k, p) :: fs => do
    let t ← p.fill c
    match p, t with
    | .hole h, .list _ => .error (.listInField h.name k)
    | _, t => return (k, t) :: (← fillFields c fs)
termination_by structural fs => fs

end

end Pattern

end Legible
