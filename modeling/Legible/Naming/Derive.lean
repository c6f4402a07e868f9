import Legible.Text.Case
import Legible.Text.Word

namespace Legible.Naming

def lastPart? : List Char → Option (List Char)
  | [] => none
  | c :: cs =>
    let run := (c :: cs).takeWhile (· != '/')
    let behind := ((c :: cs).dropWhile (· != '/')).dropWhile (· == '/')
    if !run.isEmpty && (behind.isEmpty || behind == ['\n']) then some run else lastPart? cs

def joinWords (raise : Bool) : List Char → List Char
  | [] => []
  | c :: cs =>
    if Text.isWordChar c then (if raise then Text.upper c else [c]) ++ joinWords false cs
    else joinWords true cs

def nameOfPath (path : String) : Option String := do
  let name := joinWords false (← lastPart? path.toList)
  guard (!name.isEmpty && name.all Text.isWordChar)
  return String.ofList name

def nameOfClass (name : String) : Option String :=
  match name.toList with
  | c :: cs =>
    if !c.isUpper then none
    else
      match cs with
      | d :: _ =>
        if d.isLower then some (String.ofList (c.toLower :: cs))
        else if d.isUpper && ((cs.dropWhile Char.isUpper).head?.any Char.isLower) then
          some (Text.lower name)
        else none
      | [] => none
  | [] => none

end Legible.Naming
