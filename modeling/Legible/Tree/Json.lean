import Legible.Number.Shortest
import Legible.Text.Quoted
import Legible.Tree

namespace Legible.Json

open Text (hexText)

def quotedPoint (n : Nat) : String :=
  if n = 0x22 then "\\\""
  else if n = 0x5c then "\\\\"
  else if n < 32 ∨ Text.isHalf n then "\\u" ++ hexText 4 n
  else String.ofList (Text.ofCodePoint n)

def quoted (s : String) : String :=
  "\"" ++ String.join ((Text.codePoints s.toList).map quotedPoint) ++ "\""

def object (parts : List String) : String :=
  "\x7b" ++ ",".intercalate parts ++ "\x7d"

def numberText (n : Number) : String :=
  match n.toInt? with
  | some i =>
    if i.natAbs < Number.safeLimit then toString i
    else object [quoted "$int" ++ ":" ++ quoted (toString i)]
  | none => object [quoted "$float" ++ ":" ++ quoted (hexText 16 (Binary64.bits n.amount))]

def scalarText : Scalar → String
  | .null | .regex .. => "null"
  | .bool b => if b then "true" else "false"
  | .number n => numberText n
  | .text s => quoted s

mutual

def text : Tree → String
  | .scalar s => scalarText s
  | .list ts => "[" ++ ",".intercalate (textItems ts) ++ "]"
  | .object _ fs => object (textFields fs)
termination_by structural t => t

def textItems : List Tree → List String
  | [] => []
  | t :: ts => text t :: textItems ts
termination_by structural ts => ts

def textFields : List (String × Tree) → List String
  | [] => []
  | (k, v) :: fs => (quoted k ++ ":" ++ text v) :: textFields fs
termination_by structural fs => fs

end

def isEmptyField : Tree → Bool
  | .scalar .null | .scalar (.regex ..) => true
  | _ => false

mutual

def shown : Tree → Tree
  | .scalar s => .scalar s
  | .list ts => .list (shownItems ts)
  | .object tag fs => .object tag (shownFields fs)
termination_by structural t => t

def shownItems : List Tree → List Tree
  | [] => []
  | t :: ts => shown t :: shownItems ts
termination_by structural ts => ts

def shownFields : List (String × Tree) → Fields
  | [] => []
  | (k, v) :: fs => if isEmptyField v then shownFields fs else (k, shown v) :: shownFields fs
termination_by structural fs => fs

end

def printed (indent : Nat) (t : Tree) : String :=
  text (.object 0 [("indent", .number (.ofInt indent)), ("tree", shown t)])

end Legible.Json
