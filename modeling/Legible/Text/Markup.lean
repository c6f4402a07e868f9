import Legible.Text.Case
import Legible.Text.Halves
import Legible.Text.Space

/-!
Marks of style in a line, such as `[red]` and `[/red]`. A mark starts with a lower case letter or one
of three signs, and a bracket that opens nothing of this sort is plain text. A backslash takes a
mark its meaning, and a closing mark needs an open one to close.
-/

namespace Legible.Text

def startsMark (c : Char) : Bool :=
  ('a' ≤ c && c ≤ 'z') || c == '#' || c == '/' || c == '@'

def markBefore? : List Char → Option (List Char)
  | c :: cs =>
    let mark := c :: cs.takeWhile fun d => d != '[' && d != ']'
    if startsMark c && (cs.drop (mark.length - 1)).head? == some ']' then some mark else none
  | [] => none

inductive Piece where
  | char (c : Char)
  | mark (position : Nat) (text : List Char)

def backslashes (n : Nat) : List Piece :=
  List.replicate n (.char '\\')

/-- The pieces of a line from a position on. The last `slashes` characters before it are backslashes,
and `skip` characters after it are read already. -/
def pieces : (position slashes skip : Nat) → List Char → List Piece
  | _, slashes, _, [] => backslashes slashes
  | n, slashes, skip + 1, _ :: cs => pieces (n + 1) slashes skip cs
  | n, slashes, 0, c :: cs =>
    if c = '\\' then pieces (n + 1) (slashes + 1) 0 cs
    else if c = '[' then
      match markBefore? cs with
      | none => backslashes (slashes - 1) ++ .char c :: pieces (n + 1) 0 0 cs
      | some mark =>
        backslashes (slashes / 2) ++
          if slashes % 2 = 0 then .mark n mark :: pieces (n + 1) 0 (mark.length + 1) cs
          else .char c :: pieces (n + 1) 0 0 cs
    else backslashes slashes ++ .char c :: pieces (n + 1) 0 0 cs

def markName (cs : List Char) : String :=
  lower (trim (String.ofList cs))

def openAfter (position : Nat) (mark : List Char) (opened : List String) :
    Except String (List String) :=
  match mark.takeWhile (· != '=') with
  | '/' :: cs =>
    match markName cs, opened with
    | "", [] => .error ("closing tag '[/]' at position " ++ toString position ++
        " has nothing to close")
    | "", _ :: rest => .ok rest
    | name, opened =>
      if opened.contains name then .ok (opened.erase name)
      else .error ("closing tag '[" ++ String.ofList mark ++ "]' at position " ++
        toString position ++ " doesn't match any open tag")
  | cs => .ok (markName cs :: opened)

def withoutMarks : List String → List Piece → Except String (List Char)
  | _, [] => .ok []
  | opened, .char c :: ps => (withoutMarks opened ps).map (c :: ·)
  | opened, .mark n mark :: ps => (openAfter n mark opened).bind (withoutMarks · ps)

def shown (s : String) : Except String String := do
  let s ← (encode s).mapError EncodingError.message
  return String.ofList (← withoutMarks [] (pieces 0 0 0 s.toList))

end Legible.Text
