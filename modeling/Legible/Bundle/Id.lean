import Legible.Text.Quoted
import Legible.Tree

namespace Legible.Bundle

abbrev Id := Scalar

def compiledFlags (flags : String) : List String :=
  (if flags.toList.contains 'i' then ["re.IGNORECASE"] else []) ++
    if flags.toList.contains 'm' then ["re.MULTILINE"] else []

def compiledText (pattern flags : String) : String :=
  let pattern := String.ofList ((Text.quoted pattern).toList.take 200)
  "re.compile(" ++ ", ".intercalate
    (pattern :: if (compiledFlags flags).isEmpty then [] else ["|".intercalate (compiledFlags flags)]) ++
    ")"

/-- What tells ids apart. Numbers count by their amount, and truth values are numbers. -/
inductive Key where
  | null
  | amount (a : Amount)
  | text (s : String)
  | regex (pattern : String) (flags : List String)
deriving DecidableEq

def Key.of : Id → Key
  | .null => .null
  | .bool b => .amount (.finite (if b then 1 else 0))
  | .number n => .amount n.amount
  | .text s => .text s
  | .regex pattern flags => .regex pattern (compiledFlags flags)

def sameId (a b : Id) : Bool :=
  Key.of a == Key.of b

def spelled : Id → String
  | .null => "None"
  | .bool true => "True"
  | .bool false => "False"
  | .number n => n.text
  | .text s => s
  | .regex pattern flags => compiledText pattern flags

example : spelled (.regex "a/b" "gim") = "re.compile('a/b', re.IGNORECASE|re.MULTILINE)" := by
  decide

abbrev Table (α : Type) := List (Id × α)

namespace Table

variable {α : Type}

def get? (t : Table α) (id : Id) : Option α :=
  (t.find? fun e => sameId e.1 id).map (·.2)

def contains (t : Table α) (id : Id) : Bool :=
  t.any fun e => sameId e.1 id

/-- Adds an entry at the end. An id that is there keeps its place and its spelling. -/
def insert (t : Table α) (id : Id) (value : α) : Table α :=
  match t with
  | [] => [(id, value)]
  | e :: es => if sameId e.1 id then (e.1, value) :: es else e :: insert es id value

end Table

def containsId (ids : List Id) (id : Id) : Bool :=
  ids.any (sameId · id)

end Legible.Bundle
