import Legible.Naming.Dictionary
import Legible.Naming.Phonetic

namespace Legible.Naming

inductive Style where
  | dictionary
  | phonetic
deriving DecidableEq, Inhabited

def Style.ofText? (s : String) : Option Style :=
  match s with
  | "dictionary" => some .dictionary
  | "phonetic" => some .phonetic
  | _ => none

def Style.text : Style → String
  | .dictionary => "dictionary"
  | .phonetic => "phonetic"

structure UnknownStyle where
  name : String

def UnknownStyle.message (e : UnknownStyle) : String :=
  "Unknown name style: " ++ e.name

inductive Source where
  | dictionary (d : Dictionary)
  | phonetic (p : Phonetic)

namespace Source

def start (style : Style) (seed : Int) : Source :=
  match style with
  | .dictionary => .dictionary (Dictionary.start seed)
  | .phonetic => .phonetic (Phonetic.start seed 2)

def startNamed (style : String) (seed : Int) : Except UnknownStyle Source :=
  match Style.ofText? style with
  | some s => .ok (start s seed)
  | none => .error ⟨style⟩

def next : Source → String × Source
  | .dictionary d => (d.next.1, .dictionary d.next.2)
  | .phonetic p =>
    let r := p.next twisterChooser
    (r.1, .phonetic r.2)

def take : Nat → Source → List String × Source
  | 0, s => ([], s)
  | n + 1, s =>
    let (name, s) := s.next
    let (names, s) := take n s
    (name :: names, s)

end Source

end Legible.Naming
