import Legible.Naming.Words

namespace Legible.Naming

/-- A source of names such as `_quick_bridge_`. Numbers from the seed on are spread over all
combinations of words by multiplying with a prime; when all are used up, one more adjective comes
in front. -/
structure Dictionary where
  seed : Int
  adjectiveCount : Nat
  space : Nat
deriving DecidableEq

namespace Dictionary

def spread : Int := 32059

def start (seed : Int) : Dictionary :=
  ⟨seed - 1, 1, nouns.length * adjectives.length⟩

def advance (d : Dictionary) : Dictionary :=
  if d.seed + 1 ≥ d.space then ⟨0, d.adjectiveCount + 1, d.space * adjectives.length⟩
  else { d with seed := d.seed + 1 }

def words : Nat → Nat → List String
  | 0, n => [nouns.getD n ""]
  | k + 1, n =>
    adjectives.getD (n % adjectives.length) "" :: words k (n / adjectives.length)

def name (d : Dictionary) : String :=
  let n := ((d.seed * spread).fmod d.space).toNat
  "_" ++ "_".intercalate (words d.adjectiveCount n) ++ "_"

def next (d : Dictionary) : String × Dictionary :=
  (d.advance.name, d.advance)

end Dictionary

end Legible.Naming
