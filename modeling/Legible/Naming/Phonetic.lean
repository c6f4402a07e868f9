import Legible.Naming.Twister
import Legible.Scope.Rename

namespace Legible.Naming

def onsets : List String :=
  ["b", "d", "f", "g", "h", "k", "l", "m", "n", "p", "r", "s", "t", "v", "z", "br", "ch", "dr",
   "gr", "kr", "pl", "sh", "st", "th", "tr"]

def vowels : List String :=
  ["a", "e", "i", "o", "u", "ai", "ao", "ea", "ei", "ia", "io", "ou"]

abbrev Chooser := Int → List Nat → List Nat

def twisterChooser : Chooser :=
  fun seed sizes => (Twister.ofSeed seed).choices sizes

/-- A source of made-up words. A word that was given out already makes all later ones longer. -/
structure Phonetic where
  seed : Int
  syllables : Int
  used : List String

namespace Phonetic

def start (seed : Int) (syllables : Int) : Phonetic :=
  ⟨seed, syllables, []⟩

def sizes (n : Nat) : List Nat :=
  (List.replicate n [onsets.length, vowels.length]).flatten

def spell : List Nat → String
  | i :: j :: rest => onsets.getD i "" ++ vowels.getD j "" ++ spell rest
  | _ => ""

def compose (choose : Chooser) (p : Phonetic) : String :=
  spell (choose (p.seed * 1000 + p.syllables) (sizes p.syllables.toNat))

def gave (p : Phonetic) (name : String) : Phonetic :=
  { p with seed := p.seed + 1, used := name :: p.used }

def search (choose : Chooser) : Nat → Phonetic → String × Phonetic
  | 0, p => (compose choose p, p.gave (compose choose p))
  | fuel + 1, p =>
    let name := compose choose p
    if p.used.contains name || reservedWords.contains name then
      search choose fuel { p with seed := p.seed + 1, syllables := p.syllables + 1 }
    else (name, p.gave name)

/-- Every syllable has at least two letters, so words with this many are new. -/
def enoughSyllables (p : Phonetic) : Nat :=
  ((p.used ++ reservedWords).map String.length).foldl max 0 + 1

def next (choose : Chooser) (p : Phonetic) : String × Phonetic :=
  search choose ((p.enoughSyllables : Int) - p.syllables + 1).toNat p

end Phonetic

end Legible.Naming
