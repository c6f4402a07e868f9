import Legible.Text.Letters
import Legible.Text.Digits

namespace Legible.Script

def isLineEnd (c : Char) : Bool :=
  c == '\n' || c == '\r' || c.toNat == 0x2028 || c.toNat == 0x2029

def endsLine (c : Char) (cs : List Char) : Bool :=
  isLineEnd c && !(c == '\r' && cs.head? == some '\n')

def lineEnds (n : Nat) : List Char → Nat
  | [] => n
  | c :: cs => lineEnds (n + (endsLine c cs).toNat) cs

def blankRanges : Text.CharRanges :=
  [(0x9, 0x9), (0xb, 0xc), (0x20, 0x20), (0xa0, 0xa0), (0x1680, 0x1680), (0x180e, 0x180e),
   (0x2000, 0x200a), (0x202f, 0x202f), (0x205f, 0x205f), (0x3000, 0x3000), (0xfeff, 0xfeff)]

def isBlank (c : Char) : Bool :=
  blankRanges.contains c

def otherStartRanges : Text.CharRanges :=
  [(0x1885, 0x1886), (0x2118, 0x2118), (0x212e, 0x212e), (0x309b, 0x309c)]

def otherPartRanges : Text.CharRanges :=
  [(0xb7, 0xb7), (0x387, 0x387), (0x1369, 0x1371), (0x19da, 0x19da), (0x200c, 0x200d)]

def isNameStart (c : Char) : Bool :=
  if c.toNat < 128 then c.isAlpha || c == '$' || c == '_' else
    Text.letterRanges.contains c || Text.letterNumberRanges.contains c ||
      otherStartRanges.contains c

def isNamePart (c : Char) : Bool :=
  isNameStart c || Text.isDecimal c ||
    (128 ≤ c.toNat && (Text.markRanges.contains c || Text.connectorRanges.contains c ||
      otherPartRanges.contains c))

def hexValue? (c : Char) : Option Nat :=
  if '0' ≤ c ∧ c ≤ '9' then some (c.toNat - 48)
  else if 'a' ≤ c ∧ c ≤ 'f' then some (c.toNat - 87)
  else if 'A' ≤ c ∧ c ≤ 'F' then some (c.toNat - 55)
  else none

def digitsValue (base : Nat) (cs : List Char) : Nat :=
  cs.foldl (fun n c => n * base + (hexValue? c).getD 0) 0

end Legible.Script
