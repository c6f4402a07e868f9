import Legible.Text.Halves

namespace Legible.Text

def hexText (width n : Nat) : String :=
  let ds := Nat.toDigits 16 n
  String.ofList (List.replicate (width - ds.length) '0' ++ ds)

def quotedPoint (quote : Char) (n : Nat) : String :=
  if n = quote.toNat then String.ofList ['\\', quote]
  else if n = 0x5c then "\\\\"
  else if n = 0xa then "\\n"
  else if n = 0xd then "\\r"
  else if n = 0x9 then "\\t"
  else if n < 0x20 ∨ (0x7f ≤ n ∧ n ≤ 0xa0) ∨ n = 0xad then "\\x" ++ hexText 2 n
  else if isHalf n then "\\u" ++ hexText 4 n
  else String.ofList (ofCodePoint n)

def quoted (s : String) : String :=
  let quote := if s.toList.contains '\x27' && !s.toList.contains '"' then '"' else '\x27'
  let inside := (codePoints s.toList).map (quotedPoint quote)
  quote.toString ++ String.join inside ++ quote.toString

example : quoted "can't\n" = "\"can't\\n\"" := by decide

end Legible.Text
