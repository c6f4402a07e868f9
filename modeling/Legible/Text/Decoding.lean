import Legible.Text.Quoted

namespace Legible.Text

structure DecodingError where
  position : Nat
  bytes : List UInt8
  reason : String
deriving DecidableEq

def DecodingError.message (e : DecodingError) : String :=
  let place := match e.bytes with
    | [b] => "byte 0x" ++ hexText 2 b.toNat ++ " in position " ++ toString e.position
    | bs => "bytes in position " ++ toString e.position ++ "-" ++
        toString (e.position + bs.length - 1)
  "'utf-8' codec can't decode " ++ place ++ ": " ++ e.reason

def furtherBytes? (b : UInt8) : Option (List (UInt8 × UInt8)) :=
  let any : UInt8 × UInt8 := (0x80, 0xbf)
  if b < 0x80 then some []
  else if b < 0xc2 then none
  else if b < 0xe0 then some [any]
  else if b = 0xe0 then some [(0xa0, 0xbf), any]
  else if b = 0xed then some [(0x80, 0x9f), any]
  else if b < 0xf0 then some [any, any]
  else if b = 0xf0 then some [(0x90, 0xbf), any, any]
  else if b < 0xf4 then some [any, any, any]
  else if b = 0xf4 then some [(0x80, 0x8f), any, any]
  else none

def withinBounds : List (UInt8 × UInt8) → List UInt8 → List UInt8
  | r :: rs, b :: bs => if r.1 ≤ b ∧ b ≤ r.2 then b :: withinBounds rs bs else []
  | _, _ => []

def firstFault : (position skip : Nat) → List UInt8 → DecodingError
  | n, _, [] => ⟨n, [], "unexpected end of data"⟩
  | n, skip + 1, _ :: bs => firstFault (n + 1) skip bs
  | n, 0, b :: bs =>
    match furtherBytes? b with
    | none => ⟨n, [b], "invalid start byte"⟩
    | some bounds =>
      let further := withinBounds bounds bs
      if further.length = bounds.length then firstFault (n + 1) bounds.length bs
      else
        ⟨n, b :: further, if further.length = bs.length then "unexpected end of data"
          else "invalid continuation byte"⟩

example : (firstFault 0 0 [0x61, 0xe2, 0x82, 0x28]).message =
    "'utf-8' codec can't decode bytes in position 1-2: invalid continuation byte" := by
  decide

end Legible.Text
