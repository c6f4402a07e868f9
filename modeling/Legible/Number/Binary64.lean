namespace Legible

inductive Amount where
  | finite (value : Rat)
  | infinite (negative : Bool)
deriving DecidableEq, Inhabited

namespace Binary64

def pow2 (e : Int) : Rat :=
  if e < 0 then mkRat 1 (Nat.pow 2 (-e).toNat) else (Nat.pow 2 e.toNat : Nat)

def log2 (x : Rat) : Int :=
  let e : Int := (x.num.toNat.log2 : Int) - x.den.log2
  if pow2 e ≤ x then e else e - 1

def lastPlace (x : Rat) : Int :=
  max (log2 x - 52) (-1074)

def roundHalfEven (x : Rat) : Int :=
  let k := x.floor
  let r := x - k
  if r < 1 / 2 then k else if 1 / 2 < r then k + 1 else if k % 2 = 0 then k else k + 1

def nearestNonneg (x : Rat) : Amount :=
  if x ≤ 0 then .finite 0 else
    let q := lastPlace x
    let y := roundHalfEven (x / pow2 q) * pow2 q
    if pow2 1024 ≤ y then .infinite false else .finite y

def nearest (x : Rat) : Amount :=
  if x < 0 then
    match nearestNonneg (-x) with
    | .finite y => .finite (-y)
    | .infinite _ => .infinite true
  else nearestNonneg x

def bits : Amount → Nat
  | .infinite negative => (if negative then Nat.pow 2 63 else 0) + 2047 * Nat.pow 2 52
  | .finite x =>
    let sign := if x < 0 then Nat.pow 2 63 else 0
    let x := if x < 0 then -x else x
    if x = 0 then sign else
      let q := lastPlace x
      let m := (x / pow2 q).floor.toNat
      if m < Nat.pow 2 52 then sign + m else sign + (q + 1075).toNat * Nat.pow 2 52 + (m - Nat.pow 2 52)

end Binary64

def Amount.ofDecimal (mantissa : Nat) (exponent : Int) : Amount :=
  let digits : Int := (Nat.toDigits 10 mantissa).length
  if mantissa = 0 ∨ exponent + digits < -330 then .finite 0
  else if 310 < exponent + digits then .infinite false
  else if exponent < 0 then Binary64.nearest (mkRat mantissa (Nat.pow 10 (-exponent).toNat))
  else Binary64.nearest (mantissa * Nat.pow 10 exponent.toNat : Nat)

end Legible
