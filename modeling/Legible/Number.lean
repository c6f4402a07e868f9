import Legible.Number.Shortest

namespace Legible

/-- An amount, and whether it stands for a binary64 number rather than for an integer. -/
structure Number where
  amount : Amount
  isDouble : Bool
deriving DecidableEq, Inhabited

namespace Number

def ofInt (n : Int) : Number := ⟨.finite n, false⟩

def safeLimit : Nat := Nat.pow 2 53

def ofDecimal (mantissa : Nat) (exponent : Int) : Number :=
  match Amount.ofDecimal mantissa exponent with
  | .finite x => ⟨.finite x, x.den != 1 || x.num.natAbs ≥ safeLimit⟩
  | a => ⟨a, true⟩

def same (a b : Number) : Bool :=
  a.amount == b.amount

theorem same_iff {a b : Number} : a.same b = true ↔ a.amount = b.amount := by
  simp [same]

def toInt? (n : Number) : Option Int :=
  match n.amount with
  | .finite x => if x.den = 1 then some x.num else none
  | .infinite _ => none

/-- Digits with the point after the first `point` of them. Positional from `1e-4` up to below
`1e16`, with at least one digit on either side of the point; else in scientific notation with at
least two digits of exponent. -/
def layout (digits : String) (point : Int) : String :=
  let n : Int := digits.length
  if -4 < point ∧ point ≤ 16 then
    if point ≤ 0 then "0." ++ String.ofList (List.replicate (-point).toNat '0') ++ digits
    else if n ≤ point then digits ++ String.ofList (List.replicate (point - n).toNat '0') ++ ".0"
    else String.ofList (digits.toList.take point.toNat) ++ "." ++
      String.ofList (digits.toList.drop point.toNat)
  else
    let e := point - 1
    let head := String.ofList (digits.toList.take 1)
    let tail := String.ofList (digits.toList.drop 1)
    let power := toString e.natAbs
    head ++ (if tail = "" then "" else "." ++ tail) ++ "e" ++ (if e < 0 then "-" else "+") ++
      (if power.length < 2 then "0" ++ power else power)

def text (n : Number) : String :=
  match n.amount with
  | .infinite negative => if negative then "-inf" else "inf"
  | .finite x =>
    if !n.isDouble then toString x.num
    else if x = 0 then "0.0"
    else
      let (m, e) := Shortest.decimal (if x < 0 then -x else x)
      let digits := toString m
      (if x < 0 then "-" else "") ++ layout digits (digits.length + e)

end Number

end Legible
