import Legible.Number.Binary64

namespace Legible.Shortest

open Binary64

def pow10 (e : Int) : Rat :=
  if e < 0 then mkRat 1 (Nat.pow 10 (-e).toNat) else (Nat.pow 10 e.toNat : Nat)

def log10 (x : Rat) : Int :=
  let p := (log2 x * 30103).fdiv 100000
  if x < pow10 p then p - 1 else if pow10 (p + 1) ≤ x then p + 1 else p

structure Interval where
  low : Rat
  high : Rat
  closed : Bool

def Interval.contains (i : Interval) (x : Rat) : Bool :=
  if i.closed then i.low ≤ x && x ≤ i.high else i.low < x && x < i.high

def interval (x : Rat) : Interval :=
  let q := lastPlace x
  let m := (x / pow2 q).floor
  let below := if m = (Nat.pow 2 52 : Nat) ∧ -1074 < q then pow2 (q - 2) else pow2 (q - 1)
  ⟨x - below, x + pow2 (q - 1), m % 2 = 0⟩

def onGrid (x : Rat) (i : Interval) (step : Int) : Option Int :=
  let y := x / pow10 step
  let a := y.floor
  let hit (k : Int) : Bool := i.contains (k * pow10 step)
  let d := y - a
  let lowFirst := d < 1 / 2 || (d == 1 / 2 && a % 2 == 0)
  if lowFirst && hit a then some a
  else if hit (a + 1) then some (a + 1)
  else if hit a then some a else none

def search (x : Rat) (i : Interval) (top : Int) : Nat → Nat → Int × Int
  | 0, digits => ((x / pow10 (top + 1 - digits)).floor, top + 1 - digits)
  | fuel + 1, digits =>
    match onGrid x i (top + 1 - digits) with
    | some k => (k, top + 1 - digits)
    | none => search x i top fuel (digits + 1)

def dropZeros : Nat → Nat → Int → Nat × Int
  | 0, m, e => (m, e)
  | fuel + 1, m, e => if m ≠ 0 ∧ m % 10 = 0 then dropZeros fuel (m / 10) (e + 1) else (m, e)

def decimal (x : Rat) : Nat × Int :=
  let (k, e) := search x (interval x) (log10 x) 17 1
  dropZeros 20 k.toNat e

end Legible.Shortest
