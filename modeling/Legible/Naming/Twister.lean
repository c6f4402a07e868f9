/-!
The Mersenne Twister: 32-bit outputs of a generator of period `2 ^ 19937 - 1`, and fair choices made
of them.
-/

namespace Legible.Naming

structure Twister where
  state : Array UInt32
  index : Nat

namespace Twister

def size : Nat := 624

def ofWord (seed : UInt32) : Array UInt32 :=
  (List.range (size - 1)).foldl (fun state i =>
    let last := state.getD i 0
    state.push ((1812433253 : UInt32) * (last ^^^ (last >>> 30)) + UInt32.ofNat (i + 1))) #[seed]

structure Cursor where
  state : Array UInt32
  place : Nat
  keyPlace : Nat

def Cursor.step (c : Cursor) (word : UInt32) (keyLength : Nat) : Cursor :=
  let state := c.state.setIfInBounds c.place word
  let keyPlace := if c.keyPlace + 1 ≥ keyLength then 0 else c.keyPlace + 1
  if c.place + 1 ≥ size then ⟨state.setIfInBounds 0 (state.getD (size - 1) 0), 1, keyPlace⟩
  else ⟨state, c.place + 1, keyPlace⟩

def Cursor.mixed (c : Cursor) (factor : UInt32) : UInt32 :=
  let last := c.state.getD (c.place - 1) 0
  c.state.getD c.place 0 ^^^ ((last ^^^ (last >>> 30)) * factor)

def ofKey (key : List UInt32) : Twister :=
  let start : Cursor := ⟨ofWord 19650218, 1, 0⟩
  let mixedIn := (List.range (max size key.length)).foldl (fun c _ =>
    c.step (c.mixed 1664525 + key.getD c.keyPlace 0 + UInt32.ofNat c.keyPlace) key.length) start
  let spreadOut := (List.range (size - 1)).foldl (fun c _ =>
    c.step (c.mixed 1566083941 - UInt32.ofNat c.place) key.length) mixedIn
  ⟨spreadOut.state.setIfInBounds 0 0x80000000, size⟩

def wordsOf : Nat → Nat → List UInt32
  | 0, _ => []
  | fuel + 1, n =>
    if n < 2 ^ 32 then [UInt32.ofNat n] else UInt32.ofNat n :: wordsOf fuel (n / 2 ^ 32)

def ofSeed (seed : Int) : Twister :=
  ofKey (wordsOf (seed.natAbs + 1) seed.natAbs)

def twisted (state : Array UInt32) : Array UInt32 :=
  (List.range size).foldl (fun state i =>
    let y := (state.getD i 0 &&& 0x80000000) ||| (state.getD ((i + 1) % size) 0 &&& 0x7fffffff)
    let word := state.getD ((i + 397) % size) 0 ^^^ (y >>> 1) ^^^
      (if y &&& 1 = 0 then 0 else 0x9908b0df)
    state.setIfInBounds i word) state

def temper (y : UInt32) : UInt32 :=
  let y := y ^^^ (y >>> 11)
  let y := y ^^^ ((y <<< 7) &&& 0x9d2c5680)
  let y := y ^^^ ((y <<< 15) &&& 0xefc60000)
  y ^^^ (y >>> 18)

def next (t : Twister) : UInt32 × Twister :=
  let t := if t.index ≥ size then ⟨twisted t.state, 0⟩ else t
  (temper (t.state.getD t.index 0), { t with index := t.index + 1 })

def bitLength (n : Nat) : Nat :=
  if n = 0 then 0 else n.log2 + 1

def below (n : Nat) : Nat → Twister → Nat × Twister
  | 0, t => (0, t)
  | fuel + 1, t =>
    let (word, t) := t.next
    let r := word.toNat / 2 ^ (32 - bitLength n)
    if r < n then (r, t) else below n fuel t

def choices (t : Twister) : List Nat → List Nat
  | [] => []
  | n :: ns =>
    let (i, t) := below n 1000 t
    i :: choices t ns

end Twister

end Legible.Naming
