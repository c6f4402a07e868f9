namespace Legible.FilePath

abbrev Part := List Char

def here : Part := ['.']

def above : Part := ['.', '.']

def parts : List Char → List Part
  | [] => [[]]
  | c :: cs =>
    if c = '/' then [] :: parts cs
    else
      match parts cs with
      | [] => [[c]]
      | p :: ps => (c :: p) :: ps

def joined : List Part → List Char
  | [] => []
  | [p] => p
  | p :: q :: ps => p ++ '/' :: joined (q :: ps)

theorem parts_ne_nil (cs : List Char) : parts cs ≠ [] := by
  cases cs with
  | nil => simp [parts]
  | cons c cs =>
    simp only [parts]
    split
    · simp
    · split <;> simp

theorem joined_parts (cs : List Char) : joined (parts cs) = cs := by
  induction cs with
  | nil => rfl
  | cons c cs ih =>
    simp only [parts]
    cases h : parts cs with
    | nil => exact absurd h (parts_ne_nil cs)
    | cons p ps =>
      rw [h] at ih
      by_cases hc : c = '/'
      · simp [hc, joined, ih]
      · cases ps with
        | nil => simpa [hc, joined] using ih
        | cons q qs => simpa [hc, joined] using ih

def dropSlashes (cs : List Char) : List Char :=
  cs.dropWhile (· == '/')

def dropSlashesRight (cs : List Char) : List Char :=
  (dropSlashes cs.reverse).reverse

def lastPart (cs : List Char) : Part :=
  (cs.reverse.takeWhile (· != '/')).reverse

def withoutLastPart (cs : List Char) : List Char :=
  (cs.reverse.dropWhile (· != '/')).reverse

end Legible.FilePath
