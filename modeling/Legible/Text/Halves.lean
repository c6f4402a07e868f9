/-!
Halves of surrogate pairs. A script can spell them in a text, but no character is one: a half stands
as a sign and one more character, and the sign itself as two signs. Files hold plain text, and a text
with a half in it cannot be written to one.
-/

namespace Legible.Text

def halfSign : Char := '\uffff'

def isHalf (n : Nat) : Bool :=
  0xd800 ≤ n && n < 0xe000

def ofCodePoint (n : Nat) : List Char :=
  if isHalf n then [halfSign, Char.ofNat (n + 0x800)]
  else if n = halfSign.toNat then [halfSign, halfSign]
  else [Char.ofNat n]

def codePoints : List Char → List Nat
  | [] => []
  | [c] => [c.toNat]
  | c :: d :: cs =>
    if c = halfSign then (if d = halfSign then d.toNat else d.toNat - 0x800) :: codePoints cs
    else c.toNat :: codePoints (d :: cs)

def withSigns (s : String) : String :=
  String.ofList (s.toList.flatMap fun c => ofCodePoint c.toNat)

structure EncodingError where
  position : Nat
  halves : List Nat
deriving DecidableEq

def EncodingError.message (e : EncodingError) : String :=
  let place := match e.halves with
    | [n] => "character '\\u" ++ String.ofList (Nat.toDigits 16 n) ++ "' in position " ++
        toString e.position
    | ns => "characters in position " ++ toString e.position ++ "-" ++
        toString (e.position + ns.length - 1)
  "'utf-8' codec can't encode " ++ place ++ ": surrogates not allowed"

def encode (s : String) : Except EncodingError String :=
  let ns := codePoints s.toList
  match ns.dropWhile (!isHalf ·) with
  | [] => .ok (String.ofList (ns.map Char.ofNat))
  | rest => .error ⟨ns.length - rest.length, rest.takeWhile isHalf⟩

theorem toNat_ofNat {n : Nat} (h : n.isValidChar) : (Char.ofNat n).toNat = n := by
  rw [Char.ofNat, dif_pos h]
  rfl

theorem codePoints_ofCodePoint {n : Nat} (h : isHalf n = true ∨ n.isValidChar) (cs : List Char) :
    codePoints (ofCodePoint n ++ cs) = n :: codePoints cs := by
  unfold ofCodePoint
  split
  · rename_i hn
    simp only [isHalf, Bool.and_eq_true, decide_eq_true_eq] at hn
    have hnat := toNat_ofNat (n := n + 0x800) (Or.inr ⟨by omega, by omega⟩)
    have hne : Char.ofNat (n + 0x800) ≠ halfSign := by
      intro hc
      have hsign : n + 0x800 = 0xffff := hnat.symm.trans (congrArg Char.toNat hc)
      omega
    simp [codePoints, hne, hnat]
  · rename_i hn
    have hnat := toNat_ofNat (h.resolve_left hn)
    split
    · rename_i hsign
      simp [codePoints, hsign]
    · rename_i hsign
      have hne : Char.ofNat n ≠ halfSign := fun hc => hsign (hnat.symm.trans (congrArg Char.toNat hc))
      cases cs <;> simp [codePoints, hne, hnat]

theorem codePoints_flatMap {ns : List Nat} (h : ∀ n ∈ ns, isHalf n = true ∨ n.isValidChar) :
    codePoints (ns.flatMap ofCodePoint) = ns := by
  induction ns with
  | nil => rfl
  | cons n ns ih =>
    rw [List.forall_mem_cons] at h
    rw [List.flatMap_cons, codePoints_ofCodePoint h.1, ih h.2]

theorem isHalf_toNat (c : Char) : isHalf c.toNat = false := by
  have hc : c.toNat.isValidChar := c.valid
  rw [isHalf, Bool.and_eq_false_iff, decide_eq_false_iff_not, decide_eq_false_iff_not]
  rcases hc with h | h <;> omega

theorem encode_withSigns (s : String) : encode (withSigns s) = .ok s := by
  have hpoints : codePoints (withSigns s).toList = s.toList.map Char.toNat := by
    rw [withSigns, String.toList_ofList, ← List.flatMap_map, codePoints_flatMap]
    intro n hn
    obtain ⟨c, -, rfl⟩ := List.mem_map.mp hn
    exact Or.inr c.valid
  have hwhole : ∀ n ∈ s.toList.map Char.toNat, (!isHalf n) = true := by
    intro n hn
    obtain ⟨c, -, rfl⟩ := List.mem_map.mp hn
    rw [isHalf_toNat]
    rfl
  have hnone : (s.toList.map Char.toNat).dropWhile (!isHalf ·) = [] := by
    rw [← List.append_nil (s.toList.map Char.toNat), List.dropWhile_append_of_pos hwhole]
    rfl
  have hchars : (s.toList.map Char.toNat).map Char.ofNat = s.toList := by
    rw [List.map_map]
    exact List.map_id'' Char.ofNat_toNat _
  rw [encode, hpoints]
  simp only [hnone, hchars, String.ofList_toList]

end Legible.Text
