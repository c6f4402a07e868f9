import Legible.Proofs.Pattern.Build
import Legible.Proofs.Tree.Alike

namespace Legible.Pattern

mutual

def nameless : Pattern → Bool
  | .hole _ => true
  | .scalar _ => true
  | .list ps => namelessItems ps
  | .object fs => namelessFields fs
termination_by structural p => p

def namelessItems : List Pattern → Bool
  | [] => true
  | p :: ps => p.nameless && namelessItems ps
termination_by structural ps => ps

def namelessFields : List (String × Pattern) → Bool
  | [] => true
  | (k, p) :: fs => k != "name" && p.nameless && namelessFields fs
termination_by structural fs => fs

end

section

variable {L : Tree → Tree → Prop} (hL : Tree.Likeness L)

include hL

theorem accepts_alike (h : Placeholder) {t u : Tree} (htu : L t u) : h.accepts u = h.accepts t := by
  unfold Placeholder.accepts
  rw [hL.text? htu, hL.isNull htu, hL.isNode htu, Tree.kind, hL.kind? htu, Tree.kind]

theorem runFrom_alike (h : Placeholder) (ps : List Pattern) {ts us : List Tree}
    (htu : List.Forall₂ L ts us) : List.Forall₂ L (runFrom h ps ts) (runFrom h ps us) := by
  rw [runFrom, runFrom, htu.length_eq]
  generalize us.length - minimumLength ps = n
  have htake := List.forall₂_take n htu
  generalize ts.take n = as at htake
  generalize us.take n = bs at htake
  induction htake with
  | nil => exact .nil
  | @cons a b as bs hab _ ih =>
    rw [List.takeWhile_cons, List.takeWhile_cons, accepts_alike hL h hab]
    split
    · exact .cons hab ih
    · exact .nil

theorem fitsItems_alike {ps : List Pattern}
    (ih : ∀ p ∈ ps, p.nameless = true → ∀ {t u}, L t u → p.fits u = p.fits t)
    (hp : namelessItems ps = true) {ts us : List Tree} (htu : List.Forall₂ L ts us) :
    fitsItems ps us = fitsItems ps ts := by
  induction ps generalizing ts us with
  | nil => cases htu <;> rfl
  | cons p ps ihs =>
    rw [List.forall_mem_cons] at ih
    rw [namelessItems, Bool.and_eq_true] at hp
    cases hr : p.run? with
    | some h =>
      have hrun := runFrom_alike hL h ps htu
      have hempty : (runFrom h ps us).isEmpty = (runFrom h ps ts).isEmpty := by
        rw [Bool.eq_iff_iff, List.isEmpty_iff_length_eq_zero, List.isEmpty_iff_length_eq_zero,
          hrun.length_eq]
      simp only [fitsItems, hr, hempty, ← hrun.length_eq,
        ihs ih.2 hp.2 (List.forall₂_drop (runFrom h ps ts).length htu)]
    | none =>
      cases htu with
      | nil => rfl
      | cons hab hrest => simp only [fitsItems, hr, ih.1 hp.1 hab, ihs ih.2 hp.2 hrest]

theorem fits_alike {p : Pattern} (hp : p.nameless = true) {t u : Tree} (htu : L t u) :
    p.fits u = p.fits t := by
  induction p generalizing t u with
  | hole h => exact accepts_alike hL h htu
  | scalar a =>
    rw [fits, fits]
    cases t with
    | scalar b => rw [hL.scalar htu]
    | list ts =>
      obtain ⟨us, rfl, -⟩ := hL.list htu
      rfl
    | object tag fs =>
      obtain ⟨tag', fs', rfl⟩ := hL.object htu
      rfl
  | list ps ih =>
    cases t with
    | scalar b => rw [hL.scalar htu]
    | list ts =>
      obtain ⟨us, rfl, hs⟩ := hL.list htu
      exact fitsItems_alike hL (fun p hm hp _ _ h => ih p hm hp h) hp hs
    | object tag fs =>
      obtain ⟨tag', fs', rfl⟩ := hL.object htu
      rfl
  | object fs ih =>
    cases t with
    | scalar b => rw [hL.scalar htu]
    | list ts =>
      obtain ⟨us, rfl, hs⟩ := hL.list htu
      rfl
    | object tag gs =>
      obtain ⟨tag', gs', rfl⟩ := hL.object htu
      rw [fits, fits]
      rw [nameless] at hp
      induction fs with
      | nil => rfl
      | cons f fs ihs =>
        obtain ⟨k, p⟩ := f
        rw [List.forall_mem_cons] at ih
        rw [namelessFields, Bool.and_eq_true, Bool.and_eq_true, bne_iff_ne] at hp
        rw [fitsFields, fitsFields, ih.1 hp.1.2 (hL.get htu hp.1.1), ihs ih.2 hp.2]

end

end Legible.Pattern
