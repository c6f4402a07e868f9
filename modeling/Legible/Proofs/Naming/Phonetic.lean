import Legible.Naming.Phonetic
import Mathlib.Data.List.Forall2
import Mathlib.Order.Monotone.Basic

namespace Legible.Naming

theorem Twister.below_lt {n : Nat} (h : 0 < n) (fuel : Nat) (t : Twister) :
    (Twister.below n fuel t).1 < n := by
  induction fuel generalizing t with
  | zero => exact h
  | succ fuel ih =>
    let r := t.next.1.toNat / 2 ^ (32 - Twister.bitLength n)
    have hstep : Twister.below n (fuel + 1) t =
        if r < n then (r, t.next.2) else Twister.below n fuel t.next.2 := rfl
    rw [hstep]
    split
    · assumption
    · exact ih _

theorem Twister.choices_lt {ns : List Nat} (h : ∀ n ∈ ns, 0 < n) (t : Twister) :
    List.Forall₂ (· < ·) (t.choices ns) ns := by
  induction ns generalizing t with
  | nil => exact .nil
  | cons n ns ih =>
    rw [List.forall_mem_cons] at h
    have hcons : t.choices (n :: ns) =
        (Twister.below n 1000 t).1 :: (Twister.below n 1000 t).2.choices ns := rfl
    rw [hcons]
    exact .cons (Twister.below_lt h.1 _ t) (ih h.2 _)

def Chooser.Lawful (choose : Chooser) : Prop :=
  ∀ seed sizes, (∀ n ∈ sizes, 0 < n) → List.Forall₂ (· < ·) (choose seed sizes) sizes

theorem lawful_twisterChooser : twisterChooser.Lawful :=
  fun _ _ h => Twister.choices_lt h _

namespace Phonetic

inductive Spelled : Nat → String → Prop where
  | nil : Spelled 0 ""
  | cons {n onset vowel name} (ho : onset ∈ onsets) (hv : vowel ∈ vowels) (h : Spelled n name) :
      Spelled (n + 1) (onset ++ vowel ++ name)

theorem spelled_spell {n : Nat} {cs : List Nat} (h : List.Forall₂ (· < ·) cs (sizes n)) :
    Spelled n (spell cs) := by
  induction n generalizing cs with
  | zero =>
    cases h
    exact .nil
  | succ n ih =>
    have hsizes : sizes (n + 1) = onsets.length :: vowels.length :: sizes n := by
      rw [sizes, List.replicate_succ, List.flatten_cons]
      rfl
    rw [hsizes] at h
    cases h with
    | @cons i _ _ _ hi h =>
      cases h with
      | @cons j _ cs _ hj h =>
        rw [spell, List.getD_eq_getElem?_getD, List.getD_eq_getElem?_getD,
          List.getElem?_eq_getElem hi, List.getElem?_eq_getElem hj]
        exact .cons (List.getElem_mem hi) (List.getElem_mem hj) (ih h)

theorem spelled_compose {choose : Chooser} (hc : choose.Lawful) (p : Phonetic) :
    Spelled p.syllables.toNat (compose choose p) := by
  refine spelled_spell (hc _ _ fun n hn => ?_)
  obtain ⟨l, hl, hn⟩ := List.mem_flatten.mp hn
  rw [(List.mem_replicate.mp hl).2] at hn
  have hpos : ∀ n ∈ [onsets.length, vowels.length], 0 < n := by decide
  exact hpos n hn

theorem Spelled.length_le {n : Nat} {name : String} (h : Spelled n name) : 2 * n ≤ name.length := by
  have honsets : ∀ o ∈ onsets, 1 ≤ o.length := by decide
  have hvowels : ∀ v ∈ vowels, 1 ≤ v.length := by decide
  induction h with
  | nil => exact Nat.le_refl 0
  | cons ho hv _ ih =>
    have := honsets _ ho
    have := hvowels _ hv
    rw [String.length_append, String.length_append]
    omega

theorem Spelled.head {n : Nat} {name : String} (h : Spelled n name) {c : Char}
    (hc : name.toList.head? = some c) : Text.isAnyDigit c = false := by
  have honsets : (onsets.all fun o =>
      !o.toList.isEmpty && o.toList.all fun c => !Text.isAnyDigit c) = true := by
    decide
  simp only [List.all_eq_true, Bool.and_eq_true, Bool.not_eq_true', List.isEmpty_eq_false_iff]
    at honsets
  cases h with
  | nil => cases hc
  | cons ho hv h =>
    obtain ⟨hne, hd⟩ := honsets _ ho
    rw [String.toList_append, String.toList_append, List.append_assoc,
      List.head?_append_of_ne_nil _ hne] at hc
    exact hd c (List.mem_of_head? hc)

theorem le_foldl_max (ns : List Nat) (start : Nat) :
    start ≤ ns.foldl max start ∧ ∀ n ∈ ns, n ≤ ns.foldl max start := by
  induction ns generalizing start with
  | nil => exact ⟨Nat.le_refl _, nofun⟩
  | cons n ns ih =>
    obtain ⟨h, hs⟩ := ih (max start n)
    rw [List.foldl_cons, List.forall_mem_cons]
    exact ⟨Nat.le_trans (Nat.le_max_left ..) h, Nat.le_trans (Nat.le_max_right ..) h, hs⟩

/-! ### The search for a new word -/

def Stale (p : Phonetic) (name : String) : Prop :=
  name ∈ p.used ∨ name ∈ reservedWords

def longer (p : Phonetic) : Phonetic :=
  { p with seed := p.seed + 1, syllables := p.syllables + 1 }

theorem syllables_longer (p : Phonetic) : p.longer.syllables = p.syllables + 1 := rfl

theorem enoughSyllables_longer (p : Phonetic) : p.longer.enoughSyllables = p.enoughSyllables := rfl

/-- An attempt fails: some word with the right number of syllables is stale, and the next one will
be longer. -/
def Fails (p q : Phonetic) : Prop :=
  q = p.longer ∧ ∃ name, Spelled p.syllables.toNat name ∧ p.Stale name

inductive Ends (choose : Chooser) : Phonetic → String × Phonetic → Prop where
  | fresh {p} (h : ¬ p.Stale (compose choose p)) :
      Ends choose p (compose choose p, p.gave (compose choose p))
  | stale {p r} (h : p.Stale (compose choose p)) (rest : Ends choose p.longer r) : Ends choose p r

theorem lt_enoughSyllables {p : Phonetic} {name : String} (h : Spelled p.syllables.toNat name)
    (hs : p.Stale name) : p.syllables < p.enoughSyllables := by
  have hle := (le_foldl_max ((p.used ++ reservedWords).map String.length) 0).2 _
    (List.mem_map_of_mem (List.mem_append.mpr hs))
  have hlong := h.length_le
  rw [enoughSyllables]
  omega

theorem wellFounded_fails : WellFounded fun q p : Phonetic => p.Fails q := by
  apply Subrelation.wf ?_ (measure fun p : Phonetic => (p.enoughSyllables - p.syllables).toNat).wf
  rintro q p ⟨rfl, name, hspelled, hstale⟩
  have hlt := lt_enoughSyllables hspelled hstale
  change (p.longer.enoughSyllables - p.longer.syllables : Int).toNat <
    (p.enoughSyllables - p.syllables : Int).toNat
  rw [enoughSyllables_longer, syllables_longer]
  omega

theorem Ends.unique {choose : Chooser} {p : Phonetic} {r r' : String × Phonetic}
    (h : Ends choose p r) (h' : Ends choose p r') : r = r' := by
  induction h with
  | fresh hf =>
    cases h' with
    | fresh _ => rfl
    | stale hs _ => exact absurd hs hf
  | stale hs _ ih =>
    cases h' with
    | fresh hf => exact absurd hs hf
    | stale _ hrest => exact ih hrest

structure Found (p : Phonetic) (r : String × Phonetic) : Prop where
  fresh : r.1 ∉ p.used
  unreserved : r.1 ∉ reservedWords
  used : r.2.used = r.1 :: p.used
  spelled : ∃ n, Spelled n r.1
  syllables : p.syllables ≤ r.2.syllables

section

variable {choose : Chooser} (hc : choose.Lawful)

include hc

theorem ends_search {fuel : Nat} {p : Phonetic}
    (h : (p.enoughSyllables : Int) ≤ p.syllables + fuel) : Ends choose p (search choose fuel p) := by
  induction fuel generalizing p with
  | zero =>
    apply Ends.fresh
    intro hs
    have := lt_enoughSyllables (spelled_compose hc p) hs
    omega
  | succ fuel ih =>
    rw [search]
    split
    · rename_i hs
      apply Ends.stale
      · simpa [Stale] using hs
      · apply ih (p := p.longer)
        rw [enoughSyllables_longer, syllables_longer]
        omega
    · rename_i hno
      apply Ends.fresh
      simpa [Stale] using hno

theorem ends_next (p : Phonetic) : Ends choose p (p.next choose) := by
  apply ends_search hc
  omega

theorem ends_iff {p : Phonetic} {r : String × Phonetic} : Ends choose p r ↔ r = p.next choose := by
  constructor
  · exact fun h => h.unique (ends_next hc p)
  · rintro rfl
    exact ends_next hc p

theorem Ends.found {p : Phonetic} {r : String × Phonetic} (h : Ends choose p r) : Found p r := by
  induction h with
  | @fresh p hf =>
    obtain ⟨hu, hr⟩ := not_or.mp hf
    exact ⟨hu, hr, rfl, ⟨_, spelled_compose hc p⟩, Int.le_refl _⟩
  | @stale p r _ _ ih =>
    have hle := ih.syllables
    rw [syllables_longer] at hle
    exact ⟨ih.fresh, ih.unreserved, ih.used, ih.spelled, by omega⟩

theorem found_next (p : Phonetic) : Found p (p.next choose) :=
  (ends_next hc p).found hc

end

/-! ### One word after the other -/

def before (choose : Nat → Chooser) (p : Phonetic) : Nat → Phonetic
  | 0 => p
  | n + 1 => ((before choose p n).next (choose n)).2

def given (choose : Nat → Chooser) (p : Phonetic) (n : Nat) : String :=
  ((before choose p n).next (choose n)).1

section

variable {choose : Nat → Chooser} (hc : ∀ n, (choose n).Lawful)

include hc

theorem given_mem_used (p : Phonetic) {i j : Nat} (h : i < j) :
    given choose p i ∈ (before choose p j).used := by
  induction j with
  | zero => omega
  | succ j ih =>
    rw [before, (found_next (hc j) _).used, List.mem_cons]
    by_cases hij : i = j
    · exact Or.inl (by rw [hij]; rfl)
    · exact Or.inr (ih (by omega))

theorem syllables_before_le (p : Phonetic) {i j : Nat} (h : i ≤ j) :
    (before choose p i).syllables ≤ (before choose p j).syllables := by
  apply monotone_nat_of_le_succ (f := fun n => (before choose p n).syllables) ?_ h
  exact fun n => (found_next (hc n) _).syllables

end

/-- Whatever is chosen, each call of a source ends, after finitely many attempts. The words that it
gives are all different and not reserved, and they never get fewer syllables again. -/
theorem given_new {choose : Nat → Chooser} (hc : ∀ n, (choose n).Lawful) (seed syllables : Int) :
    let p := start seed syllables
    (WellFounded fun r q : Phonetic => q.Fails r) ∧
      (∀ n r, Ends (choose n) (before choose p n) r ↔ r = (before choose p n).next (choose n)) ∧
      (∀ i j, i < j → given choose p i ≠ given choose p j) ∧
      (∀ n, given choose p n ∉ reservedWords) ∧
      ∀ i j, i ≤ j → (before choose p i).syllables ≤ (before choose p j).syllables := by
  intro p
  refine ⟨wellFounded_fails, fun n r => ends_iff (hc n), fun i j hij he => ?_, fun n => ?_,
    fun i j hij => syllables_before_le hc p hij⟩
  · apply (found_next (hc j) (before choose p j)).fresh
    have hmem := given_mem_used hc p hij
    rw [he] at hmem
    exact hmem
  · exact (found_next (hc n) (before choose p n)).unreserved

def firstChooser : Chooser :=
  fun _ sizes => sizes.map fun _ => 0

theorem lawful_firstChooser : firstChooser.Lawful := by
  intro _ sizes h
  rw [firstChooser, List.forall₂_map_left_iff, List.forall₂_same]
  exact h

theorem given_new_negative :
    let choose := fun _ : Nat => firstChooser
    let p := start 7 (-1)
    (∀ n, (choose n).Lawful) ∧ [0, 1, 2].map (given choose p) = ["", "ba", "baba"] ∧
      [0, 1, 2, 3].map (fun n => (before choose p n).syllables) = [-1, -1, 1, 2] ∧
      given choose p 0 ≠ given choose p 1 ∧ given choose p 2 ∉ reservedWords := by
  intro choose p
  have hc : ∀ n, (choose n).Lawful := fun _ => lawful_firstChooser
  obtain ⟨-, -, hne, hunreserved, -⟩ := given_new hc 7 (-1)
  exact ⟨hc, by decide +kernel, by decide +kernel, hne 0 1 (by decide), hunreserved 2⟩

end Phonetic

end Legible.Naming
