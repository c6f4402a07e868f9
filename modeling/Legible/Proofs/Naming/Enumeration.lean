import Legible.Proofs.Naming.Dictionary
import Mathlib.Data.Int.GCD
import Mathlib.Order.Monotone.Basic
import Mathlib.Tactic.Choose

namespace Legible.Naming

namespace Dictionary

/-! ### Numbers and words -/

def spell (as : List String) (noun : String) : String :=
  "_" ++ "_".intercalate (as ++ [noun]) ++ "_"

def number (d : Dictionary) : Nat :=
  ((d.seed * spread).fmod d.space).toNat

theorem name_eq (d : Dictionary) :
    d.name = "_" ++ "_".intercalate (words d.adjectiveCount d.number) ++ "_" := rfl

theorem words_eq (k n : Nat) : words k n =
    (List.range k).map (fun i => adjectives.getD (n / adjectives.length ^ i % adjectives.length) "")
      ++ [nouns.getD (n / adjectives.length ^ k) ""] := by
  induction k generalizing n with
  | zero => simp [words]
  | succ k ih =>
    have hdiv : ∀ i, n / adjectives.length / adjectives.length ^ i =
        n / adjectives.length ^ (i + 1) := by
      intro i
      rw [Nat.div_div_eq_div_mul, pow_succ, Nat.mul_comm]
    rw [words, ih, List.range_succ_eq_map, List.map_cons, List.map_map, List.cons_append]
    simp only [hdiv, Function.comp_def, pow_zero, Nat.div_one]

theorem combinations_pos (k : Nat) : 0 < combinations k := by
  rw [combinations, length_nouns, length_adjectives]
  exact Nat.mul_pos (by decide) (Nat.pow_pos (by decide))

theorem combinations_succ (k : Nat) : combinations (k + 1) = combinations k * adjectives.length := by
  rw [combinations, combinations, pow_succ, Nat.mul_assoc]

theorem number_lt {d : Dictionary} (h : d.space = combinations d.adjectiveCount) :
    d.number < combinations d.adjectiveCount := by
  have hpos : (0 : Int) < d.space := by
    rw [h]
    exact_mod_cast combinations_pos _
  have hlt := Int.emod_lt_of_pos (d.seed * spread) hpos
  have hnonneg := Int.emod_nonneg (d.seed * spread) hpos.ne'
  rw [number, Int.fmod_eq_emod_of_nonneg _ hpos.le]
  omega

/-- The words that a dictionary looks up for its number; it finds them all. -/
structure Finds (d : Dictionary) (as : List String) (noun : String) : Prop where
  length : as.length = d.adjectiveCount
  adjective : ∀ i < d.adjectiveCount, ∃ a, as[i]? = some a ∧
    Naming.adjectives[d.number / Naming.adjectives.length ^ i % Naming.adjectives.length]? = some a
  last : nouns[d.number / Naming.adjectives.length ^ d.adjectiveCount]? = some noun
  name : d.name = spell as noun

theorem exists_finds {d : Dictionary} (h : d.space = combinations d.adjectiveCount) :
    ∃ as noun, d.Finds as noun := by
  have hadjective : ∀ i, ∃ a, adjectives[d.number / adjectives.length ^ i % adjectives.length]? =
      some a := by
    intro i
    have hpos : 0 < adjectives.length := by
      rw [length_adjectives]
      decide
    exact ⟨_, List.getElem?_eq_getElem (Nat.mod_lt _ hpos)⟩
  have hnoun : d.number / adjectives.length ^ d.adjectiveCount < nouns.length := by
    apply Nat.div_lt_of_lt_mul
    rw [Nat.mul_comm]
    exact number_lt h
  choose f hf using hadjective
  refine ⟨(List.range d.adjectiveCount).map f, _, by simp, fun i hi => ⟨f i, by simp [hi], hf i⟩,
    List.getElem?_eq_getElem hnoun, ?_⟩
  rw [name_eq, words_eq, spell]
  simp only [List.getD_eq_getElem?_getD, hf, List.getElem?_eq_getElem hnoun, Option.getD_some]

theorem Finds.subset {d : Dictionary} {as : List String} {noun : String} (h : d.Finds as noun) :
    (∀ a ∈ as, a ∈ adjectives) ∧ noun ∈ nouns := by
  refine ⟨fun a ha => ?_, List.mem_of_getElem? h.last⟩
  obtain ⟨i, hi⟩ := List.mem_iff_getElem?.mp ha
  obtain ⟨b, hb, hfound⟩ := h.adjective i (h.length ▸ (List.getElem?_eq_some_iff.mp hi).1)
  obtain rfl := Option.some.inj (hi.symm.trans hb)
  exact List.mem_of_getElem? hfound

theorem exists_words {as : List String} (h : ∀ a ∈ as, a ∈ adjectives) {noun : String}
    (hn : noun ∈ nouns) : ∃ n < combinations as.length, words as.length n = as ++ [noun] := by
  induction as with
  | nil =>
    obtain ⟨n, hlt, rfl⟩ := List.mem_iff_getElem.mp hn
    refine ⟨n, by simpa [combinations] using hlt, ?_⟩
    simp [words, hlt]
  | cons a as ih =>
    rw [List.forall_mem_cons] at h
    obtain ⟨i, hi, rfl⟩ := List.mem_iff_getElem.mp h.1
    obtain ⟨n, hlt, hwords⟩ := ih h.2
    refine ⟨i + adjectives.length * n, ?_, ?_⟩
    · calc i + adjectives.length * n < adjectives.length * (n + 1) := by
            rw [Nat.mul_succ, Nat.add_comm]
            exact Nat.add_lt_add_left hi _
        _ ≤ adjectives.length * combinations as.length := Nat.mul_le_mul_left _ hlt
        _ = combinations (as.length + 1) := by rw [combinations_succ, Nat.mul_comm]
    · rw [List.length_cons, words, Nat.add_mul_mod_self_left, Nat.mod_eq_of_lt hi,
        Nat.add_mul_div_left _ _ (by omega), Nat.div_eq_of_lt hi, Nat.zero_add, hwords]
      simp [hi]

theorem exists_number {k n : Nat} (h : n < combinations k) :
    ∃ seed < combinations k, (⟨seed, k, combinations k⟩ : Dictionary).number = n := by
  obtain ⟨seed, hlt, hseed⟩ :=
    Nat.exists_mul_mod_eq_of_coprime n (spread_coprime k) (combinations_pos k).ne'
  rw [Nat.mod_eq_of_lt h, Nat.mul_comm] at hseed
  refine ⟨seed, hlt, ?_⟩
  have hcast : (seed * spread : Int) = ((seed * 32059 : Nat) : Int) := by
    rw [spread]
    push_cast
    rfl
  simp only [number, hcast]
  rw [Int.fmod_eq_emod_of_nonneg _ (Int.natCast_nonneg _), ← Int.natCast_emod, hseed, Int.toNat_natCast]

/-! ### One name after the other -/

def before (d : Dictionary) : Nat → Dictionary
  | 0 => d
  | n + 1 => (before d n).next.2

def given (d : Dictionary) (n : Nat) : String :=
  (before d n).next.1

theorem given_eq (d : Dictionary) (n : Nat) : d.given n = (d.before (n + 1)).name := rfl

theorem before_succ (d : Dictionary) (n : Nat) : d.before (n + 1) = (d.before n).advance := rfl

theorem space_advance {d : Dictionary} (h : d.space = combinations d.adjectiveCount) :
    d.advance.space = combinations d.advance.adjectiveCount := by
  rw [advance]
  split
  · rw [h, combinations_succ]
  · exact h

theorem space_before (seed : Int) (n : Nat) :
    ((start seed).before n).space = combinations ((start seed).before n).adjectiveCount := by
  induction n with
  | zero => simp [before, start, combinations]
  | succ n ih => exact space_advance ih

theorem Ready.before {d : Dictionary} (h : d.Ready) (n : Nat) : (d.before n).Ready := by
  induction n with
  | zero => exact h
  | succ n ih => exact ih.advance.1.ready

theorem Ready.before_before {d : Dictionary} (h : d.Ready) {i j : Nat} (hij : i < j) :
    (d.before i).Before (d.before j) := by
  induction j with
  | zero => omega
  | succ j ih =>
    have hstep := (h.before j).advance.2
    by_cases he : i = j
    · rw [he]
      exact hstep
    · exact (ih (by omega)).trans hstep

theorem Ready.given_ne {d : Dictionary} (h : d.Ready) {i j : Nat} (hij : i < j) :
    d.given i ≠ d.given j := by
  intro he
  have hi : (d.before (i + 1)).Valid := (h.before i).advance.1
  have hj : (d.before (j + 1)).Valid := (h.before j).advance.1
  have hbefore := h.before_before (i := i + 1) (j := j + 1) (by omega)
  rw [hi.name_inj hj he] at hbefore
  simp only [Before] at hbefore
  omega

/-! ### Rounds -/

def fewer : Nat → Nat
  | 0 => 0
  | k + 1 => fewer k + combinations (k + 1)

theorem fewer_strictMono : StrictMono fewer :=
  strictMono_nat_of_lt_succ fun k => Nat.lt_add_of_pos_right (combinations_pos (k + 1))

theorem round_unique {k l n : Nat} (hk : fewer k ≤ n ∧ n < fewer (k + 1))
    (hl : fewer l ≤ n ∧ n < fewer (l + 1)) : k = l := by
  have hkl := fewer_strictMono.lt_iff_lt.mp (hk.1.trans_lt hl.2)
  have hlk := fewer_strictMono.lt_iff_lt.mp (hl.1.trans_lt hk.2)
  omega

theorem before_start (n : Nat) : ∃ k i, i < combinations (k + 1) ∧ n = fewer k + i ∧
    (start 0).before (n + 1) = ⟨i, k + 1, combinations (k + 1)⟩ := by
  induction n with
  | zero =>
    refine ⟨0, 0, combinations_pos 1, rfl, ?_⟩
    have hlt : ¬ ((0 : Int) - 1 + 1 ≥ (combinations 1 : Nat)) :=
      not_le_of_gt (Int.natCast_pos.mpr (combinations_pos 1))
    have hone : nouns.length * adjectives.length = combinations 1 := by
      rw [combinations, pow_one]
    rw [before_succ, before, start, hone, advance, if_neg hlt]
    exact congrArg (Dictionary.mk · 1 (combinations 1)) (by decide)
  | succ n ih =>
    obtain ⟨k, i, hi, hn, hbefore⟩ := ih
    rw [before_succ, hbefore, advance]
    by_cases hend : i + 1 = combinations (k + 1)
    · refine ⟨k + 1, 0, combinations_pos _, ?_, ?_⟩
      · rw [fewer]
        omega
      · rw [if_pos (by simp only; omega), ← combinations_succ]
        rfl
    · refine ⟨k, i + 1, by omega, by omega, ?_⟩
      rw [if_neg (by simp only; omega)]
      rfl

theorem before_round {k i : Nat} (h : i < combinations (k + 1)) :
    (start 0).before (fewer k + i + 1) = ⟨i, k + 1, combinations (k + 1)⟩ := by
  obtain ⟨l, j, hj, hn, hbefore⟩ := before_start (fewer k + i)
  obtain rfl : k = l := round_unique (n := fewer k + i)
    (by rw [fewer]; omega) (by rw [fewer]; omega)
  obtain rfl : i = j := by omega
  exact hbefore

theorem round_iff {k n : Nat} : fewer k ≤ n ∧ n < fewer (k + 1) ↔
    ((start 0).before (n + 1)).adjectiveCount = k + 1 := by
  obtain ⟨l, i, hi, hn, hbefore⟩ := before_start n
  have hround : fewer l ≤ n ∧ n < fewer (l + 1) := by
    rw [fewer]
    omega
  rw [hbefore]
  constructor
  · intro hk
    rw [round_unique hk hround]
  · intro hk
    obtain rfl : l = k := Nat.succ.inj hk
    exact hround

theorem exists_given {as : List String} {noun : String} {k : Nat} (hlength : as.length = k + 1)
    (has : ∀ a ∈ as, a ∈ adjectives) (hnoun : noun ∈ nouns) :
    ∃ n, (fewer k ≤ n ∧ n < fewer (k + 1)) ∧ (start 0).given n = spell as noun := by
  obtain ⟨number, hlt, hwords⟩ := exists_words has hnoun
  rw [hlength] at hlt hwords
  obtain ⟨seed, hseed, hnumber⟩ := exists_number hlt
  refine ⟨fewer k + seed, by rw [fewer]; omega, ?_⟩
  rw [given_eq, before_round hseed, name_eq, hnumber, hwords, spell]

/-- No name is given twice, every name is made of words that the lists have, and from the start
on each round goes through all combinations with its number of adjectives. -/
theorem given_enumerates :
    (∀ seed : Int, 0 ≤ seed → ∀ i j, i < j → (start seed).given i ≠ (start seed).given j) ∧
      (∀ (seed : Int) (n : Nat), ∃ as noun, ((start seed).before (n + 1)).Finds as noun ∧
        (start seed).given n = spell as noun) ∧
      (∀ k n, fewer k ≤ n ∧ n < fewer (k + 1) ↔
        ((start 0).before (n + 1)).adjectiveCount = k + 1) ∧
      ∀ (k : Nat) (as : List String) (noun : String), as.length = k + 1 →
        (∀ a ∈ as, a ∈ adjectives) → noun ∈ nouns →
        ∃ n, (fewer k ≤ n ∧ n < fewer (k + 1)) ∧
          ∀ m, (start 0).given m = spell as noun ↔ m = n := by
  refine ⟨fun seed h i j => (ready_start h).given_ne, fun seed n => ?_, fun k n => round_iff, ?_⟩
  · obtain ⟨as, noun, h⟩ := exists_finds (space_before seed (n + 1))
    exact ⟨as, noun, h, h.name⟩
  · intro k as noun hlength has hnoun
    obtain ⟨n, hround, hgiven⟩ := exists_given hlength has hnoun
    refine ⟨n, hround, fun m => ⟨fun hm => ?_, fun hm => hm ▸ hgiven⟩⟩
    have hready := ready_start (le_refl (0 : Int))
    rcases Nat.lt_trichotomy m n with hlt | he | hlt
    · exact absurd (hm.trans hgiven.symm) (hready.given_ne hlt)
    · exact he
    · exact absurd (hgiven.trans hm.symm) (hready.given_ne hlt)

theorem given_enumerates_two :
    (start 86399).given 0 ≠ (start 86399).given 1 ∧
      (start 86399).given 1 = spell ["able", "able"] "act" ∧
      ∃ n, (fewer 1 ≤ n ∧ n < fewer 2) ∧
        ∀ m, (start 0).given m = spell ["able", "able"] "act" ↔ m = n := by
  obtain ⟨hdistinct, -, -, hall⟩ := given_enumerates
  have hable : ∀ a ∈ ["able", "able"], a ∈ adjectives := by decide +kernel
  have hact : "act" ∈ nouns := by decide +kernel
  exact ⟨hdistinct 86399 (by decide) 0 1 (by decide), by decide +kernel,
    hall 1 ["able", "able"] "act" rfl hable hact⟩

end Dictionary

end Legible.Naming
