import Legible.Naming.Dictionary
import Mathlib.Data.List.Nodup
import Mathlib.RingTheory.Coprime.Lemmas

namespace Legible.Naming

/-! ### Words -/

def spot (w : String) : Nat :=
  w.toList.foldl (fun n c => n * 128 + c.toNat) 0 % 21490

def marksAll (seen : Nat) : List String → Bool
  | [] => true
  | w :: ws =>
    (w.toList.all (· != '_') && !seen.testBit (spot w)) && marksAll (seen ||| 1 <<< spot w) ws

theorem nodup_of_marksAll {seen : Nat} {ws : List String} (h : marksAll seen ws = true) :
    ws.Nodup ∧ ∀ w ∈ ws, '_' ∉ w.toList ∧ seen.testBit (spot w) = false := by
  induction ws generalizing seen with
  | nil => exact ⟨List.nodup_nil, nofun⟩
  | cons w ws ih =>
    rw [marksAll, Bool.and_eq_true, Bool.and_eq_true, Bool.not_eq_true'] at h
    obtain ⟨⟨hplain, hw⟩, h⟩ := h
    obtain ⟨hnodup, hrest⟩ := ih h
    have hmark : ∀ u ∈ ws, spot u ≠ spot w ∧ seen.testBit (spot u) = false := by
      intro u hu
      have hseen := (hrest u hu).2
      rw [Nat.testBit_or, Bool.or_eq_false_iff] at hseen
      refine ⟨fun he => ?_, hseen.1⟩
      rw [he] at hseen
      simp [Nat.testBit_shiftLeft] at hseen
    refine ⟨List.nodup_cons.mpr ⟨fun hm => (hmark w hm).1 rfl, hnodup⟩, ?_⟩
    rw [List.forall_mem_cons]
    refine ⟨⟨fun hm => ?_, hw⟩, fun u hu => ⟨(hrest u hu).1, (hmark u hu).2⟩⟩
    have := List.all_eq_true.mp hplain _ hm
    simp at this

theorem marksAll_words : (marksAll 0 nouns && marksAll 0 adjectives) = true := by decide +kernel

theorem nodup_nouns : nouns.Nodup :=
  (nodup_of_marksAll (Bool.and_eq_true_iff.mp marksAll_words).1).1

theorem nodup_adjectives : adjectives.Nodup :=
  (nodup_of_marksAll (Bool.and_eq_true_iff.mp marksAll_words).2).1

theorem plain_nouns : ∀ w ∈ nouns, '_' ∉ w.toList := fun w hw =>
  ((nodup_of_marksAll (Bool.and_eq_true_iff.mp marksAll_words).1).2 w hw).1

theorem plain_adjectives : ∀ w ∈ adjectives, '_' ∉ w.toList := fun w hw =>
  ((nodup_of_marksAll (Bool.and_eq_true_iff.mp marksAll_words).2).2 w hw).1

theorem length_nouns : nouns.length = 576 := by decide +kernel

theorem length_adjectives : adjectives.length = 150 := by decide +kernel

namespace Dictionary

def combinations (k : Nat) : Nat :=
  nouns.length * adjectives.length ^ k

theorem getD_inj {ws : List String} (h : ws.Nodup) {m n : Nat} (hm : m < ws.length)
    (hn : n < ws.length) (he : ws.getD m "" = ws.getD n "") : m = n := by
  rw [List.getD_eq_getElem?_getD, List.getD_eq_getElem?_getD, List.getElem?_eq_getElem hm,
    List.getElem?_eq_getElem hn, Option.getD_some, Option.getD_some] at he
  exact (h.getElem_inj_iff).mp he

theorem words_inj {k m n : Nat} (hm : m < combinations k) (hn : n < combinations k)
    (h : words k m = words k n) : m = n := by
  induction k generalizing m n with
  | zero =>
    simp only [combinations, Nat.pow_zero, Nat.mul_one] at hm hn
    rw [words, words, List.cons.injEq] at h
    exact getD_inj nodup_nouns hm hn h.1
  | succ k ih =>
    have hpos : 0 < adjectives.length := by rw [length_adjectives]; decide
    have hdiv : ∀ {m}, m < combinations (k + 1) → m / adjectives.length < combinations k := by
      intro m hm
      rw [combinations, Nat.pow_succ, ← Nat.mul_assoc] at hm
      exact Nat.div_lt_of_lt_mul (by rwa [Nat.mul_comm])
    rw [words, words, List.cons.injEq] at h
    obtain ⟨hmod, hrest⟩ := h
    have hmod := getD_inj nodup_adjectives (Nat.mod_lt _ hpos) (Nat.mod_lt _ hpos) hmod
    have hdivs := ih (hdiv hm) (hdiv hn) hrest
    rw [← Nat.div_add_mod m adjectives.length, hmod, hdivs, Nat.div_add_mod]

theorem length_words (k n : Nat) : (words k n).length = k + 1 := by
  induction k generalizing n with
  | zero => rfl
  | succ k ih => rw [words, List.length_cons, ih]

theorem plain_of_mem_words {k n : Nat} {w : String} (h : w ∈ words k n) : '_' ∉ w.toList := by
  have hget : ∀ ws : List String, (∀ w ∈ ws, '_' ∉ w.toList) → ∀ i, '_' ∉ (ws.getD i "").toList := by
    intro ws hws i
    rw [List.getD_eq_getElem?_getD]
    cases hi : ws[i]? with
    | none => decide
    | some w => exact hws w (List.mem_of_getElem? hi)
  induction k generalizing n with
  | zero =>
    obtain rfl := List.mem_singleton.mp h
    exact hget nouns plain_nouns n
  | succ k ih =>
    rcases List.mem_cons.mp h with rfl | h
    · exact hget adjectives plain_adjectives _
    · exact ih h

theorem spelling_inj {us ws : List String} (hu : ∀ u ∈ us, '_' ∉ u.toList)
    (hw : ∀ w ∈ ws, '_' ∉ w.toList) (hune : us ≠ []) (hwne : ws ≠ [])
    (h : "_" ++ "_".intercalate us ++ "_" = "_" ++ "_".intercalate ws ++ "_") : us = ws := by
  have hi : "_".intercalate us = "_".intercalate ws := by
    have := congrArg String.toList h
    simp only [String.toList_append, List.append_assoc] at this
    exact String.toList_inj.mp (List.append_cancel_right (List.append_cancel_left this))
  have hl := congrArg (fun s => s.toList.splitOn '_') hi
  simp only [String.toList_intercalate] at hl
  have hsep : "_".toList = ['_'] := rfl
  rw [hsep, List.splitOn_intercalate '_' (List.forall_mem_map.mpr hu) (by simpa using hune),
    List.splitOn_intercalate '_' (List.forall_mem_map.mpr hw) (by simpa using hwne)] at hl
  exact List.map_injective_iff.mpr (fun a b => String.toList_inj.mp) hl

/-! ### States -/

structure Valid (d : Dictionary) : Prop where
  space : d.space = combinations d.adjectiveCount
  nonneg : 0 ≤ d.seed
  lt : d.seed < d.space

theorem spread_coprime (k : Nat) : Nat.Coprime 32059 (combinations k) := by
  rw [combinations, length_nouns, length_adjectives]
  exact Nat.Coprime.mul_right (by decide) (Nat.Coprime.pow_right _ (by decide))

theorem Valid.name_inj {d e : Dictionary} (hd : d.Valid) (he : e.Valid) (h : d.name = e.name) :
    d = e := by
  have hne : ∀ k n, words k n ≠ [] := fun k n hn => by
    have := length_words k n
    rw [hn] at this
    cases this
  have hwords := spelling_inj (fun _ => plain_of_mem_words) (fun _ => plain_of_mem_words)
    (hne _ _) (hne _ _) h
  have hcount : d.adjectiveCount = e.adjectiveCount := by
    have := congrArg List.length hwords
    rw [length_words, length_words] at this
    omega
  have hspace : d.space = e.space := by rw [hd.space, he.space, hcount]
  have hnumber : ∀ f : Dictionary, f.Valid →
      0 ≤ (f.seed * spread).fmod f.space ∧ (f.seed * spread).fmod f.space < f.space := by
    intro f hf
    have hpos : (0 : Int) < f.space := lt_of_le_of_lt hf.nonneg hf.lt
    rw [Int.fmod_eq_emod_of_nonneg _ hpos.le]
    exact ⟨Int.emod_nonneg _ hpos.ne', Int.emod_lt_of_pos _ hpos⟩
  obtain ⟨hd0, hdlt⟩ := hnumber d hd
  obtain ⟨he0, helt⟩ := hnumber e he
  have hfmod : (d.seed * spread).fmod d.space = (e.seed * spread).fmod e.space := by
    rw [hcount] at hwords
    have := words_inj (by have := he.space; omega) (by have := he.space; omega) hwords
    omega
  -- The prime has no factor in common with the number of combinations.
  have hseed : d.seed = e.seed := by
    have hpos : (0 : Int) < d.space := lt_of_le_of_lt hd.nonneg hd.lt
    rw [← hspace, Int.fmod_eq_emod_of_nonneg _ hpos.le, Int.fmod_eq_emod_of_nonneg _ hpos.le] at hfmod
    have hdvd : (d.space : Int) ∣ (d.seed - e.seed) * spread := by
      rw [Int.sub_mul]
      exact Int.dvd_of_emod_eq_zero (Int.emod_eq_emod_iff_emod_sub_eq_zero.mp hfmod)
    have hcop : IsCoprime (d.space : Int) spread := by
      have := (spread_coprime d.adjectiveCount).symm
      rw [← hd.space] at this
      exact Nat.isCoprime_iff_coprime.mpr this
    have habs : |d.seed - e.seed| < d.space := by
      have := hd.nonneg
      have := hd.lt
      have := he.nonneg
      have := he.lt
      rw [abs_lt]
      omega
    have := Int.eq_zero_of_abs_lt_dvd (hcop.dvd_of_dvd_mul_right hdvd) habs
    omega
  cases d
  cases e
  simp only at hcount hspace hseed
  rw [hcount, hspace, hseed]

structure Ready (d : Dictionary) : Prop where
  space : d.space = combinations d.adjectiveCount
  next : 0 ≤ d.seed + 1

theorem ready_start {seed : Int} (h : 0 ≤ seed) : (start seed).Ready := by
  refine ⟨?_, by simpa [start] using h⟩
  simp only [start, combinations, Nat.pow_one]

theorem Valid.ready {d : Dictionary} (h : d.Valid) : d.Ready :=
  ⟨h.space, Int.add_nonneg h.nonneg (by decide)⟩

def Before (d e : Dictionary) : Prop :=
  d.adjectiveCount < e.adjectiveCount ∨ d.adjectiveCount = e.adjectiveCount ∧ d.seed < e.seed

theorem Before.trans {d e f : Dictionary} (h : d.Before e) (h' : e.Before f) : d.Before f := by
  simp only [Before] at h h' ⊢
  omega

theorem Ready.advance {d : Dictionary} (h : d.Ready) : d.advance.Valid ∧ d.Before d.advance := by
  rw [Dictionary.advance]
  split
  · refine ⟨⟨?_, le_rfl, ?_⟩, Or.inl (Nat.lt_succ_self _)⟩
    · simp only [h.space, combinations, Nat.pow_succ, Nat.mul_assoc]
    · rw [h.space, combinations, length_nouns, length_adjectives]
      exact Int.natCast_pos.mpr
        (Nat.mul_pos (Nat.mul_pos (by decide) (Nat.pow_pos (by decide))) (by decide))
  · rename_i hlt
    exact ⟨⟨h.space, h.next, by simpa using hlt⟩, Or.inr ⟨rfl, Int.lt_succ _⟩⟩

def Spent (d : Dictionary) (name : String) : Prop :=
  ∃ e : Dictionary, e.Valid ∧ (e = d ∨ e.Before d) ∧ e.name = name

theorem not_spent_advance {d : Dictionary} (h : d.Ready) : ¬ d.Spent d.advance.name := by
  rintro ⟨e, he, hed, hn⟩
  obtain ⟨hv, hb⟩ := h.advance
  have heq := he.name_inj hv hn
  have hbefore : e.Before d.advance := hed.elim (fun hed => hed ▸ hb) fun hed => hed.trans hb
  rw [heq] at hbefore
  simp only [Before] at hbefore
  omega

theorem Spent.advance {d : Dictionary} (h : d.Ready) {name : String} (hs : d.Spent name) :
    d.advance.Spent name := by
  obtain ⟨e, he, hed, hn⟩ := hs
  have hb := h.advance.2
  exact ⟨e, he, Or.inr (hed.elim (fun hed => hed ▸ hb) fun hed => hed.trans hb), hn⟩

theorem spent_advance {d : Dictionary} (h : d.Ready) : d.advance.Spent d.advance.name :=
  ⟨_, h.advance.1, Or.inl rfl, rfl⟩

theorem head_name (d : Dictionary) : d.name.toList.head? = some '_' := by
  rw [name]
  simp only [String.toList_append, List.append_assoc]
  rfl

end Dictionary

end Legible.Naming
