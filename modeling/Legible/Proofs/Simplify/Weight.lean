import Legible.Proofs.Pattern.Build
import Legible.Proofs.Pattern.Match
import Legible.Proofs.Tree.Children
import Legible.Proofs.Tree.Names
import Legible.Simplify
import Mathlib.Algebra.Order.BigOperators.Group.List
import Mathlib.Algebra.Order.Ring.Nat

namespace Legible

namespace Tree

theorem weight_list (ts : List Tree) : (list ts).weight = (ts.map weight).sum := by
  rw [weight]
  induction ts with
  | nil => rfl
  | cons t ts ih => rw [weightOfItems, ih, List.map_cons, List.sum_cons]

def ownWeight (kind : Option String) : Nat :=
  if kind = some "ForStatement" then 2 else 1

theorem one_le_ownWeight (kind : Option String) : 1 ≤ ownWeight kind := by
  unfold ownWeight
  split <;> omega

theorem weightOfFields_eq (fs : Fields) : weightOfFields fs = (fs.map fun f => f.2.weight).sum := by
  induction fs with
  | nil => rfl
  | cons f fs ih => rw [weightOfFields, ih, List.map_cons, List.sum_cons]

theorem weight_object (tag : Nat) (fs : Fields) : (object tag fs).weight =
    ownWeight (object tag fs).kind? + (fs.map fun f => f.2.weight).sum := by
  have hk : (fs.lookup "type").bind Tree.text? = (object tag fs).kind? := by
    rw [kind?, get_object]
    cases fs.lookup "type" <;> rfl
  rw [weight, hk, weightOfFields_eq, ownWeight]

theorem one_le_weight {t : Tree} (h : t.isNode = true) : 1 ≤ t.weight := by
  obtain ⟨tag, fs, rfl⟩ := eq_object_of_isNode h
  have := one_le_ownWeight (object tag fs).kind?
  rw [weight_object]
  omega

theorem weight_le_of_mem_heldNodes {v c : Tree} (h : c ∈ v.heldNodes) : c.weight ≤ v.weight := by
  cases v with
  | scalar a => cases h
  | list cs =>
    rw [weight_list]
    exact List.le_sum_of_mem (List.mem_map_of_mem (mem_heldNodes_of_list.mp h).1)
  | object tag fs =>
    rw [heldNodes] at h
    split at h
    · rw [List.mem_singleton.mp h]
    · cases h

theorem sum_weight_set_text_le (key x : String) (fs : Fields) :
    ((Fields.set key (.text x) fs).map fun f => f.2.weight).sum ≤
      (fs.map fun f => f.2.weight).sum := by
  induction fs with
  | nil => simp [Fields.set, weight]
  | cons f fs ih =>
    obtain ⟨k, v⟩ := f
    by_cases he : k = key
    · simp [Fields.set, he, weight]
    · simp only [Fields.set, he, if_false, List.map_cons, List.sum_cons]
      exact Nat.add_le_add_left ih _

theorem weight_set_text_le {key : String} (hk : key ≠ "type") (t : Tree) (x : String) :
    (t.set key (.text x)).weight ≤ t.weight := by
  cases t with
  | scalar a => exact Nat.le_refl _
  | list ts => exact Nat.le_refl _
  | object tag fs =>
    have hkind : (object tag (Fields.set key (.text x) fs)).kind? = (object tag fs).kind? := by
      simp only [kind?, get_object, Fields.lookup_set_of_ne (Ne.symm hk)]
    rw [set, weight_object, weight_object, hkind]
    exact Nat.add_le_add_left (sum_weight_set_text_le key x fs) _

theorem weight_apply_le (names : Names) (t : Tree) : (names.apply t).weight ≤ t.weight := by
  have hsum : ∀ fs : Fields, (∀ f ∈ fs, (names.apply f.2).weight ≤ f.2.weight) →
      ((names.applyFields fs).map fun f => f.2.weight).sum ≤ (fs.map fun f => f.2.weight).sum := by
    intro fs h
    rw [Names.applyFields_eq, List.map_map]
    exact List.sum_le_sum h
  induction t with
  | scalar a => exact Nat.le_refl _
  | list ts ih =>
    rw [Names.apply_list, weight_list, weight_list, List.map_map]
    exact List.sum_le_sum ih
  | object tag fs ih =>
    have hk : (names.apply (.object tag fs)).kind? = (object tag fs).kind? := by
      rw [kind?, Names.get_apply (by decide), Names.text?_apply, kind?]
    rw [Names.apply_object] at hk ⊢
    rw [weight_object, weight_object, hk]
    refine Nat.add_le_add_left (Nat.le_trans ?_ (hsum fs ih)) _
    rw [Names.newFields]
    split
    · exact sum_weight_set_text_le ..
    · exact Nat.le_refl _

theorem sum_weight_get_le {keys : List String} (hk : keys.Nodup) (tag : Nat) (fs : Fields) :
    (keys.map fun k => ((object tag fs).get k).weight).sum ≤ (fs.map fun f => f.2.weight).sum := by
  induction fs generalizing keys with
  | nil => simp [weight]
  | cons f fs ih =>
    obtain ⟨k, v⟩ := f
    have hself : (object tag ((k, v) :: fs)).get k = v := by simp
    have hother : ∀ key ∈ keys.erase k, ((object tag ((k, v) :: fs)).get key).weight =
        ((object tag fs).get key).weight := by
      intro key hm
      have hne : key ≠ k := fun he => hk.not_mem_erase (he ▸ hm)
      simp [List.lookup_cons, beq_false_of_ne hne]
    have hrest := ih (hk.erase k)
    rw [List.map_cons, List.sum_cons]
    by_cases hm : k ∈ keys
    · rw [((List.perm_cons_erase hm).map _).sum_eq, List.map_cons, List.sum_cons, hself,
        List.map_congr_left hother]
      exact Nat.add_le_add_left hrest v.weight
    · rw [List.erase_of_not_mem hm] at hother hrest
      rw [List.map_congr_left hother]
      exact Nat.le_trans hrest (Nat.le_add_left _ v.weight)

theorem weight_lt_of_mem_children {t c : Tree} (h : c ∈ t.children) : c.weight < t.weight := by
  obtain ⟨key, -, hc⟩ := mem_children.mp h
  cases t with
  | scalar a => cases hc
  | list ts => cases hc
  | object tag fs =>
    have hget := sum_weight_get_le (List.nodup_singleton key) tag fs
    have hle := weight_le_of_mem_heldNodes hc
    have hown := one_le_ownWeight (object tag fs).kind?
    rw [List.map_singleton, List.sum_singleton] at hget
    rw [weight_object]
    omega

end Tree

namespace Pattern

mutual

def bulk : Pattern → Nat
  | .hole _ => 0
  | .scalar _ => 0
  | .list ps => bulkItems ps
  | .object fs => Tree.ownWeight (object fs).kind? + bulkFields fs
termination_by structural p => p

def bulkItems : List Pattern → Nat
  | [] => 0
  | p :: ps => p.bulk + bulkItems ps
termination_by structural ps => ps

def bulkFields : List (String × Pattern) → Nat
  | [] => 0
  | (_, p) :: fs => p.bulk + bulkFields fs
termination_by structural fs => fs

end

mutual

def lightNames : Pattern → List String
  | .hole h => if h.optional || h.slot == .text then [h.name] else []
  | .scalar _ => []
  | .list ps => lightNamesItems ps
  | .object fs => lightNamesFields fs
termination_by structural p => p

def lightNamesItems : List Pattern → List String
  | [] => []
  | p :: ps => p.lightNames ++ lightNamesItems ps
termination_by structural ps => ps

def lightNamesFields : List (String × Pattern) → List String
  | [] => []
  | (_, p) :: fs => p.lightNames ++ lightNamesFields fs
termination_by structural fs => fs

end

def isScalar : Pattern → Bool
  | .scalar _ => true
  | _ => false

mutual

def tidy : Pattern → Bool
  | .hole _ => true
  | .scalar _ => true
  | .list ps => tidyItems ps
  | .object fs => decide (fs.map (·.1)).Nodup && tidyFields fs
termination_by structural p => p

def tidyItems : List Pattern → Bool
  | [] => true
  | p :: ps => p.tidy && tidyItems ps
termination_by structural ps => ps

def tidyFields : List (String × Pattern) → Bool
  | [] => true
  | (k, p) :: fs => (if isIgnored k || k == "type" then p.isScalar else p.tidy) && tidyFields fs
termination_by structural fs => fs

end

/-! ### What is built -/

theorem sum_weight_spliced (p : Pattern) (t : Tree) :
    ((p.spliced t).map Tree.weight).sum = t.weight := by
  unfold spliced
  split
  · rw [Tree.weight_list]
  · rw [List.map_singleton, List.sum_singleton]

theorem weight_builtItems {s : Assignment} {ps : List Pattern}
    (ih : ∀ p ∈ ps, p.tidy = true → (p.built s).weight =
      p.bulk + (p.names.map fun n => (s n).weight).sum) (ht : tidyItems ps = true) :
    ((builtItems s ps).map Tree.weight).sum =
      bulkItems ps + ((namesItems ps).map fun n => (s n).weight).sum := by
  induction ps with
  | nil => rfl
  | cons p ps ihs =>
    rw [List.forall_mem_cons] at ih
    rw [tidyItems, Bool.and_eq_true] at ht
    rw [builtItems, List.map_append, List.sum_append, sum_weight_spliced, ih.1 ht.1, ihs ih.2 ht.2,
      bulkItems, namesItems, List.map_append, List.sum_append]
    omega

theorem exists_scalar_of_tidyFields {fs : List (String × Pattern)} (ht : tidyFields fs = true)
    {k : String} (hk : isIgnored k = true ∨ k = "type") {p : Pattern} (h : fs.lookup k = some p) :
    ∃ a, p = .scalar a := by
  induction fs with
  | nil => cases h
  | cons f fs ih =>
    obtain ⟨k', q⟩ := f
    rw [tidyFields, Bool.and_eq_true] at ht
    by_cases he : k = k'
    · subst he
      have hq : q = p := by simpa using h
      subst hq
      have ht := ht.1
      rw [if_pos (by simpa using hk)] at ht
      cases q with
      | scalar a => exact ⟨a, rfl⟩
      | hole _ => cases ht
      | list _ => cases ht
      | object _ => cases ht
    · rw [List.lookup_cons, beq_false_of_ne he] at h
      exact ih ht.2 h

theorem kind?_built_object {s : Assignment} {fs : List (String × Pattern)}
    (ht : tidyFields fs = true) : ((object fs).built s).kind? = (object fs).kind? := by
  cases hl : fs.lookup "type" with
  | none => simp [built, Tree.kind?, kind?, field?, lookup_builtFields, hl, Tree.text?]
  | some p =>
    obtain ⟨a, rfl⟩ := exists_scalar_of_tidyFields ht (Or.inr rfl) hl
    rw [Tree.kind?, get_built hl, kind?, field?, hl, built]
    cases a <;> rfl

theorem weight_builtFields {s : Assignment} {fs : List (String × Pattern)}
    (ih : ∀ f ∈ fs, f.2.tidy = true → (f.2.built s).weight =
      f.2.bulk + (f.2.names.map fun n => (s n).weight).sum) (ht : tidyFields fs = true) :
    ((builtFields s fs).map fun f => f.2.weight).sum =
      bulkFields fs + ((namesFields fs).map fun n => (s n).weight).sum := by
  induction fs with
  | nil => rfl
  | cons f fs ihs =>
    obtain ⟨k, p⟩ := f
    rw [List.forall_mem_cons] at ih
    rw [tidyFields, Bool.and_eq_true] at ht
    have hp : (p.built s).weight =
        p.bulk + ((if isIgnored k then [] else p.names).map fun n => (s n).weight).sum := by
      have ht := ht.1
      split at ht
      · cases p with
        | scalar a => split <;> rfl
        | hole _ => cases ht
        | list _ => cases ht
        | object _ => cases ht
      · rename_i hk
        rw [Bool.or_eq_true, not_or] at hk
        rw [if_neg hk.1]
        exact ih.1 ht
    rw [builtFields, List.map_cons, List.sum_cons, hp, ihs ih.2 ht.2, bulkFields, namesFields,
      List.map_append, List.sum_append]
    omega

theorem weight_built {s : Assignment} {p : Pattern} (ht : p.tidy = true) :
    (p.built s).weight = p.bulk + (p.names.map fun n => (s n).weight).sum := by
  induction p with
  | hole h => simp [built, bulk, names]
  | scalar a => rfl
  | list ps ih =>
    rw [built, Tree.weight_list, bulk, names]
    exact weight_builtItems ih ht
  | object fs ih =>
    rw [tidy, Bool.and_eq_true] at ht
    have hk := kind?_built_object (s := s) ht.2
    rw [built] at hk
    rw [built, Tree.weight_object, hk, weight_builtFields ih ht.2, bulk, names]
    omega

/-! ### What fits -/

theorem weight_capturedItems {ps : List Pattern}
    (ih : ∀ p ∈ ps, p.tidy = true → ∀ t, p.fits t = true →
      p.bulk + ((p.captured t).map fun e => e.2.weight).sum ≤ t.weight)
    (ht : tidyItems ps = true) {ts : List Tree} (h : fitsItems ps ts = true) :
    bulkItems ps + ((capturedItems ps ts).map fun e => e.2.weight).sum ≤
      (ts.map Tree.weight).sum := by
  induction ps generalizing ts with
  | nil => simp [bulkItems, capturedItems]
  | cons p ps ihs =>
    rw [List.forall_mem_cons] at ih
    rw [tidyItems, Bool.and_eq_true] at ht
    rw [bulkItems]
    cases hp : p.run? with
    | some g =>
      obtain ⟨run, rest, hrun, hts, hdrop, -⟩ := exists_run g ts (ts.length - minimumLength ps)
      have hb : p.bulk = 0 := by rw [eq_hole_of_run? hp]; rfl
      simp only [fitsItems, hp, runFrom, hrun, hdrop, Bool.and_eq_true] at h
      simp only [capturedItems, hp, runFrom, hrun, hdrop, List.map_cons, List.sum_cons,
        Tree.weight_list]
      have hrest := ihs ih.2 ht.2 h.2
      rw [hts, List.map_append, List.sum_append]
      omega
    | none =>
      cases ts with
      | nil => simp [fitsItems, hp] at h
      | cons t ts =>
        simp only [fitsItems, hp, Bool.and_eq_true] at h
        simp only [capturedItems, hp, List.headD_cons, List.tail_cons, List.map_append,
          List.sum_append, List.map_cons, List.sum_cons]
        have hfirst := ih.1 ht.1 t h.1
        have hrest := ihs ih.2 ht.2 h.2
        omega

theorem weight_capturedFields {fs : List (String × Pattern)}
    (ih : ∀ f ∈ fs, f.2.tidy = true → ∀ t, f.2.fits t = true →
      f.2.bulk + ((f.2.captured t).map fun e => e.2.weight).sum ≤ t.weight)
    (ht : tidyFields fs = true) {t : Tree}
    (h : ∀ f ∈ fs, isIgnored f.1 = false → f.2.fits (t.get f.1) = true) :
    bulkFields fs + ((capturedFields fs t).map fun e => e.2.weight).sum ≤
      ((fs.map (·.1)).map fun k => (t.get k).weight).sum := by
  induction fs with
  | nil => simp [bulkFields, capturedFields]
  | cons f fs ihs =>
    obtain ⟨k, p⟩ := f
    rw [List.forall_mem_cons] at ih h
    rw [tidyFields, Bool.and_eq_true] at ht
    have hrest := ihs ih.2 ht.2 h.2
    have hp : p.bulk + ((if isIgnored k then [] else p.captured (t.get k)).map
        fun e => e.2.weight).sum ≤ (t.get k).weight := by
      have ht := ht.1
      split at ht
      · cases p with
        | scalar a => split <;> exact Nat.zero_le _
        | hole _ => cases ht
        | list _ => cases ht
        | object _ => cases ht
      · rename_i hk
        rw [Bool.or_eq_true, not_or] at hk
        rw [if_neg hk.1]
        exact ih.1 ht _ (h.1 (Bool.of_not_eq_true hk.1))
    rw [bulkFields, capturedFields, List.map_append, List.sum_append]
    simp only [List.map_cons, List.sum_cons]
    omega

theorem weight_captured {p : Pattern} (ht : p.tidy = true) {t : Tree} (h : p.fits t = true) :
    p.bulk + ((p.captured t).map fun e => e.2.weight).sum ≤ t.weight := by
  induction p generalizing t with
  | hole g => simp [bulk, captured]
  | scalar a => simp [bulk, captured]
  | list ps ih =>
    cases t with
    | list ts =>
      rw [Tree.weight_list]
      exact weight_capturedItems (fun p hp ht t => ih p hp ht) ht h
    | scalar a => cases h
    | object tag gs => cases h
  | object fs ih =>
    obtain ⟨⟨tag, gs, rfl⟩, hall⟩ := fits_object_iff.mp h
    rw [tidy, Bool.and_eq_true, decide_eq_true_iff] at ht
    have hfields := weight_capturedFields (fun f hf ht t => ih f hf ht) ht.2 hall
    have hkeys := Tree.sum_weight_get_le ht.1 tag gs
    have hown : Tree.ownWeight (object fs).kind? ≤ Tree.ownWeight (Tree.object tag gs).kind? := by
      cases hk : (object fs).kind? with
      | none => exact Tree.one_le_ownWeight _
      | some kind => rw [kind?_of_fits hk h]
    rw [bulk, captured, Tree.weight_object]
    omega

theorem one_le_weight_of_accepts {h : Placeholder} {t : Tree} (ha : h.accepts t = true) :
    1 ≤ t.weight ∨ h.name ∈ (hole h).lightNames := by
  rw [lightNames]
  split
  · exact Or.inr (List.mem_singleton_self _)
  · rename_i hl
    rw [Bool.or_eq_true, not_or, beq_iff_eq] at hl
    refine Or.inl (Tree.one_le_weight ?_)
    unfold Placeholder.accepts at ha
    split at ha
    · rename_i hs
      exact absurd hs hl.2
    · split at ha
      · exact absurd ha hl.1
      · exact (Bool.and_eq_true _ _ ▸ ha).1

theorem one_le_weight_of_mem_capturedItems {ps : List Pattern}
    (ih : ∀ p ∈ ps, ∀ t, p.fits t = true →
      ∀ e ∈ p.captured t, 1 ≤ e.2.weight ∨ e.1 ∈ p.lightNames) {ts : List Tree}
    (h : fitsItems ps ts = true) :
    ∀ e ∈ capturedItems ps ts, 1 ≤ e.2.weight ∨ e.1 ∈ lightNamesItems ps := by
  induction ps generalizing ts with
  | nil => exact fun e he => absurd he List.not_mem_nil
  | cons p ps ihs =>
    rw [List.forall_mem_cons] at ih
    intro e he
    rw [lightNamesItems, List.mem_append]
    cases hp : p.run? with
    | some g =>
      obtain ⟨run, rest, hrun, hts, hdrop, hacc⟩ := exists_run g ts (ts.length - minimumLength ps)
      simp only [fitsItems, hp, runFrom, hrun, hdrop, Bool.and_eq_true] at h
      simp only [capturedItems, hp, runFrom, hrun, hdrop, List.mem_cons] at he
      rcases he with rfl | he
      · -- A run is empty only where it may be.
        cases run with
        | nil =>
          have ho : g.optional = true := by simpa using h.1
          rw [eq_hole_of_run? hp, lightNames, ho, Bool.true_or, if_pos rfl]
          exact Or.inr (Or.inl (List.mem_singleton_self _))
        | cons t run =>
          have hw := one_le_weight_of_accepts (hacc t List.mem_cons_self)
          rw [Tree.weight_list, List.map_cons, List.sum_cons, eq_hole_of_run? hp]
          rcases hw with hw | hw
          · exact Or.inl (by omega)
          · exact Or.inr (Or.inl hw)
      · exact (ihs ih.2 h.2 e he).imp_right Or.inr
    | none =>
      cases ts with
      | nil => simp [fitsItems, hp] at h
      | cons t ts =>
        simp only [fitsItems, hp, Bool.and_eq_true] at h
        simp only [capturedItems, hp, List.headD_cons, List.tail_cons, List.mem_append] at he
        rcases he with he | he
        · exact (ih.1 t h.1 e he).imp_right Or.inl
        · exact (ihs ih.2 h.2 e he).imp_right Or.inr

theorem one_le_weight_of_mem_captured {p : Pattern} {t : Tree} (h : p.fits t = true) :
    ∀ e ∈ p.captured t, 1 ≤ e.2.weight ∨ e.1 ∈ p.lightNames := by
  induction p generalizing t with
  | hole g =>
    intro e he
    rw [List.mem_singleton.mp he]
    exact one_le_weight_of_accepts h
  | scalar a => exact fun e he => absurd he List.not_mem_nil
  | list ps ih =>
    cases t with
    | list ts => exact one_le_weight_of_mem_capturedItems (fun p hp t => ih p hp) h
    | scalar a => cases h
    | object tag gs => cases h
  | object fs ih =>
    replace h := (fits_object_iff.mp h).2
    rw [captured, lightNames]
    induction fs with
    | nil => exact fun e he => absurd he List.not_mem_nil
    | cons f fs ihs =>
      obtain ⟨k, p⟩ := f
      rw [List.forall_mem_cons] at ih h
      intro e he
      rw [capturedFields, List.mem_append] at he
      rw [lightNamesFields, List.mem_append]
      rcases he with he | he
      · split at he
        · cases he
        · rename_i hk
          exact (ih.1 (h.1 (Bool.of_not_eq_true hk)) e he).imp_right Or.inl
      · exact (ihs ih.2 h.2 e he).imp_right Or.inr

def lightens (p q : Pattern) : Bool :=
  decide (q.names.Subperm p.names) &&
    decide (q.bulk < p.bulk + ((p.names.diff q.names).filter fun n => !p.lightNames.contains n).length)

theorem length_filter_le {w : String → Nat} {light l : List String}
    (h : ∀ n ∈ l, 1 ≤ w n ∨ n ∈ light) :
    (l.filter fun n => !light.contains n).length ≤ (l.map w).sum := by
  induction l with
  | nil => exact Nat.zero_le _
  | cons n l ih =>
    rw [List.forall_mem_cons] at h
    have ih := ih h.2
    rw [List.filter_cons, List.map_cons, List.sum_cons]
    split
    · rename_i hn
      have hw := h.1.resolve_right (by simpa using hn)
      rw [List.length_cons]
      omega
    · omega

theorem weight_lt_of_lightens {p q : Pattern} (hn : p.names.Nodup) (hp : p.tidy = true)
    (hq : q.tidy = true) (h : p.lightens q = true) {t : Tree} (ht : p.fits t = true) :
    (q.built (p.captured t).assignment).weight < t.weight := by
  rw [lightens, Bool.and_eq_true, decide_eq_true_iff, decide_eq_true_iff] at h
  let w (n : String) : Nat := ((p.captured t).assignment n).weight
  have hw : ∀ e ∈ p.captured t, w e.1 = e.2.weight := fun e he => by
    simp only [w, Captures.assignment, lookup_captured hn he, Option.getD_some]
  have htotal : ((p.captured t).map fun e => e.2.weight).sum = (p.names.map w).sum := by
    rw [← names_captured p t, List.map_map]
    exact congrArg List.sum (List.map_congr_left fun e he => (hw e he).symm)
  have hsplit : (p.names.map w).sum =
      (q.names.map w).sum + ((p.names.diff q.names).map w).sum := by
    rw [← ((List.subperm_append_diff_self_of_count_le
      (List.subperm_ext_iff.mp h.1)).map w).sum_eq, List.map_append, List.sum_append]
  -- Each name left over takes something.
  have hrest : ((p.names.diff q.names).filter fun n => !p.lightNames.contains n).length ≤
      ((p.names.diff q.names).map w).sum := by
    refine length_filter_le fun n hm => ?_
    have hm := (List.diff_sublist p.names q.names).subset hm
    rw [← names_captured p t] at hm
    obtain ⟨e, he, rfl⟩ := List.mem_map.mp hm
    rw [hw e he]
    exact one_le_weight_of_mem_captured ht e he
  have hle := weight_captured hp ht
  rw [weight_built hq]
  change q.bulk + (q.names.map w).sum < _
  omega

end Pattern

end Legible
