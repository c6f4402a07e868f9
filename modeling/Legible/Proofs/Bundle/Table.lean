import Legible.Bundle.Id
import Mathlib.Data.List.Nodup

namespace Legible.Bundle

theorem sameId_iff {a b : Id} : sameId a b = true ↔ Key.of a = Key.of b :=
  beq_iff_eq

theorem containsId_iff {ids : List Id} {id : Id} :
    containsId ids id = true ↔ ∃ a ∈ ids, Key.of a = Key.of id := by
  simp only [containsId, List.any_eq_true, sameId_iff]

namespace Table

variable {α : Type} {t : Table α} {a b : Id} {v w : α}

def keys (t : Table α) : List Key :=
  t.map fun e => Key.of e.1

theorem mem_keys {k : Key} : k ∈ t.keys ↔ ∃ e ∈ t, Key.of e.1 = k :=
  List.mem_map

theorem contains_iff : t.contains a = true ↔ Key.of a ∈ t.keys := by
  simp only [contains, List.any_eq_true, sameId_iff, mem_keys]

theorem contains_eq_false_iff : t.contains a = false ↔ Key.of a ∉ t.keys := by
  rw [← Bool.not_eq_true, contains_iff]

@[simp]
theorem get?_nil : get? ([] : Table α) a = none := rfl

theorem get?_cons (e : Id × α) :
    get? (e :: t) a = if Key.of e.1 = Key.of a then some e.2 else get? t a := by
  rw [get?, List.find?_cons]
  by_cases h : Key.of e.1 = Key.of a
  · rw [sameId_iff.mpr h, if_pos h]
    rfl
  · rw [if_neg h, Bool.of_not_eq_true (mt sameId_iff.mp h)]
    rfl

theorem get?_congr (h : Key.of a = Key.of b) : t.get? a = t.get? b := by
  induction t with
  | nil => rfl
  | cons e t ih => rw [get?_cons, get?_cons, h, ih]

theorem get?_eq_none_iff : t.get? a = none ↔ Key.of a ∉ t.keys := by
  induction t with
  | nil => simp [keys]
  | cons e t ih =>
    rw [get?_cons]
    simp only [keys, List.map_cons, List.mem_cons] at ih ⊢
    by_cases h : Key.of e.1 = Key.of a
    · simp [h]
    · simp [h, ih, Ne.symm h]

theorem exists_get?_iff : (∃ v, t.get? a = some v) ↔ Key.of a ∈ t.keys := by
  rw [← Option.ne_none_iff_exists', Ne, get?_eq_none_iff, not_not]

theorem mem_keys_of_get? (h : t.get? a = some v) : Key.of a ∈ t.keys :=
  exists_get?_iff.mp ⟨v, h⟩

theorem get?_of_mem (hn : t.keys.Nodup) {e : Id × α} (he : e ∈ t) : t.get? e.1 = some e.2 := by
  induction t with
  | nil => cases he
  | cons x t ih =>
    rw [keys, List.map_cons, List.nodup_cons] at hn
    rw [get?_cons]
    rcases List.mem_cons.mp he with rfl | he
    · rw [if_pos rfl]
    · rw [if_neg fun h => hn.1 (mem_keys.mpr ⟨e, he, h.symm⟩), ih hn.2 he]

theorem get?_append (s : Table α) : get? (t ++ s) a = (t.get? a).or (s.get? a) := by
  induction t with
  | nil => rfl
  | cons e t ih =>
    rw [List.cons_append, get?_cons, get?_cons, ih]
    split <;> rfl

theorem get?_of_prefix {s : Table α} (hp : t <+: s) (h : t.get? a = some v) : s.get? a = some v := by
  obtain ⟨r, rfl⟩ := hp
  rw [get?_append, h, Option.some_or]

theorem keys_append (t s : Table α) : keys (t ++ s) = t.keys ++ s.keys :=
  List.map_append

theorem insert_of_notMem (h : Key.of a ∉ t.keys) (v : α) : t.insert a v = t ++ [(a, v)] := by
  induction t with
  | nil => rfl
  | cons e t ih =>
    rw [keys, List.map_cons, List.mem_cons, not_or] at h
    rw [insert, if_neg (mt sameId_iff.mp (Ne.symm h.1)), ih h.2, List.cons_append]

theorem get?_insert (t : Table α) (a : Id) (v : α) (b : Id) :
    (t.insert a v).get? b = if Key.of a = Key.of b then some v else t.get? b := by
  induction t with
  | nil => rw [insert, get?_cons]
  | cons e t ih =>
    rw [insert]
    split
    · rename_i h
      rw [sameId_iff] at h
      rw [get?_cons, get?_cons, h]
      split <;> rfl
    · rename_i h
      rw [sameId_iff] at h
      rw [get?_cons, get?_cons, ih]
      split
      · rename_i hb
        rw [if_neg fun hab => h (hb.trans hab.symm)]
      · rfl

theorem keys_insert (t : Table α) (a : Id) (v : α) :
    (t.insert a v).keys = if Key.of a ∈ t.keys then t.keys else t.keys ++ [Key.of a] := by
  by_cases h : Key.of a ∈ t.keys
  · rw [if_pos h]
    induction t with
    | nil => cases h
    | cons e t ih =>
      rw [insert]
      split
      · rfl
      · rename_i he
        rw [keys, List.map_cons, List.mem_cons] at h
        have hm := h.resolve_left fun ha => he (sameId_iff.mpr ha.symm)
        exact congrArg (Key.of e.1 :: ·) (ih hm)
  · rw [if_neg h, insert_of_notMem h, keys_append]
    rfl

theorem mem_keys_insert {k : Key} : k ∈ (t.insert a v).keys ↔ k = Key.of a ∨ k ∈ t.keys := by
  rw [keys_insert]
  split
  · rename_i h
    exact ⟨Or.inr, fun hk => hk.elim (fun hk => hk ▸ h) id⟩
  · rw [List.mem_append, List.mem_singleton, or_comm]

theorem nodup_insert (h : t.keys.Nodup) (a : Id) (v : α) : (t.insert a v).keys.Nodup := by
  rw [keys_insert]
  split
  · exact h
  · rename_i ha
    rw [List.nodup_append]
    refine ⟨h, List.nodup_singleton _, fun k hk j hj he => ha ?_⟩
    rwa [← List.mem_singleton.mp hj, ← he]

/-! ### Several entries -/

def insertAll (t : Table α) (ws : List (Id × α)) : Table α :=
  ws.foldl (fun t w => t.insert w.1 w.2) t

variable {ws : List (Id × α)}

@[simp]
theorem insertAll_nil (t : Table α) : t.insertAll [] = t := rfl

theorem insertAll_cons (t : Table α) (e : Id × α) (ws : List (Id × α)) :
    t.insertAll (e :: ws) = (t.insert e.1 e.2).insertAll ws := rfl

theorem insertAll_append (t : Table α) (ws us : List (Id × α)) :
    t.insertAll (ws ++ us) = (t.insertAll ws).insertAll us :=
  List.foldl_append

theorem mem_keys_insertAll {k : Key} :
    k ∈ (t.insertAll ws).keys ↔ k ∈ t.keys ∨ ∃ e ∈ ws, Key.of e.1 = k := by
  induction ws generalizing t with
  | nil => simp
  | cons e ws ih =>
    rw [insertAll_cons, ih, mem_keys_insert]
    simp only [List.mem_cons, exists_eq_or_imp]
    tauto

theorem keys_insertAll (t : Table α) (ws : List (Id × α)) : (t.insertAll ws).keys =
    t.keys ++ ((ws.map fun w => Key.of w.1).filter (· ∉ t.keys)).eraseDups := by
  induction ws generalizing t with
  | nil => simp
  | cons w ws ih =>
    rw [insertAll_cons, ih, keys_insert, List.map_cons]
    by_cases hw : Key.of w.1 ∈ t.keys
    · simp [hw]
    · have hlater : (ws.map fun w => Key.of w.1).filter (· ∉ t.keys ++ [Key.of w.1]) =
          ((ws.map fun w => Key.of w.1).filter (· ∉ t.keys)).filter (!· == Key.of w.1) := by
        rw [List.filter_filter]
        refine List.filter_congr fun k _ => ?_
        by_cases hk : k = Key.of w.1 <;> simp [hk]
      rw [if_neg hw, hlater, List.filter_cons_of_pos (by simpa using hw), List.eraseDups_cons,
        List.append_assoc, List.singleton_append]

theorem nodup_insertAll (h : t.keys.Nodup) (ws : List (Id × α)) : (t.insertAll ws).keys.Nodup := by
  induction ws generalizing t with
  | nil => exact h
  | cons e ws ih => exact ih (nodup_insert h e.1 e.2)

theorem get?_insertAll_of_notMem (h : ∀ e ∈ ws, Key.of e.1 ≠ Key.of a) :
    (t.insertAll ws).get? a = t.get? a := by
  induction ws generalizing t with
  | nil => rfl
  | cons e ws ih =>
    rw [List.forall_mem_cons] at h
    rw [insertAll_cons, ih h.2, get?_insert, if_neg h.1]

theorem exists_of_mem_insertAll (h : ∃ e ∈ ws, Key.of e.1 = Key.of a) :
    ∃ l e r, ws = l ++ e :: r ∧ Key.of e.1 = Key.of a ∧ (∀ x ∈ r, Key.of x.1 ≠ Key.of a) ∧
      ∀ t : Table α, (t.insertAll ws).get? a = some e.2 := by
  induction ws with
  | nil => simp at h
  | cons e ws ih =>
    by_cases hws : ∃ x ∈ ws, Key.of x.1 = Key.of a
    · obtain ⟨l, x, r, rfl, hx, hr, hget⟩ := ih hws
      exact ⟨e :: l, x, r, rfl, hx, hr, fun t => hget _⟩
    · have hno : ∀ x ∈ ws, Key.of x.1 ≠ Key.of a := fun x hx he => hws ⟨x, hx, he⟩
      obtain ⟨x, hx, he⟩ := h
      obtain rfl : x = e := (List.mem_cons.mp hx).resolve_right fun hm => hno x hm he
      refine ⟨[], x, ws, rfl, he, hno, fun t => ?_⟩
      rw [insertAll_cons, get?_insertAll_of_notMem hno, get?_insert, if_pos he]

def Stable (ws : List (Id × α)) : Prop :=
  ws.Pairwise fun w v => Key.of w.1 = Key.of v.1 → w.2 = v.2

theorem stable_of_nodup (h : (ws.map fun w => Key.of w.1).Nodup) : Stable ws :=
  (List.pairwise_map.mp h).imp fun hne he => absurd he hne

theorem Stable.get?_insertAll (h : Stable ws) {e : Id × α} (he : e ∈ ws) (t : Table α) :
    (t.insertAll ws).get? e.1 = some e.2 := by
  obtain ⟨l, x, r, rfl, hx, hr, hget⟩ := exists_of_mem_insertAll ⟨e, he, rfl⟩
  rw [hget]
  rcases List.mem_append.mp he with he | he
  · exact congrArg some ((List.pairwise_append.mp h).2.2 e he x List.mem_cons_self hx.symm).symm
  · rcases List.mem_cons.mp he with rfl | he
    · rfl
    · exact absurd rfl (hr e he)

theorem insertAll_of_nodup (h : (t.keys ++ ws.map fun e => Key.of e.1).Nodup) :
    t.insertAll ws = t ++ ws := by
  induction ws generalizing t with
  | nil => exact (List.append_nil t).symm
  | cons e ws ih =>
    have hmem : Key.of e.1 ∉ t.keys := fun hm =>
      (List.nodup_append.mp h).2.2 _ hm _ List.mem_cons_self rfl
    have hkeys : (t.insert e.1 e.2).keys = t.keys ++ [Key.of e.1] := by
      rw [keys_insert, if_neg hmem]
    rw [insertAll_cons, ih, insert_of_notMem hmem, List.append_assoc]
    · rfl
    · rwa [hkeys, List.append_assoc]

end Table

end Legible.Bundle
