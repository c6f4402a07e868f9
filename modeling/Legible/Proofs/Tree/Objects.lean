import Legible.Proofs.Tree.Induction
import Legible.Scope.Item
import Legible.Tree.Tags
import Mathlib.Data.List.Nodup
import Mathlib.Data.List.Perm.Basic

namespace Legible

namespace Tree

mutual

def objects : Tree → List (Nat × Fields)
  | .scalar _ => []
  | .list ts => objectsItems ts
  | .object tag fs => (tag, fs) :: objectsFields fs
termination_by structural t => t

def objectsItems : List Tree → List (Nat × Fields)
  | [] => []
  | t :: ts => t.objects ++ objectsItems ts
termination_by structural ts => ts

def objectsFields : List (String × Tree) → List (Nat × Fields)
  | [] => []
  | (_, v) :: fs => v.objects ++ objectsFields fs
termination_by structural fs => fs

end

theorem objects_list (ts : List Tree) : (list ts).objects = ts.flatMap objects := by
  rw [objects]
  induction ts with
  | nil => rfl
  | cons t ts ih => rw [objectsItems, List.flatMap_cons, ih]

theorem objects_object (tag : Nat) (fs : Fields) :
    (object tag fs).objects = (tag, fs) :: fs.flatMap (·.2.objects) := by
  rw [objects]
  congr 1
  induction fs with
  | nil => rfl
  | cons f fs ih => rw [objectsFields, List.flatMap_cons, ih]

def tags (t : Tree) : List Nat :=
  t.objects.map (·.1)

theorem tags_list (ts : List Tree) : (list ts).tags = ts.flatMap tags := by
  simp only [tags, objects_list, List.map_flatMap]
  rfl

theorem tags_object (tag : Nat) (fs : Fields) :
    (object tag fs).tags = tag :: fs.flatMap (·.2.tags) := by
  simp only [tags, objects_object, List.map_cons, List.map_flatMap]

def identifier? (o : Nat × Fields) : Option Occurrence :=
  if o.2.kind = "Identifier" then some ⟨o.1, (object o.1 o.2).name⟩ else none

def identifiers (t : Tree) : List Occurrence :=
  t.objects.filterMap identifier?

theorem identifiers_list (ts : List Tree) : (list ts).identifiers = ts.flatMap identifiers := by
  simp only [identifiers, objects_list, List.filterMap_flatMap]
  rfl

theorem identifiers_object (tag : Nat) (fs : Fields) :
    (object tag fs).identifiers =
      (identifier? (tag, fs)).toList ++ fs.flatMap (·.2.identifiers) := by
  simp only [identifiers, objects_object, List.filterMap_cons, List.filterMap_flatMap]
  cases identifier? (tag, fs) <;> rfl

theorem tag_mem_of_mem_identifiers {t : Tree} {o : Occurrence} (h : o ∈ t.identifiers) :
    o.tag ∈ t.tags := by
  obtain ⟨x, hx, ho⟩ := List.mem_filterMap.mp h
  simp only [identifier?] at ho
  split at ho
  · obtain rfl := Option.some.inj ho
    exact List.mem_map_of_mem hx
  · cases ho

end Tree

def Fields.fits (fs : Fields) : Bool :=
  (!(["FunctionDeclaration", "FunctionExpression", "ClassDeclaration",
      "ClassExpression"].contains fs.kind) ||
    (fs.get "id").isNull || (fs.get "id").isKind "Identifier") &&
  (!(["ImportDeclaration", "ExportNamedDeclaration"].contains fs.kind) ||
    (fs.get "specifiers").items.all fun u => (u.get "local").isKind "Identifier")

namespace Tree

/-- Field names are distinct, tags tell objects apart where there are any, and names stand where
names have to stand. -/
def wellFormed (t : Tree) : Bool :=
  t.distinct && decide (t.tags.filter (· ≠ 0)).Nodup && t.objects.all (·.2.fits)

structure Numbered (t : Tree) : Prop where
  distinct : t.distinct = true
  nodup : t.tags.Nodup
  zero : 0 ∉ t.tags
  fits : ∀ o ∈ t.objects, o.2.fits = true

theorem Numbered.nodup_identifiers {t : Tree} (ht : t.Numbered) :
    (t.identifiers.map (·.tag)).Nodup := by
  have hs : (t.identifiers.map (·.tag)).Sublist t.tags := by
    rw [identifiers, tags]
    induction t.objects with
    | nil => exact .slnil
    | cons o os ih =>
      rw [List.filterMap_cons, identifier?]
      split
      · exact ih.cons _
      · rename_i ho
        split at ho
        · obtain rfl := Option.some.inj ho
          exact ih.cons_cons _
        · cases ho
  exact ht.nodup.sublist hs

theorem Numbered.name_eq {t : Tree} (ht : t.Numbered) {a b : Occurrence} (ha : a ∈ t.identifiers)
    (hb : b ∈ t.identifiers) (h : a.tag = b.tag) : a.name = b.name := by
  obtain ⟨x, hx, ha⟩ := List.mem_filterMap.mp ha
  obtain ⟨y, hy, hb⟩ := List.mem_filterMap.mp hb
  simp only [identifier?] at ha hb
  split at ha
  · split at hb
    · obtain rfl := Option.some.inj ha
      obtain rfl := Option.some.inj hb
      rw [List.inj_on_of_nodup_map ht.nodup hx hy h]
    · cases hb
  · cases ha

theorem Numbered.kind_eq {t : Tree} (ht : t.Numbered) {a : Occurrence} (ha : a ∈ t.identifiers)
    {tag : Nat} {fs : Fields} (ho : (tag, fs) ∈ t.objects) (h : tag = a.tag) :
    fs.kind = "Identifier" := by
  obtain ⟨x, hx, ha⟩ := List.mem_filterMap.mp ha
  simp only [identifier?] at ha
  split at ha
  · rename_i hk
    obtain rfl := Option.some.inj ha
    have he : (tag, fs) = x := List.inj_on_of_nodup_map ht.nodup ho hx h
    rwa [← he] at hk
  · cases ha

/-! ### Numbering -/

theorem perm_numbered_append {xs ys us vs : List Nat} {n : Nat}
    (hx : us.Perm (xs.filter (· ≠ 0) ++ List.range' n (xs.count 0)))
    (hy : vs.Perm (ys.filter (· ≠ 0) ++ List.range' (n + xs.count 0) (ys.count 0))) :
    (us ++ vs).Perm
      ((xs ++ ys).filter (· ≠ 0) ++ List.range' n ((xs ++ ys).count 0)) := by
  refine (hx.append hy).trans ?_
  rw [List.filter_append, List.count_append, ← List.range'_append_1]
  simp only [List.append_assoc]
  refine List.Perm.append_left _ ?_
  rw [← List.append_assoc, ← List.append_assoc]
  exact List.perm_append_comm.append_right _

theorem numberFrom_tags (t : Tree) (n : Nat) :
    (t.numberFrom n).2 = n + t.tags.count 0 ∧
      (t.numberFrom n).1.tags.Perm
        (t.tags.filter (· ≠ 0) ++ List.range' n (t.tags.count 0)) := by
  induction t generalizing n with
  | scalar a => exact ⟨rfl, .refl _⟩
  | list ts ih =>
    rw [numberFrom]
    simp only [tags_list]
    induction ts generalizing n with
    | nil => exact ⟨rfl, .refl _⟩
    | cons t ts ihs =>
      rw [List.forall_mem_cons] at ih
      obtain ⟨h, hp⟩ := ih.1 n
      obtain ⟨hs, hps⟩ := ihs ih.2 (n + t.tags.count 0)
      simp only [numberItems, h, List.flatMap_cons]
      exact ⟨by rw [hs, List.count_append, Nat.add_assoc], perm_numbered_append hp hps⟩
  | object tag fs ih =>
    have hfs : ∀ n, (numberFields n fs).2 = n + (fs.flatMap (·.2.tags)).count 0 ∧
        ((numberFields n fs).1.flatMap (·.2.tags)).Perm
          ((fs.flatMap (·.2.tags)).filter (· ≠ 0) ++
            List.range' n ((fs.flatMap (·.2.tags)).count 0)) := by
      induction fs with
      | nil => exact fun n => ⟨rfl, .refl _⟩
      | cons f fs ihs =>
        intro n
        rw [List.forall_mem_cons] at ih
        obtain ⟨h, hp⟩ := ih.1 n
        obtain ⟨hs, hps⟩ := ihs ih.2 (n + f.2.tags.count 0)
        simp only [numberFields, h, List.flatMap_cons]
        exact ⟨by rw [hs, List.count_append, Nat.add_assoc], perm_numbered_append hp hps⟩
    rw [numberFrom]
    simp only [tags_object]
    by_cases htag : tag = 0
    · obtain ⟨h, hp⟩ := hfs (n + 1)
      simp only [htag, if_true, List.count_cons_self]
      refine ⟨by rw [h]; omega, (hp.cons n).trans ?_⟩
      rw [List.range'_succ, List.filter_cons_of_neg (by simp)]
      exact List.perm_middle.symm
    · obtain ⟨h, hp⟩ := hfs n
      simp only [htag, if_false]
      rw [List.count_cons_of_ne htag, List.filter_cons_of_pos (by simpa using htag)]
      exact ⟨h, hp.cons tag⟩

theorem le_maxTag {t : Tree} {tag : Nat} (h : tag ∈ t.tags) : tag ≤ t.maxTag := by
  induction t with
  | scalar a => cases h
  | list ts ih =>
    rw [tags_list] at h
    rw [maxTag]
    induction ts with
    | nil => cases h
    | cons t ts ihs =>
      rw [List.forall_mem_cons] at ih
      rw [List.flatMap_cons, List.mem_append] at h
      rw [maxTagItems]
      rcases h with h | h
      · exact Nat.le_trans (ih.1 h) (Nat.le_max_left ..)
      · exact Nat.le_trans (ihs ih.2 h) (Nat.le_max_right ..)
  | object n fs ih =>
    rw [tags_object, List.mem_cons] at h
    rw [maxTag]
    rcases h with rfl | h
    · exact Nat.le_max_left ..
    refine Nat.le_trans ?_ (Nat.le_max_right ..)
    induction fs with
    | nil => cases h
    | cons f fs ihs =>
      rw [List.forall_mem_cons] at ih
      rw [List.flatMap_cons, List.mem_append] at h
      rw [maxTagFields]
      rcases h with h | h
      · exact Nat.le_trans (ih.1 h) (Nat.le_max_left ..)
      · exact Nat.le_trans (ihs ih.2 h) (Nat.le_max_right ..)

theorem numbered_tags {t : Tree} (h : (t.tags.filter (· ≠ 0)).Nodup) :
    t.numbered.tags.Nodup ∧ 0 ∉ t.numbered.tags := by
  have hp := (numberFrom_tags t (t.maxTag + 1)).2
  rw [← numbered] at hp
  refine ⟨hp.nodup_iff.mpr (List.nodup_append.mpr ⟨h, List.nodup_range', fun a ha b hb => ?_⟩),
    fun h0 => ?_⟩
  · have := le_maxTag (List.mem_filter.mp ha).1
    have := (List.mem_range'_1.mp hb).1
    omega
  · rcases List.mem_append.mp (hp.mem_iff.mp h0) with h0 | h0
    · simpa using (List.mem_filter.mp h0).2
    · have := (List.mem_range'_1.mp h0).1
      omega

/-! ### What numbering leaves alone -/

mutual

def untagged : Tree → Tree
  | .scalar a => .scalar a
  | .list ts => .list (untaggedItems ts)
  | .object _ fs => .object 0 (untaggedFields fs)
termination_by structural t => t

def untaggedItems : List Tree → List Tree
  | [] => []
  | t :: ts => t.untagged :: untaggedItems ts
termination_by structural ts => ts

def untaggedFields : List (String × Tree) → Fields
  | [] => []
  | (k, v) :: fs => (k, v.untagged) :: untaggedFields fs
termination_by structural fs => fs

end

theorem untaggedItems_eq (ts : List Tree) : untaggedItems ts = ts.map untagged := by
  induction ts with
  | nil => rfl
  | cons t ts ih => rw [untaggedItems, List.map_cons, ih]

theorem untaggedFields_eq (fs : Fields) :
    untaggedFields fs = fs.map fun f => (f.1, f.2.untagged) := by
  induction fs with
  | nil => rfl
  | cons f fs ih => rw [untaggedFields, List.map_cons, ih]

theorem untagged_numberFrom (t : Tree) (n : Nat) : (t.numberFrom n).1.untagged = t.untagged := by
  induction t generalizing n with
  | scalar a => rfl
  | list ts ih =>
    simp only [numberFrom, untagged, list.injEq]
    induction ts generalizing n with
    | nil => rfl
    | cons t ts ihs =>
      rw [List.forall_mem_cons] at ih
      simp only [numberItems, untaggedItems, ih.1, ihs ih.2]
  | object tag fs ih =>
    have hfs : ∀ n, untaggedFields (numberFields n fs).1 = untaggedFields fs := by
      induction fs with
      | nil => exact fun _ => rfl
      | cons f fs ihs =>
        intro n
        rw [List.forall_mem_cons] at ih
        simp only [numberFields, untaggedFields, ih.1, ihs ih.2]
    simp only [numberFrom, untagged, hfs]

theorem untagged_numbered (t : Tree) : t.numbered.untagged = t.untagged :=
  untagged_numberFrom t _

theorem objects_untagged (t : Tree) :
    t.untagged.objects = t.objects.map fun o => (0, untaggedFields o.2) := by
  induction t with
  | scalar a => rfl
  | list ts ih =>
    rw [untagged, untaggedItems_eq, objects_list, objects_list, List.flatMap_map, List.map_flatMap]
    exact List.flatMap_congr ih
  | object tag fs ih =>
    rw [untagged, objects_object, objects_object, List.map_cons, List.map_flatMap,
      untaggedFields_eq, List.flatMap_map]
    exact congrArg _ (List.flatMap_congr ih)

theorem get_untaggedFields (fs : Fields) (k : String) :
    Fields.get k (untaggedFields fs) = (fs.get k).untagged := by
  induction fs with
  | nil => rfl
  | cons f fs ih =>
    obtain ⟨k', v⟩ := f
    simp only [untaggedFields, Fields.get, List.lookup_cons] at ih ⊢
    cases k == k' with
    | true => rfl
    | false => exact ih

theorem text?_untagged (t : Tree) : t.untagged.text? = t.text? := by
  cases t <;> rfl

theorem isNull_untagged (t : Tree) : t.untagged.isNull = t.isNull := by
  cases t <;> rfl

theorem get_untagged (t : Tree) (k : String) : t.untagged.get k = (t.get k).untagged := by
  cases t with
  | scalar a => rfl
  | list ts => rfl
  | object tag fs => exact get_untaggedFields fs k

theorem isKind_untagged (t : Tree) (kind : String) : t.untagged.isKind kind = t.isKind kind := by
  rw [isKind, kind?, get_untagged, text?_untagged, isKind, kind?]

theorem items_untagged (t : Tree) : t.untagged.items = t.items.map untagged := by
  cases t with
  | scalar a => rfl
  | list ts => exact untaggedItems_eq ts
  | object tag fs => rfl

theorem distinct_untagged (t : Tree) : t.untagged.distinct = t.distinct := by
  induction t with
  | scalar a => rfl
  | list ts ih =>
    rw [Bool.eq_iff_iff, untagged, untaggedItems_eq, distinct_list, distinct_list,
      List.forall_mem_map]
    exact forall₂_congr fun t h => by rw [ih t h]
  | object tag fs ih =>
    rw [Bool.eq_iff_iff, untagged, untaggedFields_eq, distinct_object, distinct_object,
      List.forall_mem_map, List.map_map]
    exact and_congr_right' (forall₂_congr fun f h => by rw [ih f h])

end Tree

namespace Fields

theorem kind_eq (fs : Fields) : fs.kind = ((fs.get "type").text?).getD "" := by
  rw [kind, get]
  cases fs.lookup "type" <;> rfl

theorem kind_untaggedFields (fs : Fields) : kind (Tree.untaggedFields fs) = fs.kind := by
  rw [kind_eq, Tree.get_untaggedFields, Tree.text?_untagged, kind_eq]

theorem fits_untaggedFields (fs : Fields) : fits (Tree.untaggedFields fs) = fs.fits := by
  simp only [fits, kind_untaggedFields, Tree.get_untaggedFields, Tree.isNull_untagged,
    Tree.isKind_untagged, Tree.items_untagged, List.all_map, Function.comp_def, Tree.get_untagged]

end Fields

namespace Tree

theorem names_untagged (t : Tree) :
    t.untagged.identifiers.map (·.name) = t.identifiers.map (·.name) := by
  simp only [identifiers, objects_untagged, List.filterMap_map, List.map_filterMap]
  refine List.filterMap_congr fun o _ => ?_
  simp only [Function.comp_apply, identifier?, Fields.kind_untaggedFields]
  split
  · exact congrArg (fun n => some (n.getD "")) ((congrArg text? (get_untaggedFields o.2 "name")).trans
      (text?_untagged _))
  · rfl

theorem names_numbered (t : Tree) :
    t.numbered.identifiers.map (·.name) = t.identifiers.map (·.name) := by
  rw [← names_untagged, untagged_numbered, names_untagged]

theorem isKind_numbered (t : Tree) (kind : String) : t.numbered.isKind kind = t.isKind kind := by
  rw [← isKind_untagged, untagged_numbered, isKind_untagged]

theorem forall_objects_numbered {P : Fields → Prop} (hP : ∀ fs, P (untaggedFields fs) ↔ P fs)
    {t : Tree} (h : ∀ o ∈ t.objects, P o.2) : ∀ o ∈ t.numbered.objects, P o.2 := by
  intro o ho
  have hm : (0, untaggedFields o.2) ∈ t.untagged.objects := by
    rw [← untagged_numbered, objects_untagged]
    exact List.mem_map_of_mem ho
  rw [objects_untagged] at hm
  obtain ⟨o', ho', he⟩ := List.mem_map.mp hm
  rw [← hP, ← (Prod.mk.inj he).2, hP]
  exact h o' ho'

theorem wellFormed.numbered {t : Tree} (h : t.wellFormed = true) : t.numbered.Numbered := by
  simp only [wellFormed, Bool.and_eq_true, decide_eq_true_iff, List.all_eq_true] at h
  obtain ⟨⟨hd, htags⟩, hf⟩ := h
  obtain ⟨hn, h0⟩ := numbered_tags htags
  refine ⟨by rw [← distinct_untagged, untagged_numbered, distinct_untagged, hd], hn, h0, ?_⟩
  exact forall_objects_numbered (P := fun fs => fs.fits = true)
    (fun fs => by rw [Fields.fits_untaggedFields]) hf

end Tree

end Legible
