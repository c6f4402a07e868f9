import Legible.Proofs.Tree.Objects
import Legible.Tree.Tags

namespace Legible

namespace Names

variable {names : Names}

structure Suits (names : Names) (t : Tree) : Prop where
  zero : names[0]? = none
  others : ∀ o ∈ t.objects, o.2.kind ≠ "Identifier" → names[o.1]? = none

def newFields (names : Names) (tag : Nat) (fs : Fields) : Fields :=
  match names[tag]? with
  | some name => Fields.set "name" (.text name) (names.applyFields fs)
  | none => names.applyFields fs

theorem apply_object (names : Names) (tag : Nat) (fs : Fields) :
    names.apply (.object tag fs) = .object tag (names.newFields tag fs) := by
  rw [apply, newFields]
  cases names[tag]? <;> rfl

theorem apply_list (names : Names) (ts : List Tree) :
    names.apply (.list ts) = .list (ts.map names.apply) := by
  rw [apply]
  congr 1
  induction ts with
  | nil => rfl
  | cons t ts ih => rw [applyItems, List.map_cons, ih]

theorem applyFields_eq (names : Names) (fs : Fields) :
    names.applyFields fs = fs.map fun f => (f.1, names.apply f.2) := by
  induction fs with
  | nil => rfl
  | cons f fs ih => rw [applyFields, List.map_cons, ih]

theorem lookup_applyFields (names : Names) (fs : Fields) (k : String) :
    (names.applyFields fs).lookup k = (fs.lookup k).map names.apply := by
  induction fs with
  | nil => rfl
  | cons f fs ih =>
    obtain ⟨k', v⟩ := f
    rw [applyFields, List.lookup_cons, List.lookup_cons]
    cases k == k' with
    | true => rfl
    | false => exact ih

theorem lookup_newFields {tag : Nat} {fs : Fields} {k : String}
    (h : k = "name" → names[tag]? = none) :
    (names.newFields tag fs).lookup k = (fs.lookup k).map names.apply := by
  rw [newFields]
  cases hn : names[tag]? with
  | none => exact lookup_applyFields names fs k
  | some name =>
    have hk : k ≠ "name" := fun he => by rw [h he] at hn; cases hn
    exact (Fields.lookup_set_of_ne hk _ _).trans (lookup_applyFields names fs k)

theorem get_newFields {tag : Nat} {fs : Fields} {k : String} (h : k = "name" → names[tag]? = none) :
    (names.newFields tag fs).get k = names.apply (fs.get k) := by
  rw [Fields.get, lookup_newFields h, Fields.get]
  cases fs.lookup k <;> rfl

theorem text?_apply (names : Names) (t : Tree) : (names.apply t).text? = t.text? := by
  cases t with
  | scalar a => rfl
  | list ts => rfl
  | object tag fs => rw [apply_object]; rfl

theorem isNull_apply (names : Names) (t : Tree) : (names.apply t).isNull = t.isNull := by
  cases t with
  | scalar a => rfl
  | list ts => rfl
  | object tag fs => rw [apply_object]; rfl

theorem tag_apply (names : Names) (t : Tree) : (names.apply t).tag = t.tag := by
  cases t with
  | scalar a => rfl
  | list ts => rfl
  | object tag fs => rw [apply_object]; rfl

theorem get_apply {t : Tree} {k : String} (h : k ≠ "name") :
    (names.apply t).get k = names.apply (t.get k) := by
  cases t with
  | scalar a => rfl
  | list ts => rfl
  | object tag fs =>
    rw [apply_object]
    exact get_newFields fun he => absurd he h

theorem isKind_apply (names : Names) (t : Tree) (kind : String) :
    (names.apply t).isKind kind = t.isKind kind := by
  rw [Tree.isKind, Tree.kind?, get_apply (by decide), text?_apply, Tree.isKind, Tree.kind?]

theorem isNode_apply (names : Names) (t : Tree) : (names.apply t).isNode = t.isNode := by
  cases t with
  | scalar a => rfl
  | list ts => rfl
  | object tag fs =>
    have h : (names.newFields tag fs).lookup "type" = (List.lookup "type" fs).map names.apply :=
      lookup_newFields fun he => absurd he (by decide)
    rw [apply_object, Tree.isNode, Tree.field?, Tree.fields, h, Option.isSome_map]
    rfl

theorem holdsNode_apply (names : Names) (t : Tree) : (names.apply t).holdsNode = t.holdsNode := by
  cases t with
  | scalar a => rfl
  | list ts =>
    rw [apply_list, Tree.holdsNode, List.any_map, Tree.holdsNode]
    exact congrArg (List.any ts) (funext (isNode_apply names))
  | object tag fs =>
    have h := isNode_apply names (.object tag fs)
    rw [apply_object] at h ⊢
    exact h

theorem kind_newFields (names : Names) (tag : Nat) (fs : Fields) :
    (names.newFields tag fs).kind = fs.kind := by
  rw [Fields.kind_eq, get_newFields fun he => absurd he (by decide), text?_apply, Fields.kind_eq]

theorem flag_newFields (names : Names) (tag : Nat) (fs : Fields) {k : String} (h : k ≠ "name") :
    (names.newFields tag fs).flag k = fs.flag k := by
  rw [Fields.flag, get_newFields fun he => absurd he h, Fields.flag]
  cases fs.get k with
  | scalar a => rfl
  | list ts => rfl
  | object tag fs => rw [apply_object]

theorem childKeys_newFields {tag : Nat} {fs : Fields}
    (h : fs.kind ≠ "Identifier" → names[tag]? = none) :
    (names.newFields tag fs).childKeys = fs.childKeys := by
  have htype : ∀ gs : Fields, (gs.lookup "type").bind Tree.text? = (gs.get "type").text? := by
    intro gs
    rw [Fields.get]
    cases gs.lookup "type" <;> rfl
  rw [Fields.childKeys, Fields.childKeys, htype, htype,
    get_newFields fun he => absurd he (by decide), text?_apply]
  by_cases hk : fs.kind = "Identifier"
  · -- An identifier has no children at all.
    have hid : (fs.get "type").text? = some "Identifier" := by
      rw [Fields.kind_eq] at hk
      cases hx : (fs.get "type").text? with
      | none => rw [hx] at hk; exact absurd hk (by decide)
      | some x => rw [hx] at hk; exact congrArg some hk
    rw [hid]
    rfl
  · rw [newFields, h hk, applyFields_eq]
    split
    · rfl
    · rw [List.filter_map, List.map_map]
      simp only [Function.comp_def, holdsNode_apply]

theorem apply_of_isEmpty (h : names.isEmpty = true) (t : Tree) : names.apply t = t := by
  induction t with
  | scalar a => rfl
  | list ts ih => rw [apply_list, List.map_congr_left ih, List.map_id']
  | object tag fs ih =>
    have hfields : names.applyFields fs = fs := by
      have hmap : ∀ f ∈ fs, (f.1, names.apply f.2) = f := fun f hf => Prod.ext rfl (ih f hf)
      rw [applyFields_eq, List.map_congr_left hmap, List.map_id']
    rw [apply_object, newFields, hfields, Std.HashMap.getElem?_of_isEmpty h]

theorem apply_empty (t : Tree) : apply ∅ t = t :=
  apply_of_isEmpty Std.HashMap.isEmpty_empty t

theorem distinct_apply (names : Names) {t : Tree} (h : t.distinct = true) :
    (names.apply t).distinct = true := by
  induction t with
  | scalar a => rfl
  | list ts ih =>
    rw [Tree.distinct_list] at h
    rw [apply_list, Tree.distinct_list, List.forall_mem_map]
    exact fun t ht => ih t ht (h t ht)
  | object tag fs ih =>
    have hfields : (Tree.object tag (names.applyFields fs)).distinct = true := by
      rw [Tree.distinct_object] at h ⊢
      rw [applyFields_eq, List.map_map, List.forall_mem_map]
      exact ⟨h.1, fun f hf => ih f hf (h.2 f hf)⟩
    rw [apply_object, newFields]
    split
    · exact Tree.distinct_set hfields (v := .text _) rfl "name"
    · exact hfields

end Names

end Legible
