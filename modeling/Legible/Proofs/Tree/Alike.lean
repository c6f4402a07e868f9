import Legible.Proofs.Tree.Names
import Legible.Proofs.Tree.Same
import Legible.Proofs.Tree.Walk

namespace Legible

def Place.Like (p q : Place) : Prop :=
  p.key = q.key ∧ p.parent.map Tree.kind? = q.parent.map Tree.kind?

namespace Tree

structure Likeness (L : Tree → Tree → Prop) : Prop where
  scalar {a : Scalar} {u : Tree} : L (.scalar a) u → u = .scalar a
  list {ts : List Tree} {u : Tree} : L (.list ts) u → ∃ us, u = .list us ∧ List.Forall₂ L ts us
  object {tag : Nat} {fs : Fields} {u : Tree} : L (.object tag fs) u →
    ∃ tag' fs', u = .object tag' fs'
  isNode {t u : Tree} : L t u → u.isNode = t.isNode
  get {t u : Tree} {key : String} : L t u → key ≠ "name" → L (t.get key) (u.get key)
  child {t u : Tree} : t.distinct = true → L t u →
    ∀ key ∈ u.childKeys, key ∈ t.childKeys ∧ L (t.get key) (u.get key)

theorem isNode_untagged (t : Tree) : t.untagged.isNode = t.isNode := by
  cases t with
  | scalar a => rfl
  | list ts => rfl
  | object tag fs =>
    rw [isNode, isNode, field?, field?, untagged, fields, fields]
    induction fs with
    | nil => rfl
    | cons f fs ih =>
      obtain ⟨k, w⟩ := f
      rw [untaggedFields, List.lookup_cons, List.lookup_cons]
      cases "type" == k with
      | true => rfl
      | false => exact ih

theorem holdsNode_untagged (t : Tree) : t.untagged.holdsNode = t.holdsNode := by
  cases t with
  | scalar a => rfl
  | list ts =>
    rw [untagged, untaggedItems_eq, holdsNode, List.any_map, holdsNode]
    exact congrArg (List.any ts) (funext isNode_untagged)
  | object tag fs => exact isNode_untagged (.object tag fs)

theorem childKeys_untagged {t : Tree} (hd : t.distinct = true) :
    t.untagged.childKeys = t.childKeys := by
  have hnames : t.untagged.fields.map (·.1) = t.fields.map (·.1) := by
    cases t with
    | scalar a => rfl
    | list ts => rfl
    | object tag fs =>
      rw [untagged, fields, untaggedFields_eq, List.map_map]
      rfl
  rw [childKeys_eq ((distinct_untagged t).trans hd), childKeys_eq hd, hnames, kind?, get_untagged,
    text?_untagged, ← kind?]
  simp only [get_untagged, holdsNode_untagged]

theorem same_untagged {t : Tree} (h : t.distinct = true) : t.same t.untagged = true := by
  induction t with
  | scalar a => exact Scalar.same_refl a
  | list ts ih =>
    rw [distinct_list] at h
    rw [untagged, untaggedItems_eq, same_list, List.forall₂_map_right_iff]
    exact List.forall₂_same.mpr fun t ht => ih t ht (h t ht)
  | object tag fs ih =>
    obtain ⟨hd, hf⟩ := distinct_object.mp h
    have hlookup : ∀ k, (untaggedFields fs).lookup k = (fs.lookup k).map untagged := by
      intro k
      clear ih h hd hf
      induction fs with
      | nil => rfl
      | cons f fs ih =>
        obtain ⟨k', v⟩ := f
        rw [untaggedFields, List.lookup_cons, List.lookup_cons]
        cases k == k' with
        | true => rfl
        | false => exact ih
    rw [untagged, same_object]
    refine ⟨fun f hm _ => ?_, fun g hm _ hn => ?_⟩
    · rw [hlookup, Fields.lookup_of_mem hd hm]
      exact ih f hm (hf f hm)
    · rw [untaggedFields_eq] at hm
      obtain ⟨f, hfm, rfl⟩ := List.mem_map.mp hm
      rw [Fields.lookup_of_mem hd hfm] at hn
      cases hn

theorem same_numbered {t : Tree} (h : t.distinct = true) : t.numbered.same t = true := by
  have hd : t.numbered.distinct = true := by
    rw [← distinct_untagged, untagged_numbered, distinct_untagged, h]
  have hu := same_untagged hd
  rw [untagged_numbered] at hu
  exact same_trans h hu (same_symm ((distinct_untagged t).trans h) (same_untagged h))

theorem likeness_numbered : Likeness fun t u => u.untagged = t.untagged where
  scalar {a u} h := by
    cases u with
    | scalar b => exact h
    | list us => cases h
    | object tag fs => cases h
  list {ts u} h := by
    cases u with
    | scalar b => cases h
    | object tag fs => cases h
    | list us =>
      rw [untagged, untagged, untaggedItems_eq, untaggedItems_eq] at h
      refine ⟨us, rfl, ?_⟩
      have hmap := Tree.list.inj h
      clear h
      induction us generalizing ts with
      | nil => cases ts <;> simp_all
      | cons u us ih =>
        cases ts with
        | nil => cases hmap
        | cons t ts =>
          rw [List.map_cons, List.map_cons, List.cons.injEq] at hmap
          exact .cons hmap.1 (ih hmap.2)
  object {tag fs u} h := by
    cases u with
    | scalar b => cases h
    | list us => cases h
    | object tag' fs' => exact ⟨tag', fs', rfl⟩
  isNode {t u} h := by rw [← isNode_untagged, h, isNode_untagged]
  get {t u key} h _ := by
    rw [← get_untagged, h, get_untagged]
  child {t u} hd h key hk := by
    have hdu : u.distinct = true := by rw [← distinct_untagged, h, distinct_untagged, hd]
    rw [← childKeys_untagged hdu, h, childKeys_untagged hd] at hk
    exact ⟨hk, by rw [← get_untagged, h, get_untagged]⟩

theorem likeness_apply (names : Names) : Likeness fun t u => u = names.apply t where
  scalar h := h
  list {ts u} h := by
    rw [Names.apply_list] at h
    refine ⟨_, h, ?_⟩
    rw [List.forall₂_map_right_iff]
    exact List.forall₂_same.mpr fun _ _ => rfl
  object {tag fs u} h := by
    rw [Names.apply_object] at h
    exact ⟨_, _, h⟩
  isNode {t u} h := by rw [h, Names.isNode_apply]
  get {t u key} h hk := by rw [h, Names.get_apply hk]
  child {t u} hd h key hk := by
    subst h
    have hkind : (names.apply t).kind? = t.kind? := by
      rw [kind?, Names.get_apply (by decide), Names.text?_apply, kind?]
    have htable : ∀ e ∈ childTable, "name" ∉ e.2 := by decide
    rw [childKeys_eq (names.distinct_apply hd), hkind] at hk
    rw [childKeys_eq hd]
    cases hl : t.kind?.bind (List.lookup · childTable) with
    | some keys =>
      rw [hl] at hk
      obtain ⟨kind, -, hl⟩ := Option.bind_eq_some_iff.mp hl
      obtain ⟨l, r, hl, -⟩ := List.lookup_eq_some_iff.mp hl
      have hmem : (kind, keys) ∈ childTable := hl ▸ List.mem_append_right _ List.mem_cons_self
      have hne : key ≠ "name" := fun he => htable _ hmem (he ▸ hk)
      exact ⟨hk, Names.get_apply hne⟩
    | none =>
      rw [hl] at hk
      obtain ⟨-, hholds⟩ := List.mem_filter.mp hk
      -- A new name holds no node.
      have hget : (names.apply t).get key = names.apply (t.get key) := by
        cases t with
        | scalar a => rfl
        | list ts => rfl
        | object tag fs =>
          rw [Names.apply_object] at hholds ⊢
          refine Names.get_newFields fun he => ?_
          by_contra hn
          obtain ⟨name, hn⟩ := Option.ne_none_iff_exists'.mp hn
          rw [he, get_object, Names.newFields, hn, Fields.lookup_set] at hholds
          cases hholds
      rw [hget, Names.holdsNode_apply] at hholds
      refine ⟨List.mem_filter.mpr ⟨?_, hholds⟩, hget⟩
      cases hf : t.field? key with
      | none =>
        rw [get, hf] at hholds
        cases hholds
      | some v => exact mem_names_of_field? hf

namespace Likeness

variable {L : Tree → Tree → Prop} (hL : Likeness L) {t u : Tree}

include hL

theorem text? (h : L t u) : u.text? = t.text? := by
  cases t with
  | scalar a => rw [hL.scalar h]
  | list ts =>
    obtain ⟨us, rfl, -⟩ := hL.list h
    rfl
  | object tag fs =>
    obtain ⟨tag', fs', rfl⟩ := hL.object h
    rfl

theorem isNull (h : L t u) : u.isNull = t.isNull := by
  cases t with
  | scalar a => rw [hL.scalar h]
  | list ts =>
    obtain ⟨us, rfl, -⟩ := hL.list h
    rfl
  | object tag fs =>
    obtain ⟨tag', fs', rfl⟩ := hL.object h
    rfl

theorem kind? (h : L t u) : u.kind? = t.kind? := by
  rw [Tree.kind?, hL.text? (hL.get h (by decide)), Tree.kind?]

theorem heldNodes (h : L t u) : List.Forall₂ L t.heldNodes u.heldNodes := by
  cases t with
  | scalar a =>
    rw [hL.scalar h]
    exact .nil
  | list ts =>
    obtain ⟨us, rfl, hs⟩ := hL.list h
    rw [Tree.heldNodes, Tree.heldNodes]
    refine List.rel_filter (R := L) (fun a b hab => ?_) hs
    exact iff_of_eq (congrArg (· = true) (hL.isNode hab).symm)
  | object tag fs =>
    have hn := hL.isNode h
    obtain ⟨tag', fs', rfl⟩ := hL.object h
    rw [Tree.heldNodes, Tree.heldNodes, hn]
    split
    · exact .cons h .nil
    · exact .nil

end Likeness

theorem Throughout.alike {L : Tree → Tree → Prop} (hL : Likeness L) {P : Place → Tree → Prop}
    (hP : ∀ {p q t u}, Place.Like p q → L t u → P p t → P q u) {p q : Place} {t u : Tree}
    (hpq : Place.Like p q) (htu : L t u) (hd : t.distinct = true) (h : Throughout P p t) :
    Throughout P q u := by
  induction t using children_induction generalizing p q u with
  | node t ih =>
    rw [throughout_iff] at h ⊢
    refine ⟨hP hpq htu h.1, fun key hkey d hdm => ?_⟩
    obtain ⟨hkey', hget⟩ := hL.child hd htu key hkey
    obtain ⟨c, hc, hcd⟩ := exists_of_forall₂ (hL.heldNodes hget) hdm
    have hcm : c ∈ t.children := mem_children.mpr ⟨key, hkey', hc⟩
    have hlike : Place.Like ⟨some t, some key⟩ ⟨some u, some key⟩ :=
      ⟨rfl, congrArg some (hL.kind? htu).symm⟩
    exact ih c hcm hlike hcd (distinct_of_mem_children hd hcm) (h.2 key hkey' c hc)

end Tree

end Legible
