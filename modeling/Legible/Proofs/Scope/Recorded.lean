import Legible.Proofs.Scope.Standing

namespace Legible

namespace Item

def mentionedTags (i : Item) : List Nat :=
  i.occurrences.map (·.tag)

theorem marks_mentionedTags : Marks mentionedTags where
  bound b t := by
    rw [mentionedTags, occurrences_bound, List.map_singleton]
    exact List.Subset.refl _
  arguments := rfl
  scope kind block dynamic is := by
    rw [mentionedTags, occurrences_scope, List.map_flatMap]
    exact List.subset_cons_self _ _
  inner kind block dynamic is := by
    rw [mentionedTags, occurrences_scope, List.map_flatMap]
    exact List.Subset.refl _

end Item

namespace Tree

variable {t u : Tree} {way : List (Tree × String)}

theorem Stands.mem_told_iff (h : Stands t way u) (ht : t.Numbered) (hf : t.formed true = true)
    (hroot : View.visit.fits t.fields.kind = true) (hk : u.isKind "Identifier" = true) :
    u.tag ∈ Item.told Item.mentionedTags .visit t ↔ silenced way = false := by
  have hk := eq_of_beq hk
  have htag := tag_mem_tags (Pattern.isNode_of_kind? hk)
  obtain ⟨hsilent, hloud⟩ := h.told ht hf hroot
  cases hway : silenced way with
  | true => exact iff_of_false (hsilent hway _ Item.marks_mentionedTags _ htag) Bool.noConfusion
  | false =>
    obtain ⟨view, hv, -, htold⟩ := hloud hway
    obtain ⟨b, hitems⟩ := Item.ofLooked_identifier hk hv
    rw [htold _ Item.marks_mentionedTags _ htag, Item.told, hitems, List.flatMap_singleton,
      Item.mentionedTags, Item.occurrences_bound]
    exact iff_of_true (List.mem_singleton_self _) rfl

/-! ### Names of other things -/

/-- The identifier at the end names something else than a variable: a label, a part of a meta
property, what a module calls something, or a member or key that is not computed. -/
def nameOnly : List (Tree × String) → Bool
  | [] => false
  | (p, key) :: above =>
    nameSlots.contains (p.fields.kind, key) ||
      (keySlots.contains (p.fields.kind, key) && !p.fields.flag "computed") ||
      ((p.fields.kind, key) == ("ExportSpecifier", "local") &&
        above.head?.any fun e => !(e.1.fields.get "source").isNull)

section

variable (hf : t.formed true = true) (hs : ∀ o ∈ t.objects, o.2.spelled = true)

include hf hs

omit hs in
theorem Stands.silenced_of_source {p : Tree} (h : Stands t way p)
    (hk : p.fields.kind = "ExportSpecifier")
    (hhead : way.head?.any (fun e => !(e.1.fields.get "source").isNull) = true) :
    silenced way = true := by
  cases way with
  | nil => cases hhead
  | cons e above =>
    obtain ⟨q, key⟩ := e
    obtain ⟨-, -, slots, hslots, e, he, rfl, hkinds⟩ := h.edge hf
    obtain ⟨-, -, hexport, -⟩ := slots_silent _ hslots e he
    have hspec := hexport.mp (hk ▸ hkinds)
    rw [List.head?_cons, Option.any_some] at hhead
    rw [silenced, List.any_cons, Fields.silent, hspec, hhead, Bool.or_true]
    simp

theorem Stands.silenced_eq (h : Stands t way u) (hu : u.isKind "Identifier" = true) :
    silenced way = nameOnly way := by
  cases way with
  | nil => rfl
  | cons e above =>
    obtain ⟨p, key⟩ := e
    have hkind := kind_fields (eq_of_beq hu)
    obtain ⟨hp, -, slots, hslots, e, he, rfl, hk⟩ := h.edge hf
    obtain ⟨hsource, -, -, hspecifiers, hlocal⟩ := slots_silent _ hslots e he
    rw [hkind] at hk
    have hnosource : sourceSlots.contains (p.fields.kind, e.1) = false := by
      by_contra hno
      rw [hsource (Bool.not_eq_false _ ▸ hno)] at hk
      exact absurd hk (by decide)
    have hnospec : (p.fields.kind, e.1) ≠ ("ExportNamedDeclaration", "specifiers") := by
      intro hspec
      rw [hspecifiers hspec] at hk
      exact absurd hk (by decide)
    rw [silenced, List.any_cons, ← silenced, nameOnly, Fields.silent, beq_false_of_ne hnospec,
      Bool.false_and, Bool.or_false, List.contains_append, hnosource, Bool.false_or,
      Bool.eq_iff_iff, Bool.or_eq_true _ (silenced above), Bool.or_eq_true _ (_ && Option.any _ _),
      Bool.and_eq_true, beq_iff_eq]
    constructor
    · rintro (hnamed | hway)
      · exact Or.inl hnamed
      · obtain ⟨hp, hhead⟩ := h.exports_of_silenced hf hs hway
        rcases List.mem_pair.mp (hlocal hp).1 with hkey | hkey
        · exact Or.inr ⟨by rw [hp, hkey], hhead⟩
        · rw [hp, hkey]
          exact Or.inl rfl
    · rintro (hnamed | ⟨hlocal, hhead⟩)
      · exact Or.inl hnamed
      · exact Or.inr (hp.silenced_of_source hf (Prod.mk.inj hlocal).1 hhead)

end

end Tree

namespace Scope

/-! ### What is recorded -/

def declaring (root : Scope) : List Nat :=
  root.scopes.flatMap fun c => c.declared.flatMap (·.identifiers)

def referring (root : Scope) : List Nat :=
  root.recorded.map (·.2.tag)

variable {t : Tree} {x : Nat}

theorem mem_declaring : x ∈ (ofTree t).declaring ↔
    ∃ c ∈ (ofTree t).scopes, ∃ v ∈ c.declared, x ∈ v.identifiers := by
  simp only [declaring, List.mem_flatMap]

theorem mem_referring : x ∈ (ofTree t).referring ↔
    ∃ c ∈ (ofTree t).scopes, ∃ r ∈ c.references, r.tag = x := by
  rw [referring, List.mem_map]
  constructor
  · rintro ⟨m, hm, rfl⟩
    obtain ⟨c, hc, hr⟩ := exists_of_mem_recorded hm
    exact ⟨c, at?_mem_scopes hc, m.2, hr, rfl⟩
  · rintro ⟨c, hc, r, hr, rfl⟩
    obtain ⟨p, hp⟩ := exists_path_of_mem_scopes hc
    exact ⟨(p, r), mem_recorded hp hr, rfl⟩

theorem incoming_of_reference {c : Scope} {r : Reference} (hr : r ∈ c.references) :
    r.occurrence ∈ c.incoming :=
  List.mem_append_left _ (List.mem_map_of_mem hr)

theorem nodup_declaring_referring (ht : t.Numbered) :
    ((ofTree t).declaring ++ (ofTree t).referring).Nodup := by
  refine List.nodup_append.mpr ⟨?_, nodup_recorded ht, fun x hx y hy hxy => ?_⟩
  · refine (nodup_tags ht).sublist (List.Sublist.flatMap_right _ fun c _ => ?_)
    exact List.Sublist.flatMap_right _ fun v _ => List.sublist_append_left ..
  · obtain ⟨c, hc, v, hv, hx⟩ := mem_declaring.mp hx
    obtain ⟨d, hd, r, hr, rfl⟩ := mem_referring.mp hy
    exact identifier_not_incoming ht hc hv hx hd (incoming_of_reference hr) hxy.symm

theorem mem_declaring_or_referring :
    x ∈ (ofTree t).declaring ++ (ofTree t).referring ↔
      x ∈ Item.told Item.mentionedTags .visit t := by
  have htold : x ∈ Item.told Item.mentionedTags .visit t ↔ x ∈ (mentioned t).map (·.tag) := by
    have htags : Item.told Item.mentionedTags .visit t =
        ((Item.ofTree .visit t).flatMap Item.occurrences).map (·.tag) := by
      rw [List.map_flatMap, Item.told, Item.ofTree_eq_ofLooked]
      rfl
    rw [htags, ((perm_mentioned t).map _).mem_iff]
  rw [htold, List.mem_append, mem_declaring, mem_referring]
  constructor
  · rintro (⟨c, hc, v, hv, hx⟩ | ⟨c, hc, r, hr, rfl⟩)
    · exact List.mem_map.mpr ⟨_, mem_mentioned_of_tags hc hv (List.mem_append_left _ hx), rfl⟩
    · exact List.mem_map.mpr ⟨_, mem_mentioned_of_incoming hc (incoming_of_reference hr), rfl⟩
  · intro hx
    obtain ⟨o, ho, rfl⟩ := List.mem_map.mp hx
    have hlexical := lexical_ofTree t
    have hrecorded : ∀ m ∈ (ofTree t).recorded, ∃ c ∈ (ofTree t).scopes, ∃ r ∈ c.references,
        r.tag = m.2.tag := fun m hm => mem_referring.mp (List.mem_map_of_mem hm)
    rcases List.mem_append.mp ho with ho | ho
    · obtain ⟨c, hc, ho⟩ := List.mem_flatMap.mp ho
      obtain ⟨v, hv, ho⟩ := List.mem_flatMap.mp ho
      obtain ⟨x, htag, rfl⟩ := List.mem_map.mp ho
      rcases List.mem_append.mp htag with htag | htag
      · exact Or.inl ⟨c, hc, v, hv, htag⟩
      · obtain ⟨q, hq⟩ := exists_path_of_mem_scopes hc
        obtain ⟨i, hi⟩ := List.mem_iff_getElem?.mp hv
        obtain ⟨m, hm, rfl⟩ := List.mem_map.mp ((hlexical.references q c hq i v hi).mem_iff.mp htag)
        exact Or.inr (hrecorded m (List.mem_filter.mp hm).1)
    · obtain ⟨m, hm, rfl⟩ := List.mem_map.mp ((hlexical.through [] _ rfl).mem_iff.mp ho)
      exact Or.inr (hrecorded m (List.mem_filter.mp hm).1)

theorem count_recorded {u : Tree} {way : List (Tree × String)} (h : t.Stands way u)
    (ht : t.Numbered) (hf : t.formed true = true) (hroot : View.visit.fits t.fields.kind = true)
    (hu : u.isKind "Identifier" = true) :
    (ofTree t).declaring.count u.tag + (ofTree t).referring.count u.tag =
      if Tree.silenced way then 0 else 1 := by
  have hmem := mem_declaring_or_referring.trans (h.mem_told_iff ht hf hroot hu)
  rw [← List.count_append]
  cases hway : Tree.silenced way with
  | true => exact List.count_eq_zero.mpr fun hx => Bool.false_ne_true ((hmem.mp hx).symm.trans hway)
  | false => exact List.count_eq_one_of_mem (nodup_declaring_referring ht) (hmem.mpr hway)

/-- Each identifier to which a walk gets is recorded once, as a declaring identifier of one variable
or as one reference, unless it stands in or below a field in which no variable is looked for. Where
keys that are not computed are spelled out, these are the identifiers that name something else. -/
theorem records_identifiers {t : Tree} (ht : t.wellFormed = true) (hf : t.formed true = true)
    (hroot : t.kind ∉ ["ImportSpecifier", "ExportSpecifier"]) :
    let root := ofTree t.numbered
    (∀ u ∈ t.numbered.nodes, ∃ way, t.numbered.Stands way u) ∧
      (∀ way u, t.numbered.Stands way u → u.isKind "Identifier" = true →
        root.declaring.count u.tag + root.referring.count u.tag =
          if Tree.silenced way then 0 else 1) ∧
      (t.spelled = true → ∀ way u, t.numbered.Stands way u → u.isKind "Identifier" = true →
        root.declaring.count u.tag + root.referring.count u.tag =
          if Tree.nameOnly way then 0 else 1) := by
  intro root
  have hn := Tree.wellFormed.numbered ht
  have hf' := (Tree.likeness_numbered.formed true (Tree.untagged_numbered t)).mpr hf
  have hroot' : View.visit.fits t.numbered.fields.kind = true := by
    rw [Tree.kind_fields_eq, Tree.kind, Tree.likeness_numbered.kind? (Tree.untagged_numbered t)]
    rwa [View.fits, Bool.not_eq_true', ← Bool.not_eq_true, List.contains_iff_mem]
  have hcount : ∀ way u, t.numbered.Stands way u → u.isKind "Identifier" = true →
      root.declaring.count u.tag + root.referring.count u.tag =
        if Tree.silenced way then 0 else 1 := fun way u h hu => count_recorded h hn hf' hroot' hu
  refine ⟨fun u => Tree.exists_stands, hcount, fun hs way u h hu => ?_⟩
  have hs := Tree.forall_objects_numbered (P := fun fs => fs.spelled = true)
    (fun fs => by rw [Fields.spelled_untaggedFields]) (List.all_eq_true.mp hs)
  rw [hcount way u h hu, h.silenced_eq hf' hs hu]

def namesOfThings : Tree :=
  Form.program [
    Form.importDeclaration [Form.importSpecifier (Form.identifier "b") (Form.identifier "a")]
      (Form.literal (.text "m") "'m'"),
    Form.labeledStatement (Form.identifier "l") (Form.blockStatement [
      Form.expressionStatement (Form.memberExpression false (Form.identifier "b")
        (Form.identifier "p")),
      Form.variableDeclaration "var" [Form.variableDeclarator
        (Form.objectPattern [Form.property (Form.identifier "k") false (Form.identifier "v") "init"
          false]) (Form.metaProperty (Form.identifier "new") (Form.identifier "target"))],
      Form.breakStatement (Form.identifier "l")]),
    Form.exportNamedDeclaration Form.null
      [Form.exportSpecifier (Form.identifier "c") (Form.identifier "v")] Form.null,
    Form.exportNamedDeclaration Form.null
      [Form.exportSpecifier (Form.identifier "e") (Form.identifier "d")]
      (Form.literal (.text "m") "'m'")]

theorem records_identifiers_namesOfThings :
    let root := ofTree namesOfThings.numbered
    (namesOfThings.wellFormed = true ∧ namesOfThings.formed true = true ∧
      namesOfThings.kind ∉ ["ImportSpecifier", "ExportSpecifier"] ∧
      namesOfThings.spelled = true) ∧
      (∀ way u, namesOfThings.numbered.Stands way u → u.isKind "Identifier" = true →
        root.declaring.count u.tag + root.referring.count u.tag =
          if Tree.nameOnly way then 0 else 1) ∧
      namesOfThings.numbered.identifiers.map (fun o => (o.tag, o.name)) =
        [(4, "b"), (5, "a"), (8, "l"), (12, "b"), (13, "p"), (18, "k"), (19, "v"), (21, "new"),
          (22, "target"), (24, "l"), (27, "c"), (28, "v"), (31, "e"), (32, "d")] ∧
      root.declaring = [4, 19] ∧ root.referring = [28, 12] := by
  have ht : namesOfThings.wellFormed = true := by decide
  have hf : namesOfThings.formed true = true := by decide
  have hroot : namesOfThings.kind ∉ ["ImportSpecifier", "ExportSpecifier"] := by decide
  have hs : namesOfThings.spelled = true := by decide
  exact ⟨⟨ht, hf, hroot, hs⟩, (records_identifiers ht hf hroot).2.2 hs, by decide, by decide,
    by decide⟩

end Scope

end Legible
