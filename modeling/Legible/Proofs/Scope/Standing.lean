import Legible.Proofs.Scope.Marks

namespace Legible

def Fields.spelled (fs : Fields) : Bool :=
  (keySlots.all fun s => fs.kind != s.1 || fs.flag "computed" ||
    (fs.get s.2).isKind "Identifier" || (fs.get s.2).isKind "Literal") &&
  (fs.kind != "ExportNamedDeclaration" || (fs.get "declaration").isNull ||
    !(fs.get "specifiers").holdsNode)

namespace Fields

variable {fs : Fields}

theorem plain_of_spelled (h : fs.spelled = true) {key : String}
    (hkey : keySlots.contains (fs.kind, key) = true) (hc : fs.flag "computed" = false) :
    (fs.get key).fields.kind ∈ ["Identifier", "Literal"] := by
  have h := List.all_eq_true.mp (Bool.and_eq_true_iff.mp h).1 _ (List.contains_iff_mem.mp hkey)
  simp only [bne_self_eq_false, hc, Bool.false_or, Bool.or_eq_true] at h
  rcases h with h | h
  · rw [Tree.kind_fields (eq_of_beq h)]
    decide
  · rw [Tree.kind_fields (eq_of_beq h)]
    decide

theorem specifiers_of_spelled (h : fs.spelled = true) (hk : fs.kind = "ExportNamedDeclaration")
    (hd : (fs.get "declaration").isNull = false) : (fs.get "specifiers").holdsNode = false := by
  have h := (Bool.and_eq_true_iff.mp h).2
  simpa [hk, hd] using h

theorem spelled_untaggedFields (fs : Fields) : spelled (Tree.untaggedFields fs) = fs.spelled := by
  have hflag : flag "computed" (Tree.untaggedFields fs) = fs.flag "computed" := by
    rw [flag, Tree.get_untaggedFields, flag]
    cases fs.get "computed" <;> rfl
  simp only [spelled, kind_untaggedFields, hflag, Tree.get_untaggedFields, Tree.isKind_untagged,
    Tree.isNull_untagged, Tree.holdsNode_untagged]

end Fields

namespace Tree

/-! ### Where nodes stand -/

inductive Stands (t : Tree) : List (Tree × String) → Tree → Prop
  | self : Stands t [] t
  | child {way : List (Tree × String)} {u : Tree} {key : String} {c : Tree} : Stands t way u →
      key ∈ u.childKeys → c ∈ u.childrenAt key → Stands t ((u, key) :: way) c

def silenced (way : List (Tree × String)) : Bool :=
  way.any fun e => e.1.fields.silent e.2

variable {t u : Tree} {way : List (Tree × String)}

theorem Reaches.exists_stands {place p : Place} (h : Reaches place t p u) :
    ∃ way, Stands t way u := by
  induction h with
  | self => exact ⟨[], .self⟩
  | child _ hk hc ih =>
    obtain ⟨way, hway⟩ := ih
    exact ⟨_, hway.child hk hc⟩

theorem exists_stands (h : u ∈ t.nodes) : ∃ way, Stands t way u := by
  obtain ⟨v, hv, hu⟩ := List.mem_filterMap.mp h
  split at hu
  · obtain rfl := Option.some.inj hu
    obtain ⟨p, -, hreach⟩ := exists_reaches_of_mem_visits (p := ⟨none, none⟩) hv
    exact hreach.exists_stands
  · cases hu

theorem exists_slot (hf : u.formed true = true) {key : String} (hkey : key ∈ u.childKeys) {c : Tree}
    (hc : c ∈ u.childrenAt key) : ∃ tag fs slots, u = object tag fs ∧
      slots? (Fields.kind fs) = some slots ∧ ∃ e ∈ slots, e.1 = key ∧
        c ∈ (Fields.get key fs).heldNodes ∧ e.2.admits (Fields.get key fs) = true ∧
          c.formed true = true := by
  cases u with
  | scalar a => cases hc
  | list ts => cases hc
  | object tag fs =>
    have hslots : ((object tag fs).kind?.bind slots?).isSome = true := by
      by_contra hno
      exact not_formed (Option.not_isSome_iff_eq_none.mp hno) hf
    obtain ⟨slots, hslots⟩ := Option.isSome_iff_exists.mp hslots
    obtain ⟨kind, hk, hs⟩ := Option.bind_eq_some_iff.mp hslots
    have hholds := ((formed_iff hk hs).mp hf).2.2
    rw [← kind_fields hk] at hs
    rw [childKeys, Step.childKeys_of_slots hs, List.mem_map] at hkey
    obtain ⟨e, he, rfl⟩ := hkey
    exact ⟨tag, fs, slots, rfl, hs, e, he, rfl, hc, (hholds e he).1, (hholds e he).2 c hc⟩

theorem Stands.formed (h : Stands t way u) (hf : t.formed true = true) : u.formed true = true := by
  induction h with
  | self => exact hf
  | child _ hkey hc ih =>
    obtain ⟨-, -, -, -, -, -, -, -, -, -, hformed⟩ := exists_slot ih hkey hc
    exact hformed

theorem Stands.numbered (h : Stands t way u) (ht : t.Numbered) : u.Numbered := by
  induction h with
  | self => exact ht
  | @child way u key c _ _ hc ih =>
    cases u with
    | scalar a => cases hc
    | list ts => cases hc
    | object tag fs => exact (ih.get key).held hc

theorem Stands.told (h : Stands t way u) (ht : t.Numbered) (hf : t.formed true = true)
    (hroot : View.visit.fits t.fields.kind = true) :
    (silenced way = true → ∀ f, Item.Marks f → ∀ x ∈ u.tags, x ∉ Item.told f .visit t) ∧
      (silenced way = false → ∃ view : View, view.fits u.fields.kind = true ∧ view.suits u = true ∧
        ∀ f, Item.Marks f → ∀ x ∈ u.tags, (x ∈ Item.told f .visit t ↔ x ∈ Item.told f view u)) := by
  induction h with
  | self => exact ⟨nofun, fun _ => ⟨.visit, hroot, rfl, fun _ _ _ _ => Iff.rfl⟩⟩
  | @child way u key c hu hkey hc ih =>
    have hn := hu.numbered ht
    obtain ⟨tag, fs, slots, rfl, hs, e, he, rfl, hheld, hadmits, -⟩ :=
      exists_slot (hu.formed hf) hkey hc
    have hsub : c.tags ⊆ (object tag fs).tags := List.map_subset _ (objects_childrenAt hc)
    rw [silenced, List.any_cons, ← silenced, Bool.or_eq_true, Bool.or_eq_false_iff]
    cases hway : silenced way with
    | true => exact ⟨fun _ f hm x hx => ih.1 hway f hm x (hsub hx), fun h => nomatch h.2⟩
    | false =>
      obtain ⟨view, hv, hsuits, htold⟩ := ih.2 hway
      constructor
      · intro hsilent f hm x hx hxt
        have hsilent := hsilent.resolve_right Bool.false_ne_true
        exact hm.notMem_told_of_silent hn hs hsuits hheld hv he hsilent hx
          ((htold f hm x (hsub hx)).mp hxt)
      · rintro ⟨hsilent, -⟩
        obtain ⟨s, l, view', hleads⟩ := Item.exists_leads hn hs hsuits hheld hv he hadmits hsilent
        exact ⟨view', hleads.fits, hleads.suits,
          fun f hm x hx => (htold f hm x (hsub hx)).trans (hleads.told f hm x hx)⟩

/-! ### Where no variable is looked for -/

def spelled (t : Tree) : Bool :=
  t.objects.all (·.2.spelled)

theorem slots_silent : ∀ e ∈ grammarTable, ∀ s ∈ e.2,
    (sourceSlots.contains (e.1, s.1) = true → s.2.kinds = ["Literal"]) ∧
      (nameSlots.contains (e.1, s.1) = true → s.2.kinds = ["Identifier"]) ∧
      ("ExportSpecifier" ∈ s.2.kinds ↔ (e.1, s.1) = ("ExportNamedDeclaration", "specifiers")) ∧
      ((e.1, s.1) = ("ExportNamedDeclaration", "specifiers") → s.2.kinds = ["ExportSpecifier"]) ∧
      (e.1 = "ExportSpecifier" → s.1 ∈ ["local", "exported"] ∧ s.2.kinds = ["Identifier"]) := by
  decide

theorem Stands.edge {p : Tree} {key : String} (h : Stands t ((p, key) :: way) u)
    (hf : t.formed true = true) : Stands t way p ∧ u ∈ p.childrenAt key ∧
      ∃ slots, (p.fields.kind, slots) ∈ grammarTable ∧ ∃ e ∈ slots, e.1 = key ∧
        u.fields.kind ∈ e.2.kinds := by
  cases h with
  | child hp hkey hc =>
    refine ⟨hp, hc, ?_⟩
    obtain ⟨tag, fs, slots, rfl, hs, e, he, rfl, hheld, hadmits, -⟩ :=
      exists_slot (hp.formed hf) hkey hc
    obtain ⟨kind, hkind, hk⟩ := Contents.kind_of_admits hadmits hheld
    exact ⟨slots, mem_grammarTable hs, e, he, rfl, (kind_fields hk).symm ▸ hkind⟩

theorem slots_leaf : ∀ e ∈ grammarTable, e.1 ∈ ["Identifier", "Literal"] → e.2 = [] := by
  decide

theorem Stands.objects (h : Stands t way u) : u.objects ⊆ t.objects := by
  induction h with
  | self => exact fun _ => id
  | child _ _ hc ih => exact fun o ho => ih (objects_childrenAt hc ho)

theorem eq_of_held {v c : Tree} (hc : c ∈ v.heldNodes) (hv : v.fields.kind ≠ "") : v = c := by
  cases v with
  | scalar a => cases hc
  | list cs => exact absurd rfl hv
  | object tag fs =>
    rw [heldNodes] at hc
    split at hc
    · exact (List.mem_singleton.mp hc).symm
    · cases hc

section

variable (hf : t.formed true = true) (hs : ∀ o ∈ t.objects, o.2.spelled = true)

include hf

theorem Stands.kind_notMem {p : Tree} {key : String} (h : Stands t ((p, key) :: way) u) :
    p.fields.kind ∉ ["Identifier", "Literal"] := by
  intro hk
  obtain ⟨-, -, slots, hslots, e, he, -⟩ := h.edge hf
  obtain rfl : slots = [] := slots_leaf _ hslots hk
  cases he

include hs

theorem Stands.cases_silent {p : Tree} {key : String} (h : Stands t ((p, key) :: way) u)
    (hsilent : p.fields.silent key = true) : u.fields.kind ∈ ["Identifier", "Literal"] ∨
      (p.fields.kind, key) = ("ExportNamedDeclaration", "specifiers") ∧
        (p.fields.get "source").isNull = false := by
  obtain ⟨hp, hu, slots, hslots, e, he, rfl, hk⟩ := h.edge hf
  obtain ⟨hsource, hname, -⟩ := slots_silent _ hslots e he
  have hspelled : p.fields.spelled = true := by
    cases p with
    | scalar a => cases hu
    | list ts => cases hu
    | object tag fs =>
      exact hs (tag, fs) (hp.objects (by rw [objects_object]; exact List.mem_cons_self))
  have hheld : u ∈ (p.fields.get e.1).heldNodes := hu
  rw [Fields.silent, Bool.or_eq_true, Bool.or_eq_true, List.contains_iff_mem, List.mem_append,
    Bool.and_eq_true, Bool.and_eq_true, beq_iff_eq, Bool.or_eq_true] at hsilent
  rcases hsilent with ((h | h) | ⟨hkey, hcomputed⟩) | ⟨hspec, hnull⟩
  · rw [hsource (List.contains_iff_mem.mpr h)] at hk
    exact Or.inl (List.mem_cons_of_mem _ hk)
  · rw [hname (List.contains_iff_mem.mpr h)] at hk
    exact Or.inl (List.mem_singleton.mp hk ▸ List.mem_cons_self)
  · -- The key is spelled out, and so it is all that stands in the field.
    have hplain := Fields.plain_of_spelled hspelled hkey ((Bool.not_eq_true' _).mp hcomputed)
    have hv : (p.fields.get e.1).fields.kind ≠ "" := by
      intro h
      rw [h] at hplain
      exact absurd hplain (by decide)
    exact Or.inl (eq_of_held hheld hv ▸ hplain)
  · refine Or.inr ⟨hspec, ?_⟩
    obtain ⟨hkind, hkey⟩ := Prod.mk.inj hspec
    rcases hnull with hnull | hnull
    · rw [hkey] at hheld
      have hempty := Fields.specifiers_of_spelled hspelled hkind ((Bool.not_eq_true' _).mp hnull)
      rw [heldNodes_of_not_holdsNode hempty] at hheld
      cases hheld
    · exact (Bool.not_eq_true' _).mp hnull

theorem Stands.exports_of_silenced {p : Tree} {key : String} (h : Stands t ((p, key) :: way) u)
    (hway : silenced way = true) : p.fields.kind = "ExportSpecifier" ∧
      way.head?.any (fun e => !(e.1.fields.get "source").isNull) = true := by
  induction way generalizing p key u with
  | nil => cases hway
  | cons e above ih =>
    obtain ⟨q, k⟩ := e
    have hp := (h.edge hf).1
    obtain ⟨-, -, slots, hslots, e, he, rfl, hk⟩ := hp.edge hf
    obtain ⟨-, -, -, hspecifiers, hlocal⟩ := slots_silent _ hslots e he
    have hplain := h.kind_notMem hf
    rw [silenced, List.any_cons, ← silenced, Bool.or_eq_true] at hway
    by_cases hsilent : q.fields.silent e.1 = true
    · obtain ⟨hspec, hsource⟩ := (hp.cases_silent hf hs hsilent).resolve_left hplain
      rw [hspecifiers hspec] at hk
      refine ⟨List.mem_singleton.mp hk, ?_⟩
      rw [List.head?_cons, Option.any_some, hsource]
      rfl
    · -- Names have nothing below them.
      obtain ⟨hq, -⟩ := ih hp (hway.resolve_left hsilent)
      rw [(hlocal hq).2] at hk
      exact absurd (List.mem_singleton.mp hk ▸ List.mem_cons_self) hplain

theorem Stands.not_silenced (h : Stands t way u)
    (hu : u.fields.kind ∉ ["Identifier", "Literal", "ExportSpecifier"]) :
    silenced way = false := by
  cases way with
  | nil => rfl
  | cons e above =>
    obtain ⟨p, key⟩ := e
    obtain ⟨-, -, slots, hslots, e, he, rfl, hk⟩ := h.edge hf
    obtain ⟨-, -, -, hspecifiers, hlocal⟩ := slots_silent _ hslots e he
    rw [silenced, List.any_cons, ← silenced, Bool.or_eq_false_iff, ← Bool.not_eq_true,
      ← Bool.not_eq_true]
    constructor
    · intro hsilent
      rcases h.cases_silent hf hs hsilent with hplain | ⟨hspec, -⟩
      · exact hu (List.mem_append_left ["ExportSpecifier"] hplain)
      · rw [hspecifiers hspec] at hk
        rw [List.mem_singleton.mp hk] at hu
        exact hu (by decide)
    · intro hway
      rw [(hlocal (h.exports_of_silenced hf hs hway).1).2] at hk
      rw [List.mem_singleton.mp hk] at hu
      exact hu (by decide)

end

end Tree

end Legible
