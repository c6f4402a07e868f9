import Legible.Naming.Deduce
import Legible.Proofs.Pattern.Build
import Legible.Proofs.Pattern.Match
import Legible.Proofs.Scope.Marks
import Legible.Proofs.Scope.Reading

namespace Legible

namespace Pattern

variable {s : Assignment} {t : Tree}

theorem text?_of_instance {p : Placeholder} (hp : p.slot = .text) (h : Instance s (.hole p) t) :
    (s p.name).text? = t.text? := by
  cases h with
  | hole ha hs =>
    rw [Placeholder.accepts, hp] at ha
    cases t with
    | scalar a =>
      cases a with
      | text x =>
        cases hx : s p.name with
        | scalar b =>
          rw [hx, Tree.same] at hs
          cases b with
          | text y => exact congrArg some (by simpa [Scalar.same] using hs)
          | _ => simp [Scalar.same] at hs
        | list ts => rw [hx] at hs; cases hs
        | object tag fs => rw [hx] at hs; cases hs
      | _ => cases ha
    | list ts => cases ha
    | object tag fs => cases ha

theorem text?_of_scalar {x : String} (h : Instance s (.scalar (.text x)) t) : t.text? = some x := by
  cases h with
  | scalar h =>
    cases t with
    | scalar a =>
      cases a with
      | text y =>
        have hxy : x = y := by simpa [Tree.same, Scalar.same] using h
        rw [hxy]
        rfl
      | _ => simp [Tree.same, Scalar.same] at h
    | list ts => cases h
    | object tag fs => cases h

theorem fields_of_node {kind : String} {fs : List (String × Pattern)}
    (h : Instance s (Form.node kind fs) t) : t.isKind kind = true ∧
      ∀ key p, (key, p) ∈ fs → isIgnored key = false → Instance s p (t.get key) := by
  cases h with
  | object h =>
    refine ⟨?_, fun key p hf => h (key, p) (List.mem_cons_of_mem _ hf)⟩
    exact beq_iff_eq.mpr (text?_of_scalar (h ("type", _) List.mem_cons_self rfl))

theorem item_of_list {p : Pattern} (hp : p.run? = none) (h : Instance s (.list [p]) t) :
    ∃ u, t = .list [u] ∧ Instance s p u := by
  cases h with
  | list h =>
    cases h with
    | one _ hu hrest =>
      cases hrest
      exact ⟨_, rfl, hu⟩
    | run hr =>
      rw [hp] at hr
      cases hr

end Pattern

namespace Naming

open Pattern

def heading (t : Tree) : Tree :=
  match t.kind with
  | "ForStatement" => t.get "init"
  | "ForInStatement" | "ForOfStatement" => t.get "left"
  | _ => t

structure DeclaresOne (t d : Tree) : Prop where
  kind : t.isKind "VariableDeclaration" = true
  single : t.get "declarations" = .list [d]
  identifier : (d.get "id").isKind "Identifier" = true

theorem DeclaresOne.mem_identifiers {t d : Tree} (h : DeclaresOne t d) :
    ⟨(d.get "id").tag, (d.get "id").name⟩ ∈ t.identifiers := by
  have hobjects : (d.get "id").objects ⊆ t.objects := by
    refine List.Subset.trans (fun o ho => ?_) (Tree.objects_get t "declarations")
    rw [h.single, Tree.objects_list, List.flatMap_singleton]
    exact Tree.objects_get d "id" ho
  obtain ⟨tag, fs, hobject⟩ := Tree.eq_object_of_isNode (isNode_of_kind? (eq_of_beq h.identifier))
  have hkind := Tree.kind_fields (eq_of_beq h.identifier)
  rw [hobject] at hobjects hkind ⊢
  rw [Tree.objects_object] at hobjects
  exact List.mem_filterMap.mpr ⟨(tag, fs), hobjects List.mem_cons_self, if_pos hkind⟩

theorem declaresOne_of_instance {s : Assignment} {t : Tree} {kind : String} {init : Pattern}
    (h : Instance s (declaration kind init) t) :
    ∃ d, DeclaresOne t d ∧ (s "placeholder1").text? = ((d.get "id").get "name").text? := by
  obtain ⟨hkind, hfields⟩ := fields_of_node h
  obtain ⟨d, hlist, hd⟩ := item_of_list rfl (hfields "declarations" _ List.mem_cons_self rfl)
  obtain ⟨-, hfields⟩ := fields_of_node hd
  obtain ⟨hid, hfields⟩ := fields_of_node (hfields "id" _ List.mem_cons_self rfl)
  exact ⟨d, ⟨hkind, hlist, hid⟩, text?_of_instance rfl (hfields "name" _ List.mem_cons_self rfl)⟩

theorem pattern_of_mem_idioms {i : Idiom} (hi : i ∈ idioms) :
    (∃ kind init, i.pattern = declaration kind init) ∨
      ∃ kind, i.pattern = countingLoop kind ∨ i.pattern = keyLoop kind ∨
        i.pattern = itemLoop kind := by
  simp only [idioms, declarations, loops, List.mem_append, List.mem_map, or_assoc] at hi
  rcases hi with ⟨kind, -, rfl⟩ | ⟨kind, -, rfl⟩ | ⟨kind, -, rfl⟩ | ⟨kind, -, rfl⟩ |
    ⟨kind, -, rfl⟩ | ⟨kind, -, rfl⟩ | ⟨kind, -, rfl⟩ | ⟨kind, -, rfl⟩ | ⟨kind, -, rfl⟩
  · exact Or.inl ⟨_, _, rfl⟩
  · exact Or.inl ⟨_, _, rfl⟩
  · exact Or.inl ⟨_, _, rfl⟩
  · exact Or.inl ⟨_, _, rfl⟩
  · exact Or.inr ⟨_, Or.inl rfl⟩
  · exact Or.inr ⟨_, Or.inr (Or.inl rfl)⟩
  · exact Or.inr ⟨_, Or.inr (Or.inr rfl)⟩
  · exact Or.inl ⟨_, _, rfl⟩
  · exact Or.inl ⟨_, _, rfl⟩

theorem capturedText_eq (key : String) (c : Captures) :
    capturedText key c = ((c.assignment key).text?).getD "" := by
  rw [capturedText, Captures.assignment]
  cases c.lookup key <;> rfl

def HeadSlot (t : Tree) (key : String) : Prop :=
  (t.isKind "ForStatement" = true ∧ key = "init") ∨
    ((t.isKind "ForInStatement" = true ∨ t.isKind "ForOfStatement" = true) ∧ key = "left")

theorem kind_of_isKind {t : Tree} {kind : String} (h : t.isKind kind = true) : t.kind = kind := by
  rw [Tree.kind, eq_of_beq h]
  rfl

theorem heading_of_headSlot {t : Tree} {key : String} (h : HeadSlot t key) :
    heading t = t.get key := by
  rcases h with ⟨h, rfl⟩ | ⟨h | h, rfl⟩ <;> simp [heading, kind_of_isKind h]

theorem heading_of_declaration {t : Tree} (h : t.isKind "VariableDeclaration" = true) :
    heading t = t := by
  simp [heading, kind_of_isKind h]

theorem HeadSlot.child {t : Tree} {key : String} (h : HeadSlot t key)
    (hn : (t.get key).isNode = true) : key ∈ t.childKeys ∧ t.get key ∈ t.childrenAt key := by
  constructor
  · rcases h with ⟨h, rfl⟩ | ⟨h | h, rfl⟩
    all_goals
      rw [Tree.childKeys_of_kind? (eq_of_beq h) rfl]
      decide
  · obtain ⟨tag, fs, hobject⟩ := Tree.eq_object_of_isNode hn
    rw [hobject] at hn
    rw [Tree.childrenAt, hobject, Tree.heldNodes, if_pos hn]
    exact List.mem_singleton_self _

theorem declaresOne_of_deduceName? {t : Tree} (ht : t.distinct = true) {old new : String}
    (h : deduceName? t = some (old, new)) : ∃ d, DeclaresOne (heading t) d ∧
      (d.get "id").name = old ∧
      (t.isKind "VariableDeclaration" = true ∨ ∃ key, HeadSlot t key) := by
  obtain ⟨i, hi, h⟩ := List.exists_of_findSome?_eq_some h
  obtain ⟨c, hc, h⟩ := Option.bind_eq_some_iff.mp h
  obtain ⟨name, -, h⟩ := Option.bind_eq_some_iff.mp h
  obtain ⟨rfl, rfl⟩ := Prod.mk.inj (Option.some.inj h)
  have hinstance := (match?_outcome ht hc).holds c (.refl c)
  have hdeclares : ∀ {u : Tree} {kind : String} {init : Pattern},
      Instance c.assignment (declaration kind init) u →
        ∃ d, DeclaresOne u d ∧ (d.get "id").name = capturedText "placeholder1" c := by
    intro u kind init hu
    obtain ⟨d, hd, htext⟩ := declaresOne_of_instance hu
    exact ⟨d, hd, by rw [capturedText_eq, htext, Tree.name]⟩
  have hloop : ∀ {key : String} {kind : String} {init : Pattern}, HeadSlot t key →
      Instance c.assignment (declaration kind init) (t.get key) →
        ∃ d, DeclaresOne (heading t) d ∧ (d.get "id").name = capturedText "placeholder1" c ∧
          (t.isKind "VariableDeclaration" = true ∨ ∃ key, HeadSlot t key) := by
    intro key kind init hkey hu
    rw [heading_of_headSlot hkey]
    obtain ⟨d, hd, hname⟩ := hdeclares hu
    exact ⟨d, hd, hname, Or.inr ⟨key, hkey⟩⟩
  rcases pattern_of_mem_idioms hi with ⟨kind, init, hp⟩ | ⟨kind, hp | hp | hp⟩
  all_goals rw [hp] at hinstance
  · obtain ⟨d, hd, hname⟩ := hdeclares hinstance
    rw [heading_of_declaration hd.kind]
    exact ⟨d, hd, hname, Or.inl hd.kind⟩
  all_goals obtain ⟨hkind, hfields⟩ := fields_of_node hinstance
  · exact hloop (Or.inl ⟨hkind, rfl⟩) (hfields "init" _ List.mem_cons_self rfl)
  · exact hloop (Or.inr ⟨Or.inl hkind, rfl⟩)
      (hfields "left" _ (List.mem_cons_of_mem _ List.mem_cons_self) rfl)
  · exact hloop (Or.inr ⟨Or.inr hkind, rfl⟩) (hfields "left" _ List.mem_cons_self rfl)

/-! ### Under new names -/

variable {names : Names} {t : Tree}

theorem heading_apply (names : Names) (t : Tree) :
    heading (names.apply t) = names.apply (heading t) := by
  have hkind : (names.apply t).kind = t.kind := by
    rw [Tree.kind, Tree.kind?, Names.get_apply (by decide), Names.text?_apply]
    rfl
  rw [heading, hkind, heading]
  split
  · exact Names.get_apply (by decide)
  · exact Names.get_apply (by decide)
  · exact Names.get_apply (by decide)
  · rfl

theorem DeclaresOne.of_apply {d' : Tree} (h : DeclaresOne (names.apply t) d') :
    ∃ d, DeclaresOne t d ∧ d' = names.apply d := by
  obtain ⟨hkind, hsingle, hid⟩ := h
  rw [Names.isKind_apply] at hkind
  rw [Names.get_apply (by decide)] at hsingle
  cases hds : t.get "declarations" with
  | scalar a => rw [hds] at hsingle; cases hsingle
  | object tag fs => rw [hds, Names.apply_object] at hsingle; cases hsingle
  | list ds =>
    rw [hds, Names.apply_list, Tree.list.injEq] at hsingle
    obtain ⟨d, rfl, rfl⟩ := List.map_eq_singleton_iff.mp hsingle
    rw [Names.get_apply (by decide), Names.isKind_apply] at hid
    exact ⟨d, ⟨hkind, hds, hid⟩, rfl⟩

theorem DeclaresOne.name_apply {d : Tree} (h : DeclaresOne t d) (names : Names) :
    (names.apply (d.get "id")).name =
      names.current ⟨(d.get "id").tag, (d.get "id").name⟩ := by
  obtain ⟨tag, fs, hobject⟩ := Tree.eq_object_of_isNode (isNode_of_kind? (eq_of_beq h.identifier))
  rw [hobject]
  exact Item.name_apply_object names tag fs

theorem declaresOne_of_apply (ht : t.distinct = true) {old new : String}
    (h : deduceName? (names.apply t) = some (old, new)) : ∃ d, DeclaresOne (heading t) d ∧
      names.current ⟨(d.get "id").tag, (d.get "id").name⟩ = old ∧
      (t.isKind "VariableDeclaration" = true ∨ ∃ key, HeadSlot t key) := by
  obtain ⟨d', hd', hname, hwhere⟩ := declaresOne_of_deduceName? (names.distinct_apply ht) h
  rw [heading_apply] at hd'
  obtain ⟨d, hd, rfl⟩ := hd'.of_apply
  rw [Names.get_apply (by decide), hd.name_apply] at hname
  exact ⟨d, hd, hname, by simpa only [HeadSlot, Names.isKind_apply] using hwhere⟩

end Naming

end Legible
