import Legible.Proofs.Bundle.Relaxation

namespace Legible.Bundle

open Table (Stable stable_of_nodup)

/-! ### Names with and without a slash at the end -/

theorem hasFinalSlash_packageName (required : String) :
    hasFinalSlash (packageName required) = true := by
  by_cases h : hasFinalSlash required = true
  · have hne : required.toList ≠ [] := by
      intro hnil
      rw [hasFinalSlash, hnil] at h
      cases h
    rw [packageName, if_pos h, String.append_empty, hasFinalSlash_append hne, h]
  · rw [packageName, if_neg h, hasFinalSlash_append (by decide)]
    rfl

theorem hasFinalSlash_of_mem_entryWrites {ids : List Id} {w : Id × String}
    (h : w ∈ entryWrites ids) : hasFinalSlash w.2 = false := by
  unfold entryWrites at h
  split at h
  · rw [List.mem_singleton.mp h]
    change hasFinalSlash "/main" = false
    decide
  · obtain ⟨x, -, rfl⟩ := List.mem_map.mp h
    have hlist : (toString (x.2 + 1)).toList = Nat.toDigits 10 (x.2 + 1) := by
      rw [Nat.toString_eq_repr, Nat.toList_repr]
    rw [hasFinalSlash_append (hlist ▸ Nat.toDigits_ne_nil), hasFinalSlash, hlist]
    -- The name ends with a digit.
    refine beq_eq_false_iff_ne.mpr fun hlast => ?_
    have hdigit := Nat.isDigit_of_mem_toDigits (by decide) (by decide) (List.mem_of_getLast? hlast)
    exact absurd hdigit (by decide)

namespace Layout

def seedWrites (l : Layout) : List (Id × String) :=
  entryWrites l.entries ++ packageWrites l.dependencyEdges ++ l.textWrites

def writes (l : Layout) : List (Id × String) :=
  match l.format with
  | .browserify => l.seedWrites ++ (l.relaxed.names.drop l.seeds.names.length ++
      restWrites l.ids l.relaxed.names)
  | .webpack => entryWrites l.entries ++ restWrites l.ids (entryNames l.entries)

def Resolves (l : Layout) (e : Edge) (name : String) : Prop :=
  e ∈ l.dependencyEdges ∧
    if isRelative e.required then
      ∃ parent, l.relaxed.names.get? e.parent = some parent ∧ name = requiredName parent e.required
    else name = packageName e.required

/-- Names are stable, those of the entries in particular, and disagreements are reported. -/
structure Lawful (l : Layout) (r : Resolution) : Prop where
  stable : Stable l.writes
  entries : ∀ w ∈ entryWrites l.entries, r.names.get? w.1 = some w.2
  reported : l.format = .browserify → ∀ e e' name name', l.Resolves e name → l.Resolves e' name' →
    Key.of e.target = Key.of e'.target → name ≠ name' → r.Warned e.target

/-- No entry has a second name from the start, and no disagreement is about a name that does not
depend on other modules. -/
structure Harmless (l : Layout) : Prop where
  entry_package : ∀ id ∈ l.entries, ¬ l.IsPackage (Key.of id)
  entry_text : ∀ w ∈ entryWrites l.entries, ∀ s, Key.of w.1 = .text s → l.IsTextId (.text s) →
    w.2 = "/" ++ s
  agree : ∀ e e' name name', l.Resolves e name → l.Resolves e' name' →
    Key.of e.target = Key.of e'.target → l.IsAbsolute (Key.of e.target) → name = name'

variable {l : Layout}

theorem mem_entries_iff {id : Id} : id ∈ l.entries ↔ ∃ w ∈ entryWrites l.entries, w.1 = id := by
  conv_lhs => rw [← map_fst_entryWrites l.entries]
  exact List.mem_map

theorem Resolves.relative {e : Edge} {name : String} (h : l.Resolves e name)
    (ha : ¬ l.IsAbsolute (Key.of e.target)) : ∃ parent, l.relaxed.names.get? e.parent = some parent ∧
      name = requiredName parent e.required := by
  obtain ⟨he, hname⟩ := h
  split at hname
  · exact hname
  · rename_i hr
    exact absurd (Or.inl ⟨e, he, Bool.of_not_eq_true hr, rfl⟩) ha

theorem stable_packageWrites (h : ∀ e e' name name', l.Resolves e name → l.Resolves e' name' →
    Key.of e.target = Key.of e'.target → l.IsAbsolute (Key.of e.target) → name = name') :
    Stable (packageWrites l.dependencyEdges) := by
  refine List.pairwise_of_forall_mem_list fun w hw v hv he => ?_
  obtain ⟨e, hm, hr, rfl⟩ := mem_packageWrites_iff.mp hw
  obtain ⟨e', hm', hr', rfl⟩ := mem_packageWrites_iff.mp hv
  have hresolves : ∀ x ∈ l.dependencyEdges, isRelative x.required = false →
      l.Resolves x (packageName x.required) := by
    intro x hx hrel
    refine ⟨hx, ?_⟩
    rw [hrel]
    rfl
  exact h e e' _ _ (hresolves e hm hr) (hresolves e' hm' hr') he (Or.inl ⟨e, hm, hr, rfl⟩)

section

variable (hn : l.modules.keys.Nodup)

include hn

theorem nodup_textWrites : (l.textWrites.map fun w => Key.of w.1).Nodup := by
  refine nodup_filterMap (fun id w hw => ?_) (nodup_ids hn)
  cases id with
  | text s =>
    rw [textWrite?] at hw
    split at hw
    · cases hw
    · exact (congrArg (·.1) (Option.some.inj hw)).symm
  | _ => cases hw

theorem stable_seedWrites_iff (hd : (l.entries.map Key.of).Nodup) :
    Stable l.seedWrites ↔ Stable (packageWrites l.dependencyEdges) ∧
      (∀ id ∈ l.entries, ¬ l.IsPackage (Key.of id)) ∧
      ∀ w ∈ entryWrites l.entries, ∀ s, Key.of w.1 = .text s → l.IsTextId (.text s) →
        w.2 = "/" ++ s := by
  have hentries : Stable (entryWrites l.entries) := by
    refine stable_of_nodup ?_
    rwa [← map_fst_entryWrites l.entries, List.map_map] at hd
  have hslash : ∀ w ∈ entryWrites l.entries, ∀ v ∈ packageWrites l.dependencyEdges, w.2 ≠ v.2 := by
    intro w hw v hv he
    obtain ⟨e, -, -, rfl⟩ := mem_packageWrites_iff.mp hv
    have hno := hasFinalSlash_of_mem_entryWrites hw
    rw [he, hasFinalSlash_packageName] at hno
    cases hno
  constructor
  · intro h
    obtain ⟨hseeds, -, htexts⟩ := List.pairwise_append.mp h
    obtain ⟨-, hpackages, hcross⟩ := List.pairwise_append.mp hseeds
    have hno : ∀ id ∈ l.entries, ¬ l.IsPackage (Key.of id) := by
      intro id hid hp
      obtain ⟨w, hw, rfl⟩ := mem_entries_iff.mp hid
      obtain ⟨v, hv, he⟩ := mem_packageWrites.mpr hp
      exact hslash w hw v hv (hcross w hw v hv he.symm)
    refine ⟨hpackages, hno, fun w hw s hs ht => ?_⟩
    obtain ⟨_, ht, hid⟩ := isTextId_iff.mp ht
    obtain rfl := Key.text.inj ht
    have hp : ¬ l.IsPackage (.text s) := hs ▸ hno w.1 (mem_entries_iff.mpr ⟨w, hw, rfl⟩)
    exact htexts w (List.mem_append_left _ hw) _ (mem_textWrites_iff.mpr ⟨s, rfl, hid, hp⟩) hs
  · rintro ⟨hpackages, hno, htext⟩
    refine List.pairwise_append.mpr ⟨List.pairwise_append.mpr ⟨hentries, hpackages, ?_⟩,
      stable_of_nodup (nodup_textWrites hn), ?_⟩
    · intro w hw v hv he
      exact absurd (mem_packageWrites.mp ⟨v, hv, he.symm⟩) (hno w.1 (mem_entries_iff.mpr ⟨w, hw, rfl⟩))
    · intro w hw v hv he
      obtain ⟨s, rfl, hid, hp⟩ := mem_textWrites_iff.mp hv
      rcases List.mem_append.mp hw with hw | hw
      · exact htext w hw s he (isTextId_iff.mpr ⟨s, rfl, hid⟩)
      · exact absurd (mem_packageWrites.mp ⟨w, hw, he⟩) hp

theorem relaxed_eq_append :
    l.seeds.names ++ l.relaxed.names.drop l.seeds.names.length = l.relaxed.names := by
  obtain ⟨t, ht⟩ := (relaxed_derived hn).seeded
  rw [← ht, List.drop_left]

theorem nodup_named : (l.seeds.names.keys ++ (l.relaxed.names.drop l.seeds.names.length ++
    restWrites l.ids l.relaxed.names).map fun w => Key.of w.1).Nodup := by
  have hkeys : l.relaxed.names.keys =
      l.seeds.names.keys ++ Table.keys (l.relaxed.names.drop l.seeds.names.length) := by
    rw [← Table.keys_append, relaxed_eq_append hn]
  have h := nodup_restWrites (nodup_ids hn) (relaxed_derived hn).nodup
  rw [hkeys, List.append_assoc] at h
  rw [List.map_append]
  exact h

theorem stable_writes_iff (hf : l.format = .browserify) :
    Stable l.writes ↔ Stable l.seedWrites := by
  have hw : l.writes = l.seedWrites ++ (l.relaxed.names.drop l.seeds.names.length ++
      restWrites l.ids l.relaxed.names) := by
    rw [writes, hf]
  obtain ⟨-, hlater, hnew⟩ := List.nodup_append.mp (nodup_named hn)
  rw [hw, Stable, List.pairwise_append]
  refine ⟨fun h => h.1, fun h => ⟨h, stable_of_nodup hlater, fun w hw v hv he => ?_⟩⟩
  have hmem : Key.of w.1 ∈ l.seeds.names.keys := by
    rw [seeds_eq hn]
    exact Table.mem_keys_insertAll.mpr (Or.inr ⟨w, hw, rfl⟩)
  exact absurd he (hnew _ hmem _ (List.mem_map_of_mem hv))

theorem stable_writes_of_webpack (hd : (l.entries.map Key.of).Nodup) (hf : l.format = .webpack) :
    Stable l.writes := by
  have hw : l.writes = entryWrites l.entries ++ restWrites l.ids (entryNames l.entries) := by
    rw [writes, hf]
  have hkeys : (entryWrites l.entries).map (fun w => Key.of w.1) = l.entries.map Key.of := by
    rw [← map_fst_entryWrites l.entries, List.map_map, map_fst_entryWrites]
    rfl
  have hnames : entryNames l.entries = entryWrites l.entries := by
    rw [entryNames_eq, Table.insertAll_of_nodup, List.nil_append]
    rwa [Table.keys, List.map_nil, List.nil_append, hkeys]
  have hnodup : (entryNames l.entries).keys.Nodup := by
    rwa [hnames, Table.keys, hkeys]
  have h := nodup_restWrites (nodup_ids hn) hnodup
  rw [hnames] at hw h
  rw [hw]
  refine stable_of_nodup ?_
  rwa [List.map_append]

theorem names_eq_writes {r : Resolution} (hr : resolve l = .ok r) :
    r.names = Table.insertAll [] l.writes := by
  cases hf : l.format with
  | browserify =>
    rw [resolve_eq hf (wellShaped_of_resolve hf hr)] at hr
    have hseeds : Table.insertAll [] l.seedWrites = l.seeds.names := by
      rw [seeds_eq hn]
      rfl
    rw [← Except.ok.inj hr, nameRest_eq_append (nodup_ids hn) (relaxed_derived hn).nodup, writes, hf,
      Table.insertAll_append, hseeds, Table.insertAll_of_nodup (nodup_named hn), ← List.append_assoc,
      relaxed_eq_append hn]
  | webpack =>
    rw [resolve_webpack hf] at hr
    rw [← Except.ok.inj hr, nameRest_eq (nodup_ids hn), writes, hf, Table.insertAll_append,
      ← entryNames_eq]

theorem reported_iff : (∀ e e' name name', l.Resolves e name → l.Resolves e' name' →
      Key.of e.target = Key.of e'.target → name ≠ name' → l.relaxed.Warned e.target) ↔
    ∀ e e' name name', l.Resolves e name → l.Resolves e' name' →
      Key.of e.target = Key.of e'.target → l.IsAbsolute (Key.of e.target) → name = name' := by
  constructor
  · intro h e e' name name' he he' ht ha
    by_contra hne
    exact ((warned_relaxed_iff hn (List.prefix_refl _)).mp (h e e' name name' he he' ht hne)).1 ha
  · intro h e e' name name' he he' ht hne
    have ha : ¬ l.IsAbsolute (Key.of e.target) := fun ha => hne (h e e' name name' he he' ht ha)
    obtain ⟨parent, hp, rfl⟩ := he.relative ha
    obtain ⟨parent', hp', rfl⟩ := he'.relative (ht ▸ ha)
    have hno : containsId l.seeds.absolute e.target = false := by
      rw [← Bool.not_eq_true, containsId_absolute hn]
      exact ha
    obtain ⟨kept, hk, -⟩ := l.relaxed_done e he.1 hno parent hp
    refine (warned_relaxed_iff hn (List.prefix_refl _)).mpr ⟨ha, ?_⟩
    by_cases hkept : kept = requiredName parent e.required
    · exact ⟨e', he'.1, ht.symm, parent', kept, hp', hk, fun he => hne (hkept.symm.trans he)⟩
    · exact ⟨e, he.1, rfl, parent, kept, hp, hk, hkept⟩

end

/-- Names are stable and disagreements reported exactly if the bundle is harmless. -/
theorem resolve_lawful_iff {l : Layout} {r : Resolution} (hn : l.modules.keys.Nodup)
    (hd : (l.entries.map Key.of).Nodup) (hr : resolve l = .ok r) :
    r.names = Table.insertAll [] l.writes ∧ (l.Lawful r ↔ l.format = .webpack ∨ l.Harmless) := by
  have hnames := names_eq_writes hn hr
  have hsub : ∀ w ∈ entryWrites l.entries, w ∈ l.writes := by
    intro w hw
    unfold writes
    split
    · exact List.mem_append_left _ (List.mem_append_left _ (List.mem_append_left _ hw))
    · exact List.mem_append_left _ hw
  have hentries : Stable l.writes → ∀ w ∈ entryWrites l.entries, r.names.get? w.1 = some w.2 := by
    intro h w hw
    rw [hnames]
    exact h.get?_insertAll (hsub w hw) []
  refine ⟨hnames, ?_⟩
  cases hf : l.format with
  | webpack =>
    have hstable := stable_writes_of_webpack hn hd hf
    exact iff_of_true ⟨hstable, hentries hstable, fun h => nomatch hf.symm.trans h⟩ (Or.inl rfl)
  | browserify =>
    rw [resolve_eq hf (wellShaped_of_resolve hf hr)] at hr
    obtain rfl := Except.ok.inj hr
    have hseeds := (stable_writes_iff hn hf).trans (stable_seedWrites_iff hn hd)
    have hreported := reported_iff hn
    constructor
    · intro h
      obtain ⟨-, hpackage, htext⟩ := hseeds.mp h.stable
      exact Or.inr ⟨hpackage, htext, hreported.mp (h.reported hf)⟩
    · intro h
      obtain ⟨hpackage, htext, hagree⟩ := h.resolve_left nofun
      have hstable := hseeds.mpr ⟨stable_packageWrites hagree, hpackage, htext⟩
      exact ⟨hstable, hentries hstable, fun _ => hreported.mpr hagree⟩

def doubleLayout : Layout :=
  .ofDependencies [.number (.ofInt 1)]
    [(.number (.ofInt 1), [("a", .number (.ofInt 2)), ("b", .number (.ofInt 2))]),
     (.number (.ofInt 2), [])]

theorem resolve_lawful_iff_double : ∃ r, resolve doubleLayout = .ok r ∧
    r.names = Table.insertAll [] doubleLayout.writes ∧
      (doubleLayout.Lawful r ↔ doubleLayout.format = .webpack ∨ doubleLayout.Harmless) :=
  have hr := resolve_eq (l := doubleLayout) rfl (wellShaped_ofDependencies _ _)
  ⟨_, hr, resolve_lawful_iff (by decide) (by decide) hr⟩

theorem resolve_overwrites : ¬ ∀ (l : Layout) (r : Resolution), l.modules.keys.Nodup →
    (l.entries.map Key.of).Nodup → resolve l = .ok r → l.Lawful r := by
  intro h
  have hr : resolve doubleLayout =
      .ok ⟨[(.number (.ofInt 1), "/main"), (.number (.ofInt 2), "/b/")], []⟩ := rfl
  have hl := h _ _ (by decide) (by decide) hr
  have hedges : doubleLayout.dependencyEdges =
      [⟨.number (.ofInt 1), "a", .number (.ofInt 2)⟩, ⟨.number (.ofInt 1), "b", .number (.ofInt 2)⟩] :=
    dependencyEdges_ofDependencies _ _
  have ha : doubleLayout.Resolves ⟨.number (.ofInt 1), "a", .number (.ofInt 2)⟩ "/a/" :=
    ⟨hedges ▸ List.mem_cons_self, rfl⟩
  have hb : doubleLayout.Resolves ⟨.number (.ofInt 1), "b", .number (.ofInt 2)⟩ "/b/" :=
    ⟨hedges ▸ List.mem_cons_of_mem _ List.mem_cons_self, rfl⟩
  obtain ⟨w, hw, -⟩ := hl.reported rfl _ _ _ _ ha hb rfl (by decide)
  exact List.not_mem_nil hw

end Layout

end Legible.Bundle
