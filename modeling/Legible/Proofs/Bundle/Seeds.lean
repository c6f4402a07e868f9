import Legible.Bundle.Names
import Legible.Proofs.Bundle.Table
import Legible.Proofs.Results

namespace Legible.Bundle

/-! ### Edges -/

def isReference : Except ShapeError (Id × Tree) → Bool
  | .ok (_, value) => value.isKind "Literal"
  | .error _ => false

def edgeOf (parent : Id) : Except ShapeError (Id × Tree) → Option Edge
  | .ok (name, value) =>
    if isExcluded (literalValue value) then none
    else some ⟨parent, spelled name, literalValue value⟩
  | .error _ => none

theorem edge_eq_ok_iff {parent : Id} {pair : Except ShapeError (Id × Tree)} {o : Option Edge} :
    (pair >>= fun x => edge? parent x.1 x.2) = .ok o ↔
      isReference pair = true ∧ o = edgeOf parent pair := by
  cases pair with
  | error e => exact ⟨nofun, fun h => absurd h.1 Bool.false_ne_true⟩
  | ok x =>
    change (if x.2.isKind "Literal" = true then Except.ok (edgeOf parent (.ok x)) else _) = _ ↔
      x.2.isKind "Literal" = true ∧ _
    by_cases hv : x.2.isKind "Literal" = true
    · simp [hv, eq_comm]
    · simp [hv]

def Entry.references (e : Entry) : List (Except ShapeError (Id × Tree)) :=
  e.dependencies.elim [] pairs

theorem edgesOf_eq_ok_iff {id : Id} {e : Entry} {es : List Edge} : edgesOf id e = .ok es ↔
    (∀ pair ∈ e.references, isReference pair = true) ∧ es = e.references.filterMap (edgeOf id) := by
  have hmap : ∀ ps : List (Except ShapeError (Id × Tree)),
      (ps.map (edgeOf id)).filterMap (fun x => x) = ps.filterMap (edgeOf id) :=
    fun ps => List.filterMap_map
  rw [edgesOf, Entry.references]
  cases e.dependencies with
  | none =>
    exact ⟨fun h => ⟨fun _ hp => absurd hp List.not_mem_nil, (Except.ok.inj h).symm⟩,
      fun h => congrArg Except.ok h.2.symm⟩
  | some t =>
    change (pairs t).mapM (fun pair => pair >>= fun x => edge? id x.1 x.2) >>= _ = _ ↔ _
    rw [Option.elim_some]
    constructor
    · intro h
      obtain ⟨os, hos, hes⟩ := exists_of_bind_eq_ok h
      have hall : ∀ pair ∈ pairs t, isReference pair = true := fun pair hp =>
        (edge_eq_ok_iff.mp (exists_mapM_eq_ok_iff.mp ⟨_, hos⟩ pair hp).choose_spec).1
      rw [mapM_eq_ok_iff.mpr fun pair hp => edge_eq_ok_iff.mpr ⟨hall pair hp, rfl⟩] at hos
      obtain rfl := Except.ok.inj hos
      exact ⟨hall, (Except.ok.inj hes).symm.trans (hmap _)⟩
    · rintro ⟨hall, rfl⟩
      rw [mapM_eq_ok_iff.mpr fun pair hp => edge_eq_ok_iff.mpr ⟨hall pair hp, rfl⟩, ← hmap]
      rfl

namespace Layout

def wellShaped (l : Layout) : Bool :=
  l.modules.all fun m => m.2.references.all isReference

def dependencyEdges (l : Layout) : List Edge :=
  l.modules.flatMap fun m => m.2.references.filterMap (edgeOf m.1)

theorem nodup_readTable {entry : Id → Tree → Except ShapeError Entry} {t : Tree} {table : Table Entry}
    (h : readTable entry t = .ok table) : table.keys.Nodup := by
  have hgen : ∀ (ps : List (Except ShapeError (Id × Tree))) (start : Table Entry),
      start.keys.Nodup → ps.foldlM (fun table pair => do
        let row ← pair
        return table.insert row.1 (← entry row.1 row.2)) start = .ok table → table.keys.Nodup := by
    intro ps
    induction ps with
    | nil =>
      intro start hs hok
      exact Except.ok.inj hok ▸ hs
    | cons pair ps ih =>
      intro start hs hok
      rw [List.foldlM_cons] at hok
      obtain ⟨next, hnext, hok⟩ := exists_of_bind_eq_ok hok
      obtain ⟨row, -, hnext⟩ := exists_of_bind_eq_ok hnext
      obtain ⟨e, -, hnext⟩ := exists_of_bind_eq_ok hnext
      obtain rfl := Except.ok.inj hnext
      exact ih _ (Table.nodup_insert hs row.1 e) hok
  exact hgen _ [] List.nodup_nil h

theorem nodup_ofTree {t : Tree} {l : Layout} (h : ofTree t = .ok l) : l.modules.keys.Nodup := by
  unfold ofTree at h
  split at h
  · have hread := exists_of_mapError h
    unfold readBrowserify at hread
    split at hread
    · cases hread
    · obtain ⟨modules, hm, hl⟩ := exists_of_bind_eq_ok hread
      rw [← Except.ok.inj hl]
      exact nodup_readTable hm
  · split at h
    · obtain ⟨modules, hm, hl⟩ := exists_of_bind_eq_ok (exists_of_mapError h)
      rw [← Except.ok.inj hl]
      exact nodup_readTable hm
    · cases h

theorem edges_eq_ok_iff {l : Layout} {es : List Edge} :
    edges l = .ok es ↔ l.wellShaped = true ∧ es = l.dependencyEdges := by
  simp only [wellShaped, List.all_eq_true]
  constructor
  · intro h
    obtain ⟨ess, hess, hes⟩ := exists_of_bind_eq_ok h
    have hall : ∀ m ∈ l.modules, ∀ pair ∈ m.2.references, isReference pair = true := fun m hm =>
      (edgesOf_eq_ok_iff.mp (exists_mapM_eq_ok_iff.mp ⟨_, hess⟩ m hm).choose_spec).1
    rw [mapM_eq_ok_iff.mpr fun m hm => edgesOf_eq_ok_iff.mpr ⟨hall m hm, rfl⟩] at hess
    obtain rfl := Except.ok.inj hess
    exact ⟨hall, (Except.ok.inj hes).symm⟩
  · rintro ⟨hall, rfl⟩
    rw [edges, mapM_eq_ok_iff.mpr fun m hm => edgesOf_eq_ok_iff.mpr ⟨hall m hm, rfl⟩]
    rfl

end Layout

def dependencyTable (ds : List (String × Id)) : Tree :=
  Form.objectExpression (ds.map fun d =>
    Form.property (Form.literal (.text d.1) d.1) false (Form.literal d.2 (spelled d.2)) "init" false)

theorem pairs_dependencyTable (ds : List (String × Id)) : pairs (dependencyTable ds) =
    ds.map fun d => .ok (.text d.1, Form.literal d.2 (spelled d.2)) := by
  have harray : (dependencyTable ds).isKind "ArrayExpression" = false := rfl
  have hobject : (dependencyTable ds).isKind "ObjectExpression" = true := rfl
  have hitems : ((dependencyTable ds).get "properties").items = ds.map fun d =>
      (Form.property (Form.literal (.text d.1) d.1) false (Form.literal d.2 (spelled d.2)) "init"
        false : Tree) := rfl
  rw [pairs, harray, if_neg Bool.false_ne_true, hobject, if_pos rfl, hitems, List.map_map]
  rfl

namespace Layout

def ofDependencies (entries : List Id) (modules : List (Id × List (String × Id))) : Layout :=
  ⟨.browserify, modules.map fun m => (m.1, ⟨m.1, .null, some (dependencyTable m.2)⟩), entries⟩

theorem wellShaped_ofDependencies (entries : List Id) (modules : List (Id × List (String × Id))) :
    (ofDependencies entries modules).wellShaped = true := by
  simp only [wellShaped, ofDependencies, List.all_map, List.all_eq_true, Function.comp_apply]
  intro m _ pair hp
  rw [Entry.references, Option.elim_some, pairs_dependencyTable] at hp
  obtain ⟨d, -, rfl⟩ := List.mem_map.mp hp
  rfl

theorem dependencyEdges_ofDependencies (entries : List Id)
    (modules : List (Id × List (String × Id))) :
    (ofDependencies entries modules).dependencyEdges = modules.flatMap fun m =>
      m.2.filterMap fun d => if isExcluded d.2 then none else some ⟨m.1, d.1, d.2⟩ := by
  rw [dependencyEdges, ofDependencies, List.flatMap_map]
  refine List.flatMap_congr fun m _ => ?_
  rw [Entry.references, Option.elim_some, pairs_dependencyTable, List.filterMap_map]
  rfl

end Layout

/-! ### Names from the start -/

def entryWrites (ids : List Id) : List (Id × String) :=
  match ids with
  | [id] => [(id, "/main")]
  | ids => ids.zipIdx.map fun x => (x.1, "/main" ++ toString (x.2 + 1))

def packageWrites (es : List Edge) : List (Id × String) :=
  es.filterMap fun e =>
    if isRelative e.required then none else some (e.target, packageName e.required)

def textWrite? (packages : List Id) : Id → Option (Id × String)
  | .text s => if containsId packages (.text s) then none else some (.text s, "/" ++ s)
  | _ => none

def restWrites (modules : List Id) (names : Table String) : List (Id × String) :=
  modules.filterMap fun id => if names.contains id then none else some (id, "/" ++ spelled id)

theorem nodup_filterMap {f : Id → Option (Id × String)} (hf : ∀ id w, f id = some w → w.1 = id)
    {ids : List Id} (hn : (ids.map Key.of).Nodup) :
    ((ids.filterMap f).map fun w => Key.of w.1).Nodup := by
  have hsub : ((ids.filterMap f).map (·.1)).Sublist ids := by
    clear hn
    induction ids with
    | nil => exact List.Sublist.slnil
    | cons id ids ih =>
      cases hw : f id with
      | none =>
        rw [List.filterMap_cons_none hw]
        exact ih.cons id
      | some w =>
        rw [List.filterMap_cons_some hw, List.map_cons, hf id w hw]
        exact ih.cons_cons id
  have hkeys := (hsub.map Key.of).nodup hn
  rwa [List.map_map] at hkeys

theorem hasFinalSlash_append {s t : String} (h : t.toList ≠ []) :
    hasFinalSlash (s ++ t) = hasFinalSlash t := by
  obtain ⟨c, hc⟩ := Option.ne_none_iff_exists'.mp (mt List.getLast?_eq_none_iff.mp h)
  rw [hasFinalSlash, hasFinalSlash, String.toList_append, List.getLast?_append, hc, Option.some_or]

theorem entryNames_eq (ids : List Id) : entryNames ids = Table.insertAll [] (entryWrites ids) := by
  unfold entryNames
  split
  · rfl
  · rename_i hne
    have hmap : entryWrites ids = ids.zipIdx.map fun x => (x.1, "/main" ++ toString (x.2 + 1)) := by
      unfold entryWrites
      split
      · exact absurd rfl (hne _)
      · rfl
    rw [hmap, Table.insertAll, List.foldl_map]

theorem map_fst_entryWrites (ids : List Id) : (entryWrites ids).map (·.1) = ids := by
  unfold entryWrites
  split
  · rfl
  · rw [List.map_map]
    exact List.zipIdx_map_fst 0 _

theorem packageSeeds_eq (es : List Edge) (names : Table String) :
    packageSeeds es names =
      ⟨names.insertAll (packageWrites es), ((packageWrites es).map (·.1)).reverse⟩ := by
  have hgen : ∀ s : Seeds, es.foldl (fun s e =>
      if isRelative e.required then s else s.add e.target (packageName e.required)) s =
        ⟨s.names.insertAll (packageWrites es),
          ((packageWrites es).map (·.1)).reverse ++ s.absolute⟩ := by
    induction es with
    | nil => exact fun s => rfl
    | cons e es ih =>
      intro s
      by_cases he : isRelative e.required = true
      · have hw : packageWrites (e :: es) = packageWrites es :=
          List.filterMap_cons_none (if_pos he)
        rw [List.foldl_cons, ih, if_pos he, hw]
      · have hw : packageWrites (e :: es) = (e.target, packageName e.required) :: packageWrites es :=
          List.filterMap_cons_some (if_neg he)
        rw [List.foldl_cons, ih, if_neg he, hw, List.map_cons, List.reverse_cons, List.append_assoc]
        rfl
  rw [packageSeeds, hgen, List.append_nil]

theorem textSeeds_eq {modules : List Id} (hn : (modules.map Key.of).Nodup) (s : Seeds) :
    textSeeds modules s = ⟨s.names.insertAll (modules.filterMap (textWrite? s.absolute)),
      ((modules.filterMap (textWrite? s.absolute)).map (·.1)).reverse ++ s.absolute⟩ := by
  induction modules generalizing s with
  | nil => rfl
  | cons id modules ih =>
    rw [List.map_cons, List.nodup_cons] at hn
    -- A later module has another id, so this one changes nothing for it.
    have hlater : ∀ absolute, absolute = s.absolute ∨ absolute = id :: s.absolute →
        modules.filterMap (textWrite? absolute) = modules.filterMap (textWrite? s.absolute) := by
      rintro absolute (rfl | rfl)
      · rfl
      · refine List.filterMap_congr fun m hm => ?_
        cases m with
        | text name =>
          have hne : sameId id (.text name) = false := by
            rw [← Bool.not_eq_true, sameId_iff]
            exact fun he => hn.1 (List.mem_map.mpr ⟨_, hm, he.symm⟩)
          rw [textWrite?, textWrite?, containsId, List.any_cons, hne, Bool.false_or, ← containsId]
        | _ => rfl
    rw [textSeeds, List.foldl_cons, ← textSeeds, ih hn.2, List.filterMap_cons]
    cases id with
    | text name =>
      by_cases hc : containsId s.absolute (.text name) = true
      · simp only [hc, textWrite?, if_true]
      · simp only [hc, textWrite?, Bool.false_eq_true, if_false, Seeds.add]
        rw [hlater _ (Or.inr rfl)]
        simp only [List.map_cons, List.reverse_cons, List.append_assoc]
        rfl
    | _ => rfl

theorem nameRest_eq {modules : List Id} (hn : (modules.map Key.of).Nodup) (names : Table String) :
    nameRest modules names = names.insertAll (restWrites modules names) := by
  induction modules generalizing names with
  | nil => rfl
  | cons id modules ih =>
    rw [List.map_cons, List.nodup_cons] at hn
    rw [nameRest, List.foldl_cons, ← nameRest, ih hn.2, restWrites, restWrites, List.filterMap_cons]
    by_cases hc : names.contains id = true
    · simp only [hc, if_true]
    · have hlater : ∀ m ∈ modules, (names.insert id ("/" ++ spelled id)).contains m =
          names.contains m := by
        intro m hm
        rw [Bool.eq_iff_iff, Table.contains_iff, Table.contains_iff, Table.mem_keys_insert]
        exact or_iff_right fun he => hn.1 (List.mem_map.mpr ⟨m, hm, he⟩)
      simp only [hc, Bool.false_eq_true, if_false, Table.insertAll_cons]
      refine congrArg _ (List.filterMap_congr fun m hm => ?_)
      rw [hlater m hm]

/-! ### Which ids have a name from the start -/

namespace Layout

def IsPackage (l : Layout) (k : Key) : Prop :=
  ∃ e ∈ l.dependencyEdges, isRelative e.required = false ∧ Key.of e.target = k

def IsTextId (l : Layout) (k : Key) : Prop :=
  ∃ m ∈ l.modules, ∃ s, m.1 = .text s ∧ Key.of m.1 = k

def IsAbsolute (l : Layout) (k : Key) : Prop :=
  l.IsPackage k ∨ l.IsTextId k

def IsSeed (l : Layout) (k : Key) : Prop :=
  (∃ id ∈ l.entries, Key.of id = k) ∨ l.IsAbsolute k

def ids (l : Layout) : List Id :=
  l.modules.map (·.1)

def seeds (l : Layout) : Seeds :=
  textSeeds l.ids (packageSeeds l.dependencyEdges (entryNames l.entries))

def textWrites (l : Layout) : List (Id × String) :=
  l.ids.filterMap (textWrite? ((packageWrites l.dependencyEdges).map (·.1)).reverse)

variable {l : Layout}

theorem mem_packageWrites_iff {es : List Edge} {w : Id × String} : w ∈ packageWrites es ↔
    ∃ e ∈ es, isRelative e.required = false ∧ w = (e.target, packageName e.required) := by
  rw [packageWrites, List.mem_filterMap]
  refine exists_congr fun e => and_congr_right fun _ => ?_
  cases isRelative e.required <;> simp [eq_comm]

theorem mem_packageWrites {k : Key} :
    (∃ w ∈ packageWrites l.dependencyEdges, Key.of w.1 = k) ↔ l.IsPackage k := by
  simp only [mem_packageWrites_iff, IsPackage]
  constructor
  · rintro ⟨w, ⟨e, he, hr, rfl⟩, rfl⟩
    exact ⟨e, he, hr, rfl⟩
  · rintro ⟨e, he, hr, rfl⟩
    exact ⟨_, ⟨e, he, hr, rfl⟩, rfl⟩

theorem containsId_packages {id : Id} :
    containsId ((packageWrites l.dependencyEdges).map (·.1)).reverse id = true ↔
      l.IsPackage (Key.of id) := by
  rw [containsId_iff, ← mem_packageWrites]
  simp only [List.mem_reverse, List.mem_map, exists_exists_and_eq_and]

theorem mem_textWrites_iff {w : Id × String} : w ∈ l.textWrites ↔
    ∃ s, w = (.text s, "/" ++ s) ∧ .text s ∈ l.ids ∧ ¬ l.IsPackage (.text s) := by
  rw [textWrites, List.mem_filterMap]
  constructor
  · rintro ⟨id, hid, hw⟩
    cases id with
    | text s =>
      rw [textWrite?] at hw
      split at hw
      · cases hw
      · rename_i hc
        exact ⟨s, (Option.some.inj hw).symm, hid, fun hp => hc (containsId_packages.mpr hp)⟩
    | _ => cases hw
  · rintro ⟨s, rfl, hid, hp⟩
    exact ⟨.text s, hid, if_neg fun hc => hp (containsId_packages.mp hc)⟩

theorem isTextId_iff {k : Key} : l.IsTextId k ↔ ∃ s, k = .text s ∧ .text s ∈ l.ids := by
  constructor
  · rintro ⟨m, hm, s, hs, rfl⟩
    exact ⟨s, by rw [hs]; rfl, List.mem_map.mpr ⟨m, hm, hs⟩⟩
  · rintro ⟨s, rfl, hid⟩
    obtain ⟨m, hm, hs⟩ := List.mem_map.mp hid
    exact ⟨m, hm, s, hs, by rw [hs]; rfl⟩

theorem mem_textWrites {k : Key} :
    (l.IsPackage k ∨ ∃ w ∈ l.textWrites, Key.of w.1 = k) ↔ l.IsAbsolute k := by
  rw [IsAbsolute, isTextId_iff]
  constructor
  · rintro (h | ⟨w, hw, rfl⟩)
    · exact Or.inl h
    · obtain ⟨s, rfl, hid, -⟩ := mem_textWrites_iff.mp hw
      exact Or.inr ⟨s, rfl, hid⟩
  · rintro (h | ⟨s, rfl, hid⟩)
    · exact Or.inl h
    · by_cases hp : l.IsPackage (.text s)
      · exact Or.inl hp
      · exact Or.inr ⟨_, mem_textWrites_iff.mpr ⟨s, rfl, hid, hp⟩, rfl⟩

section

variable (hn : l.modules.keys.Nodup)

include hn

theorem nodup_ids : (l.ids.map Key.of).Nodup := by
  rw [ids, List.map_map]
  exact hn

theorem seeds_eq : l.seeds = ⟨Table.insertAll []
      (entryWrites l.entries ++ packageWrites l.dependencyEdges ++ l.textWrites),
    (l.textWrites.map (·.1)).reverse ++ ((packageWrites l.dependencyEdges).map (·.1)).reverse⟩ := by
  rw [seeds, packageSeeds_eq, textSeeds_eq (nodup_ids hn), entryNames_eq, ← textWrites,
    Table.insertAll_append, Table.insertAll_append]

theorem containsId_absolute {id : Id} :
    containsId l.seeds.absolute id = true ↔ l.IsAbsolute (Key.of id) := by
  rw [seeds_eq hn, containsId, List.any_append, Bool.or_eq_true, ← containsId, ← containsId,
    containsId_packages, or_comm, ← mem_textWrites, containsId_iff]
  simp only [List.mem_reverse, List.mem_map, exists_exists_and_eq_and]

theorem nodup_seeds : l.seeds.names.keys.Nodup := by
  rw [seeds_eq hn]
  exact Table.nodup_insertAll (t := []) List.nodup_nil _

theorem mem_seeds {k : Key} : k ∈ l.seeds.names.keys ↔ l.IsSeed k := by
  have hentries : (∃ w ∈ entryWrites l.entries, Key.of w.1 = k) ↔ ∃ id ∈ l.entries, Key.of id = k := by
    conv_rhs => rw [← map_fst_entryWrites l.entries]
    simp only [List.mem_map, exists_exists_and_eq_and]
  rw [seeds_eq hn, Table.mem_keys_insertAll, IsSeed, ← mem_textWrites, ← mem_packageWrites,
    ← hentries]
  simp only [Table.keys, List.map_nil, List.not_mem_nil, false_or, List.mem_append, or_and_right,
    exists_or, or_assoc]

end

end Layout

end Legible.Bundle
