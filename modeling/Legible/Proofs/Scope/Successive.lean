import Legible.Proofs.Scope.Capture
import Legible.Proofs.Scope.Placement

/-!
Variables renamed one after the other: what of the scopes stays as it was found in the tree, and how
the names of variables, the tables of scopes and the names of identifiers go together all the time.
-/

namespace Legible

namespace Scope

variable {root s : Scope} {p q : Path} {i : Nat} {v : Variable} {name old new : String}

/-! ### Looking up names -/

def positionAt? (root : Scope) (p : Path) (name : String) : Option Nat :=
  (root.at? p).bind (·.position? name)

theorem lookup?_eq (root : Scope) (p : Path) (name : String) : root.lookup? p name =
    p.inits.reverse.findSome? fun q => (root.positionAt? q name).map (q, ·) := by
  have hinits : p.inits = (List.range (p.length + 1)).map p.take := by
    apply List.ext_getElem
    · simp
    · intro n hn _
      simp [List.getElem_inits]
  rw [hinits, ← List.map_reverse, List.findSome?_map]
  rfl

theorem lookup?_concat (root : Scope) (p : Path) (i : Nat) (name : String) :
    root.lookup? (p ++ [i]) name =
      ((root.positionAt? (p ++ [i]) name).map (p ++ [i], ·)).or (root.lookup? p name) := by
  rw [lookup?_eq, List.inits_append, List.reverse_append, List.findSome?_append, lookup?_eq]
  simp

theorem lookup?_eq_some (h : root.lookup? q name = some (p, i)) : p <+: q ∧
    root.positionAt? p name = some i ∧
      ∀ r, r <+: q → p.length < r.length → root.positionAt? r name = none := by
  induction q using List.reverseRecOn with
  | nil =>
    rw [lookup?_eq] at h
    obtain ⟨j, hj, he⟩ : ∃ j, root.positionAt? [] name = some j ∧ ([], j) = (p, i) := by
      simpa using h
    obtain ⟨rfl, rfl⟩ := Prod.mk.inj he
    refine ⟨List.nil_prefix, hj, fun r hr hlt => ?_⟩
    rw [List.prefix_nil.mp hr] at hlt
    exact absurd hlt (Nat.lt_irrefl _)
  | append_singleton q k ih =>
    rw [lookup?_concat] at h
    cases hk : root.positionAt? (q ++ [k]) name with
    | some j =>
      rw [hk] at h
      obtain ⟨rfl, rfl⟩ := Prod.mk.inj (Option.some.inj h)
      exact ⟨List.prefix_refl _, hk, fun r hr hlt => absurd hr.length_le (Nat.not_le_of_lt hlt)⟩
    | none =>
      rw [hk] at h
      obtain ⟨hp, hi, hinner⟩ := ih h
      refine ⟨hp.trans (List.prefix_append q [k]), hi, fun r hr hlt => ?_⟩
      rcases List.prefix_concat_iff.mp hr with rfl | hr
      · exact hk
      · exact hinner r hr hlt

theorem exists_lookup? (hp : p <+: q) (h : (root.positionAt? p name).isSome = true) :
    ∃ r j, root.lookup? q name = some (r, j) ∧ p <+: r := by
  cases hl : root.lookup? q name with
  | none =>
    rw [lookup?_eq, List.findSome?_eq_none_iff] at hl
    have hnone := hl p (List.mem_reverse.mpr ((List.mem_inits p q).mpr hp))
    rw [Option.map_eq_none_iff.mp hnone] at h
    cases h
  | some found =>
    obtain ⟨r, j⟩ := found
    obtain ⟨hr, -, hinner⟩ := lookup?_eq_some hl
    refine ⟨r, j, rfl, List.prefix_of_prefix_length_le hp hr (Nat.le_of_not_lt fun hlt => ?_)⟩
    rw [hinner p hp hlt] at h
    cases h

/-! ### Tables -/

def Indexed (s : Scope) : Prop :=
  ∀ name i, s.position? name = some i ↔ ∃ v, s.declared[i]? = some v ∧ v.name = name

theorem Fresh.indexed (h : s.Fresh) : s.Indexed := by
  intro name i
  constructor
  · intro hi
    rw [position?, h.table] at hi
    exact exists_of_lookup_tableOf hi
  · rintro ⟨v, hv, rfl⟩
    exact (h.position?_eq_some_iff hv).mpr rfl

theorem position?_eq_none_iff : s.position? name = none ↔ s.declares name = false := by
  rw [position?, List.lookup_eq_none_iff, declares, List.any_eq_false]
  refine forall_congr' fun e => forall_congr' fun _ => ?_
  rw [bne_comm]
  simp

theorem positionAt?_eq_none_iff :
    root.positionAt? p name = none ↔ (root.at? p).any (·.declares name) = false := by
  rw [positionAt?]
  cases root.at? p with
  | none => exact iff_of_true rfl rfl
  | some s => exact position?_eq_none_iff

theorem lookup_filter_of_ne {l : List (String × Nat)} (h : name ≠ old) :
    (l.filter (·.1 != old)).lookup name = l.lookup name := by
  induction l with
  | nil => rfl
  | cons e l ih =>
    by_cases he : e.1 = old
    · rw [List.filter_cons_of_neg (by simp [he]), ih, List.lookup_cons,
        beq_false_of_ne (he ▸ h)]
    · rw [List.filter_cons_of_pos (by simp [he]), List.lookup_cons, List.lookup_cons, ih]

theorem lookup_filter_self (l : List (String × Nat)) (name : String) :
    (l.filter (·.1 != name)).lookup name = none := by
  refine List.lookup_eq_none_iff.mpr fun e he => ?_
  rw [bne_comm]
  exact (List.mem_filter.mp he).2

theorem Indexed.position?_renamedScope (h : s.Indexed) (hv : s.declared[i]? = some v) :
    (renamedScope s i v new).position? name =
      if name = new then some i else if name = v.name then none else s.position? name := by
  rw [renamedScope, if_pos ((h v.name i).mpr ⟨v, hv, rfl⟩), position?, List.lookup_cons]
  by_cases hn : name = new
  · rw [if_pos hn, hn, beq_self_eq_true]
  · rw [if_neg hn, beq_false_of_ne hn, lookup_filter_of_ne hn]
    by_cases hold : name = v.name
    · rw [if_pos hold, hold, lookup_filter_self]
    · rw [if_neg hold, lookup_filter_of_ne hold]
      rfl

theorem Indexed.renamedScope (h : s.Indexed) (hv : s.declared[i]? = some v)
    (hnew : ∀ j, s.position? new = some j → j = i) : (renamedScope s i v new).Indexed := by
  have hi := List.getElem?_eq_some_iff.mp hv
  intro name j
  rw [h.position?_renamedScope hv]
  by_cases hj : i = j
  · subst hj
    have hself : (Scope.renamedScope s i v new).declared[i]? =
        some { v with name := new, keepName := true } := List.getElem?_set_self hi.1
    rw [hself]
    have hother : s.position? name = some i → name = v.name := fun hn => by
      obtain ⟨u, hu, rfl⟩ := (h name i).mp hn
      rw [Option.some.inj (hu.symm.trans hv)]
    split_ifs with hn hold
    · simp [hn]
    · simp [Ne.symm hn]
    · simp [Ne.symm hn, mt hother hold]
  · have hsame : (Scope.renamedScope s i v new).declared[j]? = s.declared[j]? :=
      List.getElem?_set_ne hj
    rw [hsame, ← h name j]
    split_ifs with hn hold
    · simp [hn, hj, mt (hnew j) (Ne.symm hj)]
    · simp [hold, (h v.name i).mpr ⟨v, hv, rfl⟩, hj]
    · rfl

theorem position?_uniqueName (hs : root.at? p = some s) (hp : p <+: q) (candidate : String) :
    s.position? (root.uniqueName q candidate) = none :=
  position?_eq_none_iff.mpr ((uniqueName_free root q candidate).2 s (mem_along_of_outer hs hp))

/-! ### Places -/

theorem place_unique {t : Tree} (ht : t.Numbered) {c d : Scope} (hc : (ofTree t).at? p = some c)
    (hd : (ofTree t).at? q = some d) {u : Variable} {j : Nat} (hu : c.declared[i]? = some u)
    (hv : d.declared[j]? = some v) {x : Nat} (hx : x ∈ u.tags) (hx' : x ∈ v.tags) :
    p = q ∧ i = j := by
  have hn := nodup_tags ht
  have hpaths : ((ofTree t).paths.flatMap fun p =>
      ((ofTree t).at? p).toList.flatMap fun c => c.declared.flatMap Variable.tags).Nodup := by
    have hmap := congrArg (List.flatMap fun o : Option Scope =>
      o.toList.flatMap fun c => c.declared.flatMap Variable.tags) (map_at?_paths (ofTree t))
    rw [List.flatMap_map, List.flatMap_map] at hmap
    rw [hmap]
    simpa using hn
  have hmem : ∀ {p : Path} {c : Scope} {u : Variable} {i : Nat}, (ofTree t).at? p = some c →
      c.declared[i]? = some u → x ∈ u.tags →
        x ∈ ((ofTree t).at? p).toList.flatMap fun c => c.declared.flatMap Variable.tags := by
    intro p c u i hc hu hx
    rw [hc, Option.toList_some, List.flatMap_singleton]
    exact List.mem_flatMap.mpr ⟨u, List.mem_of_getElem? hu, hx⟩
  obtain rfl := eq_of_mem_flatMap hpaths (mem_paths hc) (mem_paths hd) (hmem hc hu hx)
    (hmem hd hv hx')
  obtain rfl := Option.some.inj (hc.symm.trans hd)
  have hpositions : (c.declared.zipIdx.flatMap fun e => e.1.tags).Nodup := by
    have hmap := congrArg (List.flatMap Variable.tags) (List.zipIdx_map_fst 0 c.declared)
    rw [List.flatMap_map] at hmap
    rw [hmap]
    exact (List.nodup_flatMap.mp hn).1 c (at?_mem_scopes hc)
  exact ⟨rfl, (Prod.mk.inj (eq_of_mem_flatMap hpositions (List.mem_zipIdx_iff_getElem?.mpr hu)
    (List.mem_zipIdx_iff_getElem?.mpr hv) hx hx')).2⟩

/-! ### What stays, and what goes together -/

def outline (s : Scope) : Scope :=
  { s with
    declared := s.declared.map fun v => { v with name := "", keepName := false }
    table := []
    children := [] }

theorem outline_renamedScope (hv : s.declared[i]? = some v) (new : String) :
    (renamedScope s i v new).outline = s.outline := by
  have hdeclared : (renamedScope s i v new).declared.map
      (fun v => { v with name := "", keepName := false }) =
        s.declared.map fun v => { v with name := "", keepName := false } := by
    obtain ⟨hi, rfl⟩ := List.getElem?_eq_some_iff.mp hv
    rw [renamedScope, List.map_set]
    refine (congrArg (List.set _ i) ?_).trans (List.set_getElem_self (by simpa using hi))
    rw [List.getElem_map]
  rw [outline, hdeclared, outline]
  rfl

theorem exists_of_outline_eq {c : Scope} (h : s.outline = c.outline)
    (hv : s.declared[i]? = some v) : ∃ u, c.declared[i]? = some u ∧
      u.identifiers = v.identifiers ∧ u.references = v.references := by
  have hi := congrArg (fun s => s.declared[i]?) h
  rw [outline, outline, List.getElem?_map, List.getElem?_map, hv, Option.map_some] at hi
  obtain ⟨u, hu, hi⟩ := Option.map_eq_some_iff.mp hi.symm
  obtain ⟨-, -, hidentifiers, hreferences, -⟩ := Variable.mk.inj hi
  exact ⟨u, hu, hidentifiers, hreferences⟩

structure Tracks (t : Tree) (root : Scope) (names : Names) : Prop where
  outline : ∀ q, (root.at? q).map outline = ((ofTree t).at? q).map outline
  indexed : ∀ q s, root.at? q = some s → s.Indexed
  current : ∀ q s, root.at? q = some s → ∀ v ∈ s.declared, ∀ o ∈ t.identifiers,
    o.tag ∈ v.identifiers → names.current o = v.name

section

variable {t : Tree} (ht : t.Numbered)

include ht

theorem tracks_ofTree : Tracks t (ofTree t) ∅ where
  outline _ := rfl
  indexed _ _ hs := (fresh_ofTree t _ (at?_mem_scopes hs)).indexed
  current q s hs v hv o ho htag := by
    have hdeclaring := mem_identifiers_of_tags ht (at?_mem_scopes hs) hv
      (List.mem_append_left v.references htag)
    rw [Names.current_eq, Std.HashMap.getElem?_empty, Option.getD_none,
      ht.name_eq ho hdeclaring rfl]

end

section

variable {t : Tree} {names : Names} (h : Tracks t root names)

include h

theorem Tracks.exists_at? (hs : root.at? p = some s) :
    ∃ c, (ofTree t).at? p = some c ∧ s.outline = c.outline := by
  have hp := h.outline p
  rw [hs, Option.map_some] at hp
  obtain ⟨c, hc, he⟩ := Option.map_eq_some_iff.mp hp.symm
  exact ⟨c, hc, he.symm⟩

theorem Tracks.exists_variable (hs : root.at? p = some s) (hv : s.declared[i]? = some v) :
    ∃ c u, (ofTree t).at? p = some c ∧ c.declared[i]? = some u ∧
      u.identifiers = v.identifiers ∧ u.references = v.references := by
  obtain ⟨c, hc, he⟩ := h.exists_at? hs
  obtain ⟨u, hu⟩ := exists_of_outline_eq he hv
  exact ⟨c, u, hc, hu⟩

theorem Tracks.exists_of_ofTree {c : Scope} {u : Variable} (hc : (ofTree t).at? p = some c)
    (hu : u ∈ c.declared) : ∃ s, root.at? p = some s ∧
      ∃ (i : Nat) (v : Variable), s.declared[i]? = some v ∧ v.identifiers = u.identifiers := by
  have hp := h.outline p
  rw [hc, Option.map_some] at hp
  obtain ⟨s, hs, he⟩ := Option.map_eq_some_iff.mp hp
  obtain ⟨i, hi⟩ := List.mem_iff_getElem?.mp hu
  obtain ⟨v, hv, hidentifiers, -⟩ := exists_of_outline_eq he.symm hi
  exact ⟨s, hs, i, v, hv, hidentifiers⟩

theorem Tracks.positionAt?_eq_some : root.positionAt? p name = some i ↔
    ∃ s v, root.at? p = some s ∧ s.declared[i]? = some v ∧ v.name = name := by
  rw [positionAt?, Option.bind_eq_some_iff]
  refine exists_congr fun s => ⟨fun ⟨hs, hi⟩ => ?_, fun ⟨v, hs, hv⟩ => ?_⟩
  · obtain ⟨v, hv⟩ := (h.indexed p s hs name i).mp hi
    exact ⟨v, hs, hv⟩
  · exact ⟨hs, (h.indexed p s hs name i).mpr ⟨v, hv⟩⟩

variable (ht : t.Numbered) {d : Scope} {u : Variable} {j x : Nat}

include ht

theorem Tracks.place_unique (hs : root.at? p = some s) (hv : s.declared[i]? = some v)
    (hd : root.at? q = some d) (hu : d.declared[j]? = some u) (hx : x ∈ v.identifiers)
    (hx' : x ∈ u.identifiers) : p = q ∧ i = j := by
  obtain ⟨c, v', hc, hv', hids, -⟩ := h.exists_variable hs hv
  obtain ⟨e, u', he, hu', hids', -⟩ := h.exists_variable hd hu
  exact Scope.place_unique ht hc he hv' hu' (List.mem_append_left _ (hids.symm ▸ hx))
    (List.mem_append_left _ (hids'.symm ▸ hx'))

theorem Tracks.identifier_not_incoming (hd : root.at? q = some d) (hu : d.declared[j]? = some u)
    (hx : x ∈ u.identifiers) {c : Scope} (hc : (ofTree t).at? p = some c) {o : Occurrence}
    (ho : o ∈ c.incoming) : o.tag ≠ x := by
  obtain ⟨e, u', he, hu', hids, -⟩ := h.exists_variable hd hu
  exact Scope.identifier_not_incoming ht (at?_mem_scopes he) (List.mem_of_getElem? hu')
    (hids.symm ▸ hx) (at?_mem_scopes hc) ho

theorem Tracks.getElem?_renamedNames (hs : root.at? p = some s) (hv : s.declared[i]? = some v)
    (hd : root.at? q = some d) (hu : d.declared[j]? = some u) (hx : x ∈ u.identifiers)
    (new : String) : (renamedNames s v new names)[x]? =
      if x ∈ v.identifiers then some new else names[x]? := by
  have hincoming : ∀ {r : Path} {e : Scope}, root.at? r = some e →
      ∃ c, (ofTree t).at? r = some c ∧ e.references = c.references ∧ e.through = c.through := by
    intro r e he
    obtain ⟨c, hc, hsame⟩ := h.exists_at? he
    have hreferences : e.outline.references = c.outline.references := congrArg _ hsame
    have hthrough : e.outline.through = c.outline.through := congrArg _ hsame
    exact ⟨c, hc, hreferences, hthrough⟩
  rw [getElem?_renamedNames_of_current]
  · refine if_congr ?_ rfl rfl
    rw [Variable.tags, List.mem_append, or_iff_left]
    intro href
    obtain ⟨c, v', hc, hv', -, hrefs⟩ := h.exists_variable hs hv
    have hfresh := fresh_ofTree t c (at?_mem_scopes hc)
    obtain ⟨-, o, ho, -, htag⟩ :=
      (hfresh.references v' (List.mem_of_getElem? hv') x).mp (hrefs.symm ▸ href)
    exact h.identifier_not_incoming ht hd hu hx hc ho htag
  · intro r hr htag
    obtain ⟨c, hc, hreferences, -⟩ := hincoming hs
    rw [hreferences] at hr
    exact absurd htag (h.identifier_not_incoming ht hd hu hx hc
      (List.mem_append_left _ (List.mem_map_of_mem hr)))
  · intro c hc e he o ho htag
    obtain ⟨r, hr⟩ := exists_path_of_mem_scopes (mem_scopes_of_child hc he)
    obtain ⟨f, hf, -, hthrough⟩ := hincoming (r := p ++ r) (e := e) (by
      rw [at?_append, hs, Option.bind_some, hr])
    rw [hthrough] at ho
    have hin := ((fresh_ofTree t f (at?_mem_scopes hf)).through o).mp ho
    exact absurd htag (h.identifier_not_incoming ht hd hu hx hf hin.1)

theorem Tracks.current_rename (hs : root.at? p = some s) (hv : s.declared[i]? = some v)
    (hd : root.at? q = some d) (hu : d.declared[j]? = some u) {o : Occurrence}
    (ho : o.tag ∈ u.identifiers) (new : String) : (root.rename p i new names).2.current o =
      if o.tag ∈ v.identifiers then new else names.current o := by
  rw [rename_eq hs hv, Names.current_eq, h.getElem?_renamedNames ht hs hv hd hu ho]
  split
  · rfl
  · exact (names.current_eq o).symm

theorem Tracks.rename (hs : root.at? p = some s) (hv : s.declared[i]? = some v)
    (hnew : s.position? new = none) :
    Tracks t (root.rename p i new names).1 (root.rename p i new names).2 := by
  have hroot : (root.rename p i new names).1 =
      root.modifyAt (fun s => renamedScope s i v new) p := by
    simp only [Scope.rename, hs, hv]
  have hcases : ∀ {q d}, (root.rename p i new names).1.at? q = some d →
      (p = q ∧ d = renamedScope s i v new) ∨
        p ≠ q ∧ ∃ e cs, root.at? q = some e ∧ d = { e with children := cs } := by
    intro q d hd
    rw [hroot] at hd
    refine (at?_modifyAt_cases (f := fun s => renamedScope s i v new) (fun _ => rfl) hd).imp_left ?_
    rintro ⟨rfl, c, hc, rfl⟩
    exact ⟨rfl, by rw [Option.some.inj (hc.symm.trans hs)]⟩
  constructor
  · intro q
    rw [hroot, ← h.outline q]
    by_cases hq : q = p
    · rw [hq, at?_modifyAt_self, hs, Option.map_some, Option.map_some, outline_renamedScope hv]
      rfl
    · exact map_at?_modifyAt (f := fun s => renamedScope s i v new) (φ := Scope.outline)
        (fun _ => rfl) (fun _ _ => rfl) root hq
  · intro q d hd
    rcases hcases hd with ⟨-, rfl⟩ | ⟨-, e, cs, he, rfl⟩
    · exact (h.indexed p s hs).renamedScope hv fun j hj => by simp [hnew] at hj
    · exact h.indexed q e he
  · intro q d hd u hu o ho htag
    obtain ⟨j, hj⟩ := List.mem_iff_getElem?.mp hu
    rcases hcases hd with ⟨rfl, rfl⟩ | ⟨hq, e, cs, he, rfl⟩
    · rw [renamedScope, List.getElem?_set] at hj
      split_ifs at hj with hij
      · obtain rfl := Option.some.inj hj
        exact (h.current_rename ht hs hv hs hv htag new).trans (if_pos htag)
      · have hother : o.tag ∉ v.identifiers := fun hx =>
          hij (h.place_unique ht hs hv hs hj hx htag).2
        rw [h.current_rename ht hs hv hs hj htag, if_neg hother]
        exact h.current p s hs u (List.mem_of_getElem? hj) o ho htag
    · have hother : o.tag ∉ v.identifiers := fun hx =>
        hq (h.place_unique ht hs hv he hj hx htag).1
      rw [h.current_rename ht hs hv he hj htag, if_neg hother]
      exact h.current q e he u (List.mem_of_getElem? hj) o ho htag

end

end Scope

end Legible
