import Legible.Proofs.Scope.Successive

/-!
The tables of scopes while variables get new names, one after the other and in any order, each a name
that is free where somebody in its scope looks from.
-/

namespace Legible

namespace Scope

/-- A variable to be renamed, the scope to look from for a free name, and what to call it. -/
structure Wish where
  path : Path
  index : Nat
  viewpoint : Path
  candidate : String

def Wish.grant (r : Scope × Names) (w : Wish) : Scope × Names :=
  r.1.rename w.path w.index (r.1.uniqueName w.viewpoint w.candidate) r.2

def grantAll (t : Tree) (ws : List Wish) : Scope × Names :=
  ws.foldl Wish.grant (ofTree t, ∅)

variable {t : Tree} {root s d : Scope} {p q : Path} {i : Nat} {v : Variable} {name new : String}

theorem rename_of_none (h : (root.at? p).bind (·.declared[i]?) = none) (new : String)
    (names : Names) : root.rename p i new names = (root, names) := by
  rw [rename]
  cases hs : root.at? p with
  | none => rfl
  | some s =>
    rw [hs, Option.bind_some] at h
    simp only [h]

theorem rename_of_some (hs : root.at? p = some s) (hv : s.declared[i]? = some v) (new : String)
    (names : Names) : (root.rename p i new names).1 =
      root.modifyAt (fun s => renamedScope s i v new) p := by
  simp only [rename, hs, hv]

theorem at?_rename_cases {names : Names} (hs : root.at? p = some s) (hv : s.declared[i]? = some v)
    (hd : (root.rename p i new names).1.at? q = some d) :
    (p = q ∧ d = renamedScope s i v new) ∨
      p ≠ q ∧ ∃ e cs, root.at? q = some e ∧ d = { e with children := cs } := by
  rw [rename_of_some hs hv] at hd
  refine (at?_modifyAt_cases (f := fun s => renamedScope s i v new) (fun _ => rfl) hd).imp_left ?_
  rintro ⟨rfl, e, he, rfl⟩
  exact ⟨rfl, by rw [Option.some.inj (he.symm.trans hs)]⟩

theorem outline_rename {names : Names} (hs : root.at? p = some s) (hv : s.declared[i]? = some v)
    (q : Path) : ((root.rename p i new names).1.at? q).map outline = (root.at? q).map outline := by
  rw [rename_of_some hs hv]
  by_cases hq : q = p
  · rw [hq, at?_modifyAt_self, hs, Option.map_some, Option.map_some, outline_renamedScope hv]
    rfl
  · exact map_at?_modifyAt (f := fun s => renamedScope s i v new) (φ := outline)
      (fun _ => rfl) (fun _ _ => rfl) root hq

/-! ### Tables and lists of variables -/

theorem mem_tableOf {vs : List Variable} :
    (name, i) ∈ tableOf vs ↔ ∃ v, vs[i]? = some v ∧ v.name = name := by
  constructor
  · intro h
    obtain ⟨⟨v, j⟩, hv, he⟩ := List.mem_map.mp h
    obtain ⟨rfl, rfl⟩ := Prod.mk.inj he
    exact ⟨v, List.mk_mem_zipIdx_iff_getElem?.mp hv, rfl⟩
  · rintro ⟨v, hv, rfl⟩
    exact List.mem_map.mpr ⟨(v, i), List.mk_mem_zipIdx_iff_getElem?.mpr hv, rfl⟩

theorem position?_eq_some_iff_mem (h : (s.table.map (·.1)).Nodup) :
    s.position? name = some i ↔ (name, i) ∈ s.table :=
  ⟨mem_of_lookup_eq, lookup_eq_of_mem h⟩

theorem Indexed.nodup (h : s.Indexed) : (s.declared.map (·.name)).Nodup := by
  rw [List.nodup_iff_injective_getElem]
  rintro ⟨i, hi⟩ ⟨j, hj⟩ he
  rw [List.length_map] at hi hj
  simp only [List.getElem_map] at he
  have hi' := (h _ i).mpr ⟨s.declared[i], List.getElem?_eq_getElem hi, rfl⟩
  have hj' := (h _ j).mpr ⟨s.declared[j], List.getElem?_eq_getElem hj, rfl⟩
  rw [he] at hi'
  simpa using hi'.symm.trans hj'

theorem Indexed.table_perm (h : s.Indexed) (hkeys : (s.table.map (·.1)).Nodup) :
    s.table.Perm (tableOf s.declared) := by
  have htable : (tableOf s.declared).Nodup := by
    apply List.Nodup.of_map (·.1)
    rw [names_tableOf]
    exact h.nodup
  rw [List.perm_ext_iff_of_nodup (List.Nodup.of_map _ hkeys) htable]
  rintro ⟨name, i⟩
  rw [mem_tableOf, ← h name i, position?_eq_some_iff_mem hkeys]

theorem nodup_keys_renamedScope (h : (s.table.map (·.1)).Nodup) (i : Nat) (v : Variable)
    (new : String) : ((renamedScope s i v new).table.map (·.1)).Nodup := by
  have hsub : ∀ l : List (String × Nat), (l.map (·.1)).Nodup →
      ((l.filter (·.1 != new)).map (·.1)).Nodup :=
    fun l hl => hl.sublist (List.filter_sublist.map _)
  have hfirst : ((if s.position? v.name = some i then s.table.filter (·.1 != v.name)
      else s.table).map (·.1)).Nodup := by
    split
    · exact h.sublist (List.filter_sublist.map _)
    · exact h
  rw [renamedScope, List.map_cons, List.nodup_cons]
  constructor
  · simp
  · exact hsub _ hfirst

/-! ### One rename, and any number of them -/

structure Granted (t : Tree) (ws : List Wish) (root : Scope) : Prop where
  outline : ∀ q, (root.at? q).map outline = ((ofTree t).at? q).map outline
  indexed : ∀ q s, root.at? q = some s → s.Indexed
  keys : ∀ q s, root.at? q = some s → (s.table.map (·.1)).Nodup
  kept : ∀ q s i v, root.at? q = some s → s.declared[i]? = some v →
    (v.keepName = true ↔ ∃ w ∈ ws, w.path = q ∧ w.index = i)

theorem granted_ofTree (t : Tree) : Granted t [] (ofTree t) := by
  have hfresh : ∀ q s, (ofTree t).at? q = some s → s.Fresh := fun q s hs =>
    fresh_ofTree t s (at?_mem_scopes hs)
  constructor
  · exact fun _ => rfl
  · exact fun q s hs => (hfresh q s hs).indexed
  · intro q s hs
    rw [(hfresh q s hs).table, names_tableOf]
    exact (hfresh q s hs).nodup
  · intro q s i v hs hv
    simp [(hfresh q s hs).unkept v (List.mem_of_getElem? hv)]

theorem Granted.grant {ws : List Wish} {w : Wish} {r : Scope × Names} (h : Granted t ws r.1)
    (hw : w.path <+: w.viewpoint) : Granted t (ws ++ [w]) (w.grant r).1 := by
  have hmem : ∀ q i, (∃ w' ∈ ws ++ [w], w'.path = q ∧ w'.index = i) ↔
      (∃ w' ∈ ws, w'.path = q ∧ w'.index = i) ∨ (w.path = q ∧ w.index = i) := by
    intro q i
    simp [or_and_right, exists_or]
  rw [Wish.grant]
  cases hwish : (r.1.at? w.path).bind (·.declared[w.index]?) with
  | none =>
    rw [rename_of_none hwish]
    refine ⟨h.outline, h.indexed, h.keys, ?_⟩
    intro q s i v hs hv
    rw [h.kept q s i v hs hv, hmem, or_iff_left]
    rintro ⟨rfl, rfl⟩
    rw [hs, Option.bind_some, hv] at hwish
    cases hwish
  | some v =>
    obtain ⟨s, hs, hv⟩ := Option.bind_eq_some_iff.mp hwish
    have hnew := position?_uniqueName hs hw w.candidate
    constructor
    · intro q
      rw [outline_rename hs hv, h.outline]
    · intro q d hd
      rcases at?_rename_cases hs hv hd with ⟨rfl, rfl⟩ | ⟨-, e, cs, he, rfl⟩
      · exact (h.indexed _ s hs).renamedScope hv fun j hj => by simp [hnew] at hj
      · exact h.indexed q e he
    · intro q d hd
      rcases at?_rename_cases hs hv hd with ⟨rfl, rfl⟩ | ⟨-, e, cs, he, rfl⟩
      · exact nodup_keys_renamedScope (h.keys _ s hs) _ v _
      · exact h.keys q e he
    · intro q d j u hd hu
      rw [hmem]
      rcases at?_rename_cases hs hv hd with ⟨rfl, rfl⟩ | ⟨hq, e, cs, he, rfl⟩
      · rw [renamedScope, List.getElem?_set] at hu
        split_ifs at hu with hj
        · obtain rfl := Option.some.inj hu
          simp [hj]
        · rw [h.kept _ s j u hs hu, or_iff_left]
          exact fun hw => hj hw.2
      · rw [h.kept q e j u he hu, or_iff_left]
        exact fun hw => hq hw.1

theorem granted_grantAll {ws : List Wish} (hws : ∀ w ∈ ws, w.path <+: w.viewpoint) :
    Granted t ws (grantAll t ws).1 := by
  induction ws using List.reverseRecOn with
  | nil => exact granted_ofTree t
  | append_singleton ws w ih =>
    rw [List.forall_mem_append, List.forall_mem_singleton] at hws
    rw [grantAll, List.foldl_concat]
    exact (ih hws.1).grant hws.2

/-- However many variables get new names, no two of a scope have the same name, its table has the
current name of each and nothing else, and just the renamed ones are marked as named on purpose. -/
theorem grantAll_consistent (t : Tree) (ws : List Wish) (hws : ∀ w ∈ ws, w.path <+: w.viewpoint) :
    (∀ q, ((grantAll t ws).1.at? q).map outline = ((ofTree t).at? q).map outline) ∧
    ∀ q s, (grantAll t ws).1.at? q = some s →
      (s.declared.map (·.name)).Nodup ∧ s.table.Perm (tableOf s.declared) ∧
      (∀ name i, s.position? name = some i ↔ ∃ v, s.declared[i]? = some v ∧ v.name = name) ∧
      ∀ (i : Nat) (v : Variable), s.declared[i]? = some v →
        (v.keepName = true ↔ ∃ w ∈ ws, w.path = q ∧ w.index = i) := by
  have h := granted_grantAll (t := t) hws
  refine ⟨h.outline, fun q s hs => ?_⟩
  have hindexed := h.indexed q s hs
  refine ⟨hindexed.nodup, hindexed.table_perm (h.keys q s hs), hindexed, fun i v hv => ?_⟩
  exact h.kept q s i v hs hv

def parameterWishes : List Wish :=
  [⟨[0], 1, [0, 0], "b"⟩, ⟨[0, 0], 1, [0, 0], "b2"⟩, ⟨[0], 1, [0], "b"⟩]

theorem grantAll_consistent_parameters :
    ∃ s, (grantAll nestedFunctions parameterWishes).1.at? [0, 0] = some s ∧
      s.table = [("b22", 1), ("arguments", 0)] ∧ (s.declared.map (·.name)).Nodup ∧
      s.table.Perm (tableOf s.declared) ∧ s.position? "b" = none ∧
      ∀ (i : Nat) (v : Variable), s.declared[i]? = some v →
        (v.keepName = true ↔ ∃ w ∈ parameterWishes, w.path = [0, 0] ∧ w.index = i) := by
  have htable : ((grantAll nestedFunctions parameterWishes).1.at? [0, 0]).map (·.table) =
      some [("b22", 1), ("arguments", 0)] := by
    decide +kernel
  obtain ⟨s, hs, htable⟩ := Option.map_eq_some_iff.mp htable
  obtain ⟨-, hall⟩ := grantAll_consistent nestedFunctions parameterWishes (by decide)
  obtain ⟨hnames, hperm, -, hkept⟩ := hall [0, 0] s hs
  refine ⟨s, hs, htable, hnames, hperm, ?_, hkept⟩
  rw [position?, htable]
  decide

end Scope

end Legible
