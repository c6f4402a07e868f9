import Legible.Proofs.Pattern.Fill

namespace Legible

/-- The captures hold what a placeholder takes: a tree that it accepts or, for a run of items, a list
of such trees. -/
def Captures.supply (c : Captures) (h : Placeholder) : Bool :=
  match c.lookup h.name with
  | some (.list us) => h.repeatable && us.all h.accepts && (!us.isEmpty || h.optional)
  | some u => !h.repeatable && h.accepts u
  | none => false

namespace Captures

variable {c : Captures} {h : Placeholder}

theorem exists_of_supply (hs : c.supply h = true) (hr : h.repeatable = false) :
    ∃ u, c.lookup h.name = some u ∧ h.accepts u = true := by
  unfold supply at hs
  rw [hr] at hs
  split at hs
  · cases hs
  · rename_i u _ hu
    exact ⟨u, hu, hs⟩
  · cases hs

theorem exists_list_of_supply (hs : c.supply h = true) (hr : h.repeatable = true) :
    ∃ us, c.lookup h.name = some (.list us) ∧ (∀ u ∈ us, h.accepts u = true) ∧
      (us = [] → h.optional = true) := by
  unfold supply at hs
  rw [hr] at hs
  split at hs
  · rename_i us hu
    rw [Bool.true_and, Bool.and_eq_true, List.all_eq_true] at hs
    exact ⟨us, hu, hs.1, fun he => by simpa [he] using hs.2⟩
  · cases hs
  · cases hs

theorem lookup_of_supply (hs : c.supply h = true) : ∃ u, c.lookup h.name = some u := by
  cases hr : h.repeatable with
  | false =>
    obtain ⟨u, hu, -⟩ := exists_of_supply hs hr
    exact ⟨u, hu⟩
  | true =>
    obtain ⟨us, hu, -⟩ := exists_list_of_supply hs hr
    exact ⟨.list us, hu⟩

end Captures

namespace Pattern

mutual

def holes : Pattern → List Placeholder
  | .hole h => [h]
  | .scalar _ => []
  | .list ps => holesItems ps
  | .object fs => holesFields fs
termination_by structural p => p

def holesItems : List Pattern → List Placeholder
  | [] => []
  | p :: ps => p.holes ++ holesItems ps
termination_by structural ps => ps

def holesFields : List (String × Pattern) → List Placeholder
  | [] => []
  | (_, p) :: fs => p.holes ++ holesFields fs
termination_by structural fs => fs

end

mutual

def runsInLists : Pattern → Bool
  | .hole h => !h.repeatable
  | .scalar _ => true
  | .list ps => runsInListsItems ps
  | .object fs => runsInListsFields fs
termination_by structural p => p

def runsInListsItems : List Pattern → Bool
  | [] => true
  | p :: ps => (p.run?.isSome || p.runsInLists) && runsInListsItems ps
termination_by structural ps => ps

def runsInListsFields : List (String × Pattern) → Bool
  | [] => true
  | (_, p) :: fs => p.runsInLists && runsInListsFields fs
termination_by structural fs => fs

end

theorem holesItems_eq (ps : List Pattern) : holesItems ps = ps.flatMap holes := by
  induction ps with
  | nil => rfl
  | cons p ps ih => rw [holesItems, List.flatMap_cons, ih]

theorem holesFields_eq (fs : List (String × Pattern)) :
    holesFields fs = fs.flatMap (·.2.holes) := by
  induction fs with
  | nil => rfl
  | cons f fs ih => rw [holesFields, List.flatMap_cons, ih]

theorem runsInListsItems_iff {ps : List Pattern} :
    runsInListsItems ps = true ↔ ∀ p ∈ ps, p.run? = none → p.runsInLists = true := by
  induction ps with
  | nil => simp [runsInListsItems]
  | cons p ps ih =>
    rw [runsInListsItems, Bool.and_eq_true, ih, List.forall_mem_cons]
    cases p.run? <;> simp

theorem runsInListsFields_iff {fs : List (String × Pattern)} :
    runsInListsFields fs = true ↔ ∀ f ∈ fs, f.2.runsInLists = true := by
  induction fs with
  | nil => simp [runsInListsFields]
  | cons f fs ih => simp [runsInListsFields, ih]

theorem exists_hole_of_mem_names {p : Pattern} {x : String} (hx : x ∈ p.names) :
    ∃ h ∈ p.holes, h.name = x := by
  induction p with
  | hole h => exact ⟨h, List.mem_singleton_self h, (List.mem_singleton.mp hx).symm⟩
  | scalar a => cases hx
  | list ps ih =>
    rw [names] at hx
    rw [holes]
    induction ps with
    | nil => cases hx
    | cons p ps ihs =>
      rw [List.forall_mem_cons] at ih
      rw [namesItems, List.mem_append] at hx
      rw [holesItems]
      rcases hx with hx | hx
      · obtain ⟨h, hh, hn⟩ := ih.1 hx
        exact ⟨h, List.mem_append_left _ hh, hn⟩
      · obtain ⟨h, hh, hn⟩ := ihs ih.2 hx
        exact ⟨h, List.mem_append_right _ hh, hn⟩
  | object fs ih =>
    rw [names] at hx
    rw [holes]
    induction fs with
    | nil => cases hx
    | cons f fs ihs =>
      rw [List.forall_mem_cons] at ih
      rw [namesFields, List.mem_append] at hx
      rw [holesFields]
      rcases hx with hx | hx
      · split at hx
        · cases hx
        · obtain ⟨h, hh, hn⟩ := ih.1 hx
          exact ⟨h, List.mem_append_left _ hh, hn⟩
      · obtain ⟨h, hh, hn⟩ := ihs ih.2 hx
        exact ⟨h, List.mem_append_right _ hh, hn⟩

/-! ### Filling -/

def Fills (c : Captures) (p : Pattern) : Prop :=
  ∃ r, p.fill c = .ok r ∧ r.distinct = true ∧ Instance c.assignment p r

theorem spliced_of_instance {s : Assignment} {p : Pattern} {r : Tree} (h : Instance s p r) :
    p.spliced r = [r] := by
  cases h with
  | @hole g _ ha _ =>
    cases r with
    | list ts => exact absurd rfl (not_list_of_accepts ha ts)
    | scalar a => rfl
    | object tag fs => rfl
  | scalar _ => rfl
  | list _ => rfl
  | object _ => rfl

section

variable {c : Captures} (hd : ∀ f ∈ c, f.2.distinct = true)

include hd

theorem fills_hole {h : Placeholder} (hr : h.repeatable = false) (hs : c.supply h = true) :
    Fills c (.hole h) := by
  obtain ⟨u, hu, ha⟩ := Captures.exists_of_supply hs hr
  have hdu := hd _ (Fields.mem_of_lookup hu)
  have he : c.assignment h.name = u := by rw [Captures.assignment, hu, Option.getD_some]
  refine ⟨u, ?_, hdu, .hole ha ?_⟩
  · rw [fill_hole (by rw [hu]; rfl), he]
  · rw [he]
    exact Tree.same_refl hdu

theorem fills_items {ps : List Pattern} (ih : ∀ p ∈ ps, p.run? = none → Fills c p)
    (hs : ∀ h ∈ holesItems ps, c.supply h = true) :
    ∃ rs, fillItems c ps = .ok rs ∧ (∀ r ∈ rs, r.distinct = true) ∧
      InstanceItems c.assignment ps rs := by
  induction ps with
  | nil => exact ⟨[], rfl, nofun, .nil⟩
  | cons p ps ihs =>
    rw [List.forall_mem_cons] at ih
    rw [holesItems, List.forall_mem_append] at hs
    obtain ⟨rs, hrs, hdistinct, hinstance⟩ := ihs ih.2 hs.2
    cases hp : p.run? with
    | none =>
      obtain ⟨r, hr, hdr, hir⟩ := ih.1 hp
      refine ⟨r :: rs, ?_, List.forall_mem_cons.mpr ⟨hdr, hdistinct⟩, .one hp hir hinstance⟩
      rw [fillItems_cons hr hrs, spliced_of_instance hir, List.singleton_append]
    | some h =>
      -- The captured list is spliced in, and is the run again.
      obtain rfl := eq_hole_of_run? hp
      have hr : h.repeatable = true := by
        rw [run?] at hp
        by_contra hno
        rw [if_neg hno] at hp
        cases hp
      obtain ⟨us, hu, ha, hne⟩ :=
        Captures.exists_list_of_supply (hs.1 h (List.mem_singleton_self h)) hr
      have hdu := hd _ (Fields.mem_of_lookup hu)
      have he : c.assignment h.name = .list us := by rw [Captures.assignment, hu, Option.getD_some]
      have hfill : (hole h).fill c = .ok (.list us) := by rw [fill_hole (by rw [hu]; rfl), he]
      refine ⟨us ++ rs, fillItems_cons hfill hrs, ?_, .run hp ha hne ?_ hinstance⟩
      · exact List.forall_mem_append.mpr ⟨Tree.distinct_list.mp hdu, hdistinct⟩
      · rw [he]
        exact Tree.same_refl hdu

omit hd in
theorem fills_fields {fs : List (String × Pattern)} (hn : (fs.map (·.1)).Nodup)
    (ih : ∀ f ∈ fs, Fills c f.2) : Fills c (.object fs) := by
  have hok : ∀ f ∈ fs, ∃ r, f.2.fill c = .ok r ∧ ∀ g ts, f.2 = .hole g → r ≠ .list ts := by
    intro f hf
    obtain ⟨r, hr, -, hir⟩ := ih f hf
    refine ⟨r, hr, fun g ts hg => ?_⟩
    rw [hg] at hir
    cases hir with
    | hole ha _ => exact not_list_of_accepts ha ts
  obtain ⟨rs, hrs, hkeys, hfr⟩ := exists_fillFields hok
  have hnr : (rs.map (·.1)).Nodup := hkeys ▸ hn
  refine ⟨.object 0 rs, by rw [fill, hrs]; rfl, Tree.distinct_object.mpr ⟨hnr, fun g hg => ?_⟩,
    .object fun f hf _ => ?_⟩
  · have hkey := List.mem_map_of_mem (f := Prod.fst) hg
    rw [show rs.map Prod.fst = fs.map Prod.fst from hkeys] at hkey
    obtain ⟨f, hf, hfg⟩ := List.mem_map.mp hkey
    obtain ⟨r, hr, hfill⟩ := hfr f hf
    obtain ⟨r', hr', hdr, -⟩ := ih f hf
    obtain rfl := Except.ok.inj (hr'.symm.trans hfill)
    have hlook := Fields.lookup_of_mem hnr hr
    rw [hfg, Fields.lookup_of_mem hnr hg] at hlook
    rw [Option.some.inj hlook]
    exact hdr
  · obtain ⟨r, hr, hfill⟩ := hfr f hf
    obtain ⟨r', hr', -, hir⟩ := ih f hf
    obtain rfl := Except.ok.inj (hr'.symm.trans hfill)
    rw [Tree.get_object, Fields.lookup_of_mem hnr hr, Option.getD_some]
    exact hir

theorem fills {p : Pattern} (hp : p.wellFormed = true) (hl : p.runsInLists = true)
    (hs : ∀ h ∈ p.holes, c.supply h = true) : Fills c p := by
  induction p with
  | hole h =>
    rw [runsInLists, Bool.not_eq_true'] at hl
    exact fills_hole hd hl (hs h (List.mem_singleton_self h))
  | scalar a => exact ⟨_, rfl, rfl, .scalar (Tree.same_refl rfl)⟩
  | list ps ih =>
    rw [wellFormed, wellFormedItems_iff] at hp
    rw [runsInLists, runsInListsItems_iff] at hl
    rw [holes] at hs
    have hsub : ∀ p ∈ ps, p.run? = none → Fills c p := fun p hm hn =>
      ih p hm (hp p hm) (hl p hm hn) fun h hh => hs h (by
        rw [holesItems_eq]
        exact List.mem_flatMap.mpr ⟨p, hm, hh⟩)
    obtain ⟨rs, hrs, hdistinct, hinstance⟩ := fills_items hd hsub hs
    exact ⟨.list rs, by rw [fill, hrs]; rfl, Tree.distinct_list.mpr hdistinct, .list hinstance⟩
  | object fs ih =>
    obtain ⟨hn, hp⟩ := wellFormed_object.mp hp
    rw [runsInLists, runsInListsFields_iff] at hl
    refine fills_fields hn fun f hf => ih f hf (hp f hf).1 (hl f hf) fun h hh => hs h ?_
    rw [holes, holesFields_eq]
    exact List.mem_flatMap.mpr ⟨f, hf, hh⟩

end

/-- Filling a pattern with trees that its placeholders take succeeds, and so does matching the
result. Exactly the names of the pattern are bound again, each to an equal tree. -/
theorem matches?_fill {p : Pattern} {c : Captures} (hp : p.wellFormed = true)
    (hr : p.singleRun = true) (hl : p.runsInLists = true) (hd : ∀ f ∈ c, f.2.distinct = true)
    (hs : ∀ h ∈ p.holes, c.supply h = true) :
    ∃ r d, p.fill c = .ok r ∧ p.matches? r = some d ∧
      (∀ x, (d.lookup x).isSome = true ↔ x ∈ p.names) ∧
      ∀ x ∈ p.names, ∃ u v, c.lookup x = some u ∧ d.lookup x = some v ∧ v.same u = true := by
  obtain ⟨r, hfill, hdistinct, hinstance⟩ := fills hd hp hl hs
  obtain ⟨d, hm, hagrees⟩ := match?_complete hr hdistinct (c := []) nofun hinstance
  have hbound : ∀ x, (d.lookup x).isSome = true ↔ x ∈ p.names := fun x =>
    ((match?_outcome hdistinct hm).bound x).trans (or_iff_right Bool.false_ne_true)
  refine ⟨r, d, hfill, hm, hbound, fun x hx => ?_⟩
  obtain ⟨h, hh, rfl⟩ := exists_hole_of_mem_names hx
  obtain ⟨u, hu⟩ := Captures.lookup_of_supply (hs h hh)
  obtain ⟨v, hv⟩ := Option.isSome_iff_exists.mp ((hbound h.name).mpr hx)
  refine ⟨u, v, hu, hv, ?_⟩
  have hsame := hagrees h.name v hv
  rwa [Captures.assignment, hu, Option.getD_some] at hsame

theorem matches?_fill_between :
    let p := Form.callExpression (anyIdentifier "expression1")
      [optionalExpression "expression2", expressions "expression3", anyExpression "expression4",
        Form.arrayExpression [anyExpression "expression4", literalRun "expression5"]]
    let c : Captures := [("expression5", .list [Form.literal (.bool true) "true"]),
      ("expression4", Form.identifier "b"), ("expression2", .null),
      ("expression3", .list [Form.identifier "a", Form.identifier "b"]),
      ("expression1", Form.identifier "f"), ("expression9", .null)]
    (p.wellFormed = true ∧ p.singleRun = true ∧ p.runsInLists = true ∧
      (∀ f ∈ c, f.2.distinct = true) ∧ ∀ h ∈ p.holes, c.supply h = true) ∧
      ∃ r d, p.fill c = .ok r ∧ p.matches? r = some d ∧
        (∀ x, (d.lookup x).isSome = true ↔ x ∈ p.names) ∧
        ∀ x ∈ p.names, ∃ u v, c.lookup x = some u ∧ d.lookup x = some v ∧ v.same u = true := by
  intro p c
  have hp : p.wellFormed = true := by decide
  have hr : p.singleRun = true := by decide
  have hl : p.runsInLists = true := by decide
  have hd : ∀ f ∈ c, f.2.distinct = true := by decide
  have hs : ∀ h ∈ p.holes, c.supply h = true := by decide
  exact ⟨⟨hp, hr, hl, hd, hs⟩, matches?_fill hp hr hl hd hs⟩

end Pattern

end Legible
