import Legible.Pattern.Fill
import Legible.Proofs.Pattern.Match

namespace Legible

def Fields.beyond (names : List String) (fs : Fields) : Fields :=
  fs.filter fun f => !isIgnored f.1 && !f.2.isNull && !names.contains f.1

namespace Pattern

mutual

/-- One tree is another one rebuilt from a pattern. They differ in nothing but ignored fields, null
fields that are left out, and the fields listed last, which the pattern's object in their place
lacks. -/
inductive Rebuilds : Pattern → Tree → Tree → Fields → Prop
  | hole {h r t} : r.same t = true → Rebuilds (.hole h) r t []
  | scalar {a b} : a.same b = true → Rebuilds (.scalar a) (.scalar a) (.scalar b) []
  | list {ps rs ts spare} : RebuildsItems ps rs ts spare →
      Rebuilds (.list ps) (.list rs) (.list ts) spare
  | object {fs m rs n ts spare} : rs.map (·.1) = fs.map (·.1) →
      RebuildsFields fs (.object m rs) (.object n ts) spare →
      Rebuilds (.object fs) (.object m rs) (.object n ts)
        (Fields.beyond (fs.map (·.1)) ts ++ spare)

inductive RebuildsItems : List Pattern → List Tree → List Tree → Fields → Prop
  | nil : RebuildsItems [] [] [] []
  | one {p ps r rs t ts spare rest} : p.run? = none → Rebuilds p r t spare →
      RebuildsItems ps rs ts rest → RebuildsItems (p :: ps) (r :: rs) (t :: ts) (spare ++ rest)
  | run {p h ps us rs vs ts rest} : p.run? = some h →
      List.Forall₂ (fun u v => u.same v = true) us vs →
      RebuildsItems ps rs ts rest → RebuildsItems (p :: ps) (us ++ rs) (vs ++ ts) rest

inductive RebuildsFields : List (String × Pattern) → Tree → Tree → Fields → Prop
  | nil {r t} : RebuildsFields [] r t []
  | ignored {k p fs r t rest} : isIgnored k = true → RebuildsFields fs r t rest →
      RebuildsFields ((k, p) :: fs) r t rest
  | field {k p fs r t spare rest} : isIgnored k = false →
      Rebuilds p (r.get k) (t.get k) spare → RebuildsFields fs r t rest →
      RebuildsFields ((k, p) :: fs) r t (spare ++ rest)

end

mutual

def ground : Pattern → Bool
  | .hole _ => false
  | .scalar _ => true
  | .list ps => groundItems ps
  | .object fs => groundFields fs
termination_by structural p => p

def groundItems : List Pattern → Bool
  | [] => true
  | p :: ps => p.ground && groundItems ps
termination_by structural ps => ps

def groundFields : List (String × Pattern) → Bool
  | [] => true
  | (_, p) :: fs => p.ground && groundFields fs
termination_by structural fs => fs

end

mutual

def wellFormed : Pattern → Bool
  | .hole _ => true
  | .scalar _ => true
  | .list ps => wellFormedItems ps
  | .object fs => decide (fs.map (·.1)).Nodup && wellFormedFields fs
termination_by structural p => p

def wellFormedItems : List Pattern → Bool
  | [] => true
  | p :: ps => p.wellFormed && wellFormedItems ps
termination_by structural ps => ps

def wellFormedFields : List (String × Pattern) → Bool
  | [] => true
  | (k, p) :: fs => p.wellFormed && (!isIgnored k || p.ground) && wellFormedFields fs
termination_by structural fs => fs

end

theorem groundFields_iff {fs : List (String × Pattern)} :
    groundFields fs = true ↔ ∀ f ∈ fs, f.2.ground = true := by
  induction fs with
  | nil => simp [groundFields]
  | cons f fs ih => simp [groundFields, ih]

theorem groundItems_iff {ps : List Pattern} :
    groundItems ps = true ↔ ∀ p ∈ ps, p.ground = true := by
  induction ps with
  | nil => simp [groundItems]
  | cons p ps ih => simp [groundItems, ih]

theorem wellFormedItems_iff {ps : List Pattern} :
    wellFormedItems ps = true ↔ ∀ p ∈ ps, p.wellFormed = true := by
  induction ps with
  | nil => simp [wellFormedItems]
  | cons p ps ih => simp [wellFormedItems, ih]

theorem wellFormedFields_iff {fs : List (String × Pattern)} :
    wellFormedFields fs = true ↔
      ∀ f ∈ fs, f.2.wellFormed = true ∧ (isIgnored f.1 = true → f.2.ground = true) := by
  induction fs with
  | nil => simp [wellFormedFields]
  | cons f fs ih =>
    rw [wellFormedFields, Bool.and_eq_true, ih, Bool.and_eq_true, List.forall_mem_cons]
    cases isIgnored f.1 <;> simp

theorem wellFormed_object {fs : List (String × Pattern)} :
    (object fs).wellFormed = true ↔ (fs.map (·.1)).Nodup ∧
      ∀ f ∈ fs, f.2.wellFormed = true ∧ (isIgnored f.1 = true → f.2.ground = true) := by
  rw [wellFormed, Bool.and_eq_true, decide_eq_true_iff, wellFormedFields_iff]

/-! ### A rebuilt tree without spare fields -/

theorem RebuildsFields.same {fs : List (String × Pattern)} {r t : Tree}
    (ih : ∀ f ∈ fs, Rebuilds f.2 (r.get f.1) (t.get f.1) [] → (r.get f.1).same (t.get f.1) = true)
    (h : RebuildsFields fs r t []) :
    ∀ f ∈ fs, isIgnored f.1 = false → (r.get f.1).same (t.get f.1) = true := by
  induction fs with
  | nil => simp
  | cons f fs ihs =>
    rw [List.forall_mem_cons] at ih ⊢
    generalize hs : ([] : Fields) = spare at h
    cases h with
    | ignored hk h => exact ⟨fun hn => absurd (hk.symm.trans hn) (by decide), ihs ih.2 (hs ▸ h)⟩
    | field hk hf h =>
      obtain ⟨rfl, rfl⟩ := List.append_eq_nil_iff.mp hs.symm
      exact ⟨fun _ => ih.1 hf, ihs ih.2 h⟩

theorem RebuildsItems.same {ps : List Pattern}
    (ih : ∀ p ∈ ps, ∀ r t, Rebuilds p r t [] → r.same t = true) {rs ts : List Tree}
    (h : RebuildsItems ps rs ts []) : List.Forall₂ (fun r t => r.same t = true) rs ts := by
  induction ps generalizing rs ts with
  | nil => cases h; exact .nil
  | cons p ps ihs =>
    rw [List.forall_mem_cons] at ih
    generalize hs : ([] : Fields) = spare at h
    cases h with
    | one _ hp h =>
      obtain ⟨rfl, rfl⟩ := List.append_eq_nil_iff.mp hs.symm
      exact .cons (ih.1 _ _ hp) (ihs ih.2 h)
    | run _ hv h => exact List.rel_append hv (ihs ih.2 (hs ▸ h))

theorem Rebuilds.same {p : Pattern} (hp : p.wellFormed = true) {r t : Tree}
    (h : Rebuilds p r t []) : r.same t = true := by
  induction p generalizing r t with
  | hole g => cases h; assumption
  | scalar a => cases h; assumption
  | list ps ih =>
    rw [wellFormed, wellFormedItems_iff] at hp
    cases h with
    | list h => exact Tree.same_list.mpr (h.same fun p hm r t => ih p hm (hp p hm))
  | object fs ih =>
    obtain ⟨hd, hp⟩ := wellFormed_object.mp hp
    generalize hs : ([] : Fields) = spare at h
    cases h with
    | @object _ m rs n ts rest hk h =>
      obtain ⟨hb, rfl⟩ := List.append_eq_nil_iff.mp hs.symm
      have hf := h.same fun f hm => ih f hm (hp f hm).1
      refine Tree.same_object.mpr ⟨fun g hm hi => ?_, fun x hm hi hn => ?_⟩
      · obtain ⟨f, hfm, hfg⟩ := List.mem_map.mp (hk ▸ List.mem_map_of_mem hm)
        have hg := hf f hfm (hfg ▸ hi)
        rw [hfg, Tree.get_object, Fields.lookup_of_mem (hk ▸ hd) hm] at hg
        exact hg
      · -- A field that the rebuilt object lacks is not in the pattern, so it has to be null.
        have hx := List.filter_eq_nil_iff.mp hb x hm
        have hnot : x.1 ∉ fs.map (·.1) := by
          rw [← hk]
          intro hmem
          obtain ⟨g, hg, hgx⟩ := List.mem_map.mp hmem
          rw [← hgx, Fields.lookup_of_mem (hk ▸ hd) hg] at hn
          cases hn
        refine Tree.eq_null_of_isNull ?_
        simpa [hi, hnot] using hx

/-! ### Filling -/

theorem fillItems_cons {c : Captures} {p : Pattern} {ps : List Pattern} {r : Tree}
    {rs : List Tree} (hr : p.fill c = .ok r) (hrs : fillItems c ps = .ok rs) :
    fillItems c (p :: ps) = .ok (p.spliced r ++ rs) := by
  simp only [fillItems, hr, hrs]
  rfl

theorem fillFields_cons {c : Captures} {k : String} {p : Pattern} {fs : List (String × Pattern)}
    {r : Tree} {rs : Fields} (hr : p.fill c = .ok r) (hl : ∀ h ts, p = .hole h → r ≠ .list ts)
    (hrs : fillFields c fs = .ok rs) : fillFields c ((k, p) :: fs) = .ok ((k, r) :: rs) := by
  simp only [fillFields, hr, hrs]
  cases p with
  | hole h =>
    cases r with
    | list ts => exact absurd rfl (hl h ts rfl)
    | _ => rfl
  | _ => rfl

theorem exists_fillFields {c : Captures} {fs : List (String × Pattern)}
    (h : ∀ f ∈ fs, ∃ r, f.2.fill c = .ok r ∧ ∀ g ts, f.2 = .hole g → r ≠ .list ts) :
    ∃ rs, fillFields c fs = .ok rs ∧ rs.map (·.1) = fs.map (·.1) ∧
      ∀ f ∈ fs, ∃ r, (f.1, r) ∈ rs ∧ f.2.fill c = .ok r := by
  induction fs with
  | nil => exact ⟨[], rfl, rfl, by simp⟩
  | cons f fs ih =>
    rw [List.forall_mem_cons] at h
    obtain ⟨r, hr, hl⟩ := h.1
    obtain ⟨rs, hrs, hk, hf⟩ := ih h.2
    refine ⟨(f.1, r) :: rs, fillFields_cons hr hl hrs, by simp [hk], ?_⟩
    refine List.forall_mem_cons.mpr ⟨⟨r, List.mem_cons_self, hr⟩, fun g hg => ?_⟩
    obtain ⟨u, hu, hgu⟩ := hf g hg
    exact ⟨u, List.mem_cons_of_mem _ hu, hgu⟩

theorem exists_fill_of_ground {p : Pattern} (c : Captures) (hp : p.ground = true) :
    ∃ r, p.fill c = .ok r := by
  induction p with
  | hole h => cases hp
  | scalar a => exact ⟨_, rfl⟩
  | list ps ih =>
    have hs : ∃ rs, fillItems c ps = .ok rs := by
      rw [ground, groundItems_iff] at hp
      induction ps with
      | nil => exact ⟨[], rfl⟩
      | cons p ps ihs =>
        rw [List.forall_mem_cons] at ih hp
        obtain ⟨r, hr⟩ := ih.1 hp.1
        obtain ⟨rs, hrs⟩ := ihs ih.2 hp.2
        exact ⟨_, fillItems_cons hr hrs⟩
    obtain ⟨rs, hrs⟩ := hs
    exact ⟨.list rs, by rw [fill, hrs]; rfl⟩
  | object fs ih =>
    rw [ground, groundFields_iff] at hp
    have hs : ∀ f ∈ fs, ∃ r, f.2.fill c = .ok r ∧ ∀ g ts, f.2 = .hole g → r ≠ .list ts := by
      intro f hf
      obtain ⟨r, hr⟩ := ih f hf (hp f hf)
      refine ⟨r, hr, fun g ts hg => ?_⟩
      have hgr := hp f hf
      rw [hg] at hgr
      cases hgr
    obtain ⟨rs, hrs, -⟩ := exists_fillFields hs
    exact ⟨.object 0 rs, by rw [fill, hrs]; rfl⟩

theorem not_list_of_accepts {h : Placeholder} {t : Tree} (ha : h.accepts t = true)
    (ts : List Tree) : t ≠ .list ts := by
  rintro rfl
  unfold Placeholder.accepts at ha
  split at ha <;> simp [Tree.text?, Tree.isNull, Tree.isNode, Tree.field?, Tree.fields] at ha

theorem Rebuilds.not_list {h : Placeholder} {s : Assignment} {r t : Tree} {spare : Fields}
    (hi : Instance s (.hole h) t) (hr : Rebuilds (.hole h) r t spare) (ts : List Tree) :
    r ≠ .list ts := by
  rintro rfl
  cases hi with
  | hole ha _ =>
    cases hr with
    | hole hs =>
      obtain ⟨us, rfl, -⟩ := Tree.exists_list_of_same hs
      exact not_list_of_accepts ha us rfl

theorem spliced_single {p : Pattern} {s : Assignment} {r t : Tree} {spare : Fields}
    (hi : Instance s p t) (hr : Rebuilds p r t spare) : p.spliced r = [r] := by
  cases p with
  | hole h =>
    cases r with
    | list ts => exact absurd rfl (hr.not_list hi ts)
    | _ => rfl
  | _ => rfl

theorem fill_hole {c : Captures} {h : Placeholder} (hb : (c.lookup h.name).isSome = true) :
    (hole h).fill c = .ok (c.assignment h.name) := by
  obtain ⟨u, hu⟩ := Option.isSome_iff_exists.mp hb
  rw [fill, fillHole, hu, Captures.assignment, hu]
  rfl

theorem exists_fillItems_of_instance {c : Captures} {ps : List Pattern}
    (ih : ∀ p ∈ ps, ∀ t, (∀ x ∈ p.names, (c.lookup x).isSome = true) →
      Instance c.assignment p t → ∃ r spare, p.fill c = .ok r ∧ Rebuilds p r t spare)
    (hb : ∀ x ∈ namesItems ps, (c.lookup x).isSome = true) {ts : List Tree}
    (hi : InstanceItems c.assignment ps ts) :
    ∃ rs spare, fillItems c ps = .ok rs ∧ RebuildsItems ps rs ts spare := by
  induction ps generalizing ts with
  | nil =>
    cases hi
    exact ⟨[], [], rfl, .nil⟩
  | cons p ps ihs =>
    rw [List.forall_mem_cons] at ih
    rw [namesItems, List.forall_mem_append] at hb
    cases hi with
    | one hn hp hs =>
      obtain ⟨r, spare, hr, hrt⟩ := ih.1 _ hb.1 hp
      obtain ⟨rs, rest, hrs, hrts⟩ := ihs ih.2 hb.2 hs
      refine ⟨r :: rs, spare ++ rest, ?_, .one hn hrt hrts⟩
      rw [fillItems_cons hr hrs, spliced_single hp hrt]
      rfl
    | run hr hacc hopt hsame hs =>
      obtain rfl := eq_hole_of_run? hr
      obtain ⟨rs, rest, hrs, hrts⟩ := ihs ih.2 hb.2 hs
      have hf := fill_hole (hb.1 _ (List.mem_singleton_self _))
      generalize c.assignment _ = u at hsame hf
      cases u with
      | list us =>
        refine ⟨us ++ rs, rest, ?_, .run hr (Tree.same_list.mp hsame) hrts⟩
        rw [fillItems_cons hf hrs]
        rfl
      | scalar a => simp [Tree.same] at hsame
      | object m gs => simp [Tree.same] at hsame

theorem exists_rebuildsFields {fs : List (String × Pattern)} {r t : Tree}
    (h : ∀ f ∈ fs, isIgnored f.1 = false → ∃ spare, Rebuilds f.2 (r.get f.1) (t.get f.1) spare) :
    ∃ spare, RebuildsFields fs r t spare := by
  induction fs with
  | nil => exact ⟨[], .nil⟩
  | cons f fs ih =>
    rw [List.forall_mem_cons] at h
    obtain ⟨rest, hrest⟩ := ih h.2
    cases hk : isIgnored f.1 with
    | true => exact ⟨rest, .ignored hk hrest⟩
    | false =>
      obtain ⟨spare, hs⟩ := h.1 hk
      exact ⟨spare ++ rest, .field hk hs hrest⟩

theorem mem_namesFields {fs : List (String × Pattern)} {f : String × Pattern} (hf : f ∈ fs)
    (hi : isIgnored f.1 = false) {x : String} (hx : x ∈ f.2.names) : x ∈ namesFields fs := by
  induction fs with
  | nil => cases hf
  | cons g fs ih =>
    rw [namesFields, List.mem_append]
    cases hf with
    | head => exact Or.inl (by rw [hi, if_neg Bool.false_ne_true]; exact hx)
    | tail _ hf => exact Or.inr (ih hf)

theorem exists_fill_of_instance {p : Pattern} (hp : p.wellFormed = true) {c : Captures} {t : Tree}
    (hb : ∀ x ∈ p.names, (c.lookup x).isSome = true) (hi : Instance c.assignment p t) :
    ∃ r spare, p.fill c = .ok r ∧ Rebuilds p r t spare := by
  induction p generalizing t with
  | hole h =>
    cases hi with
    | hole _ hs =>
      exact ⟨_, [], fill_hole (hb _ (List.mem_singleton_self _)), .hole hs⟩
  | scalar a =>
    cases hi with
    | @scalar _ t hs =>
      obtain ⟨b, rfl, hab⟩ := Tree.exists_scalar_of_same hs
      exact ⟨_, [], rfl, .scalar hab⟩
  | list ps ih =>
    rw [wellFormed, wellFormedItems_iff] at hp
    cases hi with
    | list hs =>
      obtain ⟨rs, spare, hrs, hr⟩ :=
        exists_fillItems_of_instance (fun p hm t => ih p hm (hp p hm)) hb hs
      exact ⟨.list rs, spare, by rw [fill, hrs]; rfl, .list hr⟩
  | object fs ih =>
    obtain ⟨hd, hp⟩ := wellFormed_object.mp hp
    cases hi with
    | @object _ n gs hs =>
      have hsub : ∀ f ∈ fs, isIgnored f.1 = false →
          ∃ r spare, f.2.fill c = .ok r ∧ Rebuilds f.2 r ((Tree.object n gs).get f.1) spare :=
        fun f hf hk => ih f hf (hp f hf).1 (fun x hx => hb x (mem_namesFields hf hk hx)) (hs f hf hk)
      have hok : ∀ f ∈ fs, ∃ r, f.2.fill c = .ok r ∧ ∀ g ts, f.2 = .hole g → r ≠ .list ts := by
        intro f hf
        cases hk : isIgnored f.1 with
        | true =>
          have hg := (hp f hf).2 hk
          obtain ⟨r, hr⟩ := exists_fill_of_ground c hg
          refine ⟨r, hr, fun g ts hh => ?_⟩
          rw [hh] at hg
          cases hg
        | false =>
          obtain ⟨r, spare, hr, hrt⟩ := hsub f hf hk
          refine ⟨r, hr, fun g ts hh => ?_⟩
          have hfi := hs f hf hk
          rw [hh] at hfi hrt
          exact hrt.not_list hfi ts
      obtain ⟨rs, hrs, hkeys, hfr⟩ := exists_fillFields hok
      have hre : ∀ f ∈ fs, isIgnored f.1 = false → ∃ spare,
          Rebuilds f.2 ((Tree.object 0 rs).get f.1) ((Tree.object n gs).get f.1) spare := by
        intro f hf hk
        obtain ⟨r, spare, hfill, hrt⟩ := hsub f hf hk
        obtain ⟨u, hu, hfu⟩ := hfr f hf
        obtain rfl := Except.ok.inj (hfill.symm.trans hfu)
        refine ⟨spare, ?_⟩
        rw [Tree.get_object, Fields.lookup_of_mem (hkeys ▸ hd) hu]
        exact hrt
      obtain ⟨spare, hr⟩ := exists_rebuildsFields hre
      exact ⟨.object 0 rs, _, by rw [fill, hrs]; rfl, .object hkeys hr⟩

/-- Filling a pattern with what it captured from a tree succeeds and rebuilds the tree, and gives an
equal one if the tree has no fields beyond those of the pattern. -/
theorem fill_matches?_rebuilds (p : Pattern) (t : Tree) (c : Captures)
    (hp : p.wellFormed = true) (ht : t.distinct = true) (hm : p.matches? t = some c) :
    ∃ r spare, p.fill c = .ok r ∧ Rebuilds p r t spare ∧ (spare = [] → r.same t = true) := by
  have ho := match?_outcome ht hm
  obtain ⟨r, spare, hr, hrt⟩ := exists_fill_of_instance hp
    (fun x hx => (ho.bound x).mpr (Or.inr hx)) (ho.holds c (.refl c))
  exact ⟨r, spare, hr, hrt, fun hs => (hs ▸ hrt).same hp⟩

theorem fill_matches?_rebuilds_call :
    let p := Form.expressionStatement (Form.callExpression (anyExpression "expression1")
      [anyExpression "expression2", expressions "expression3", anyExpression "expression2"])
    let t : Tree := Form.directive (Form.callExpression (Form.identifier "f")
      [Form.identifier "a", Form.identifier "b", Form.identifier "c", Form.identifier "a"]) "x"
    let c : Captures := [("expression1", Form.identifier "f"), ("expression2", Form.identifier "a"),
      ("expression3", .list [Form.identifier "b", Form.identifier "c"])]
    (p.wellFormed = true ∧ t.distinct = true ∧ p.matches? t = some c) ∧
      ∃ r spare, p.fill c = .ok r ∧ Rebuilds p r t spare ∧ (spare = [] → r.same t = true) :=
  ⟨⟨by decide, by decide, rfl⟩,
    fill_matches?_rebuilds _ _ _ (by decide) (by decide) rfl⟩

end Pattern

end Legible
