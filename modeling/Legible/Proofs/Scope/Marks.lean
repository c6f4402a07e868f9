import Legible.Proofs.Scope.Leaves
import Legible.Proofs.Scope.Resolution
import Mathlib.Data.List.Flatten

namespace Legible

theorem Fields.mem_get {fs : Fields} {key : String} (h : fs.get key ≠ .null) :
    (key, fs.get key) ∈ fs := by
  rw [get] at h ⊢
  cases hl : fs.lookup key with
  | none => rw [hl] at h; exact absurd rfl h
  | some v => exact mem_of_lookup hl

namespace Tree

/-! ### Parts of numbered trees -/

theorem Numbered.item {ts : List Tree} (h : (list ts).Numbered) {t : Tree} (ht : t ∈ ts) :
    t.Numbered where
  distinct := distinct_list.mp h.distinct t ht
  nodup := (List.nodup_flatMap.mp (tags_list ts ▸ h.nodup)).1 t ht
  zero h0 := h.zero (by rw [tags_list]; exact List.mem_flatMap.mpr ⟨t, ht, h0⟩)
  fits o ho := h.fits o (by rw [objects_list]; exact List.mem_flatMap.mpr ⟨t, ht, ho⟩)

theorem Numbered.field {tag : Nat} {fs : Fields} (h : (object tag fs).Numbered)
    {f : String × Tree} (hf : f ∈ fs) : f.2.Numbered where
  distinct := (distinct_object.mp h.distinct).2 f hf
  nodup := (List.nodup_flatMap.mp (List.nodup_cons.mp (tags_object tag fs ▸ h.nodup)).2).1 f hf
  zero h0 := h.zero (by
    rw [tags_object]
    exact List.mem_cons_of_mem _ (List.mem_flatMap.mpr ⟨f, hf, h0⟩))
  fits o ho := h.fits o (by
    rw [objects_object]
    exact List.mem_cons_of_mem _ (List.mem_flatMap.mpr ⟨f, hf, ho⟩))

theorem numbered_null : null.Numbered := ⟨rfl, List.nodup_nil, List.not_mem_nil, nofun⟩

theorem Numbered.get {tag : Nat} {fs : Fields} (h : (object tag fs).Numbered) (key : String) :
    (fs.get key).Numbered :=
  Fields.get_induction key numbered_null fun _ hf => h.field hf

theorem kind_fields_eq (t : Tree) : t.fields.kind = t.kind := Fields.kind_eq t.fields

theorem kind_fields {t : Tree} {kind : String} (h : t.kind? = some kind) :
    t.fields.kind = kind := by
  rw [kind_fields_eq, Tree.kind, h, Option.getD_some]

theorem objects_held {v c : Tree} (hc : c ∈ v.heldNodes) : c.objects ⊆ v.objects := by
  cases v with
  | scalar a => cases hc
  | list cs =>
    rw [objects_list]
    exact fun o ho => List.mem_flatMap.mpr ⟨c, (mem_heldNodes_of_list.mp hc).1, ho⟩
  | object tag fs =>
    rw [heldNodes] at hc
    split at hc
    · rw [List.mem_singleton.mp hc]
      exact fun _ => id
    · cases hc

theorem objects_get (t : Tree) (key : String) : (t.get key).objects ⊆ t.objects := by
  by_cases hnull : t.get key = .null
  · rw [hnull]
    exact List.nil_subset _
  · cases t with
    | scalar a => exact absurd rfl hnull
    | list ts => exact absurd rfl hnull
    | object tag fs =>
      rw [objects_object]
      exact fun o ho => List.mem_cons_of_mem _
        (List.mem_flatMap.mpr ⟨_, Fields.mem_get hnull, ho⟩)

theorem objects_childrenAt {u c : Tree} {key : String} (hc : c ∈ u.childrenAt key) :
    c.objects ⊆ u.objects :=
  fun _ ho => objects_get u key (objects_held hc ho)

theorem tag_mem_tags {t : Tree} (h : t.isNode = true) : t.tag ∈ t.tags := by
  obtain ⟨tag, fs, rfl⟩ := eq_object_of_isNode h
  rw [tags_object]
  exact List.mem_cons_self

theorem isNull_of_held {v c : Tree} (hc : c ∈ v.heldNodes) : v.isNull = false := by
  cases v with
  | scalar a => cases hc
  | list cs => rfl
  | object tag fs => rfl

theorem Numbered.held {v c : Tree} (h : v.Numbered) (hc : c ∈ v.heldNodes) : c.Numbered := by
  cases v with
  | scalar a => cases hc
  | list cs => exact h.item (mem_heldNodes_of_list.mp hc).1
  | object tag fs =>
    rw [heldNodes] at hc
    split at hc
    · rwa [List.mem_singleton.mp hc]
    · cases hc

end Tree

namespace Contents

variable {c : Contents} {v d : Tree}

theorem kind_of_takes (h : c.takes d = true) (hd : d.isNode = true) :
    ∃ kind ∈ c.kinds, d.kind? = some kind := by
  rcases takes_iff.mp h with ⟨-, rfl⟩ | h
  · cases hd
  · exact h

theorem kind_of_admits (h : c.admits v = true) (hd : d ∈ v.heldNodes) :
    ∃ kind ∈ c.kinds, d.kind? = some kind := by
  refine kind_of_takes ?_ (Tree.isNode_of_mem_heldNodes hd)
  cases v with
  | scalar a => cases hd
  | list ts =>
    rw [admits, Bool.and_eq_true, List.all_eq_true] at h
    exact h.2 d (Tree.mem_heldNodes_of_list.mp hd).1
  | object tag fs =>
    rw [Tree.heldNodes] at hd
    split at hd
    · rw [List.mem_singleton.mp hd]
      exact (Bool.and_eq_true _ _ ▸ h).2
    · cases hd

end Contents

namespace Item

open Legible.Tree

structure Marks (f : Item → List Nat) : Prop where
  bound : ∀ b t, f (bound b t) ⊆ [t.tag]
  arguments : f (.declare .implicit false "arguments" none) = []
  scope : ∀ kind block dynamic is, f (.scope kind block dynamic is) ⊆ block.tag :: is.flatMap f
  inner : ∀ kind block dynamic is, is.flatMap f ⊆ f (.scope kind block dynamic is)

def told (f : Item → List Nat) (view : View) (t : Tree) : List Nat :=
  (ofLooked .one view t).flatMap f

def toldBy (f : Item → List Nat) (tag : Nat) (fs : Fields) (s : Step) : List Nat :=
  (ofStepAt tag fs s).flatMap f

variable {f : Item → List Nat} {tag : Nat} {fs : Fields} {key : String} {s : Step} {x : Nat}

section

variable (hm : Marks f)

include hm

theorem Marks.cases_step (hs : s.Fits fs)
    (ih : ∀ k arity view, (arity ≠ .many → view.suits (fs.get k) = true) →
      (arity ≠ .one → ∀ u ∈ (fs.get k).items, view.suits u = true) →
      (ofLooked arity view (fs.get k)).flatMap f ⊆ (fs.get k).tags) (hx : x ∈ toldBy f tag fs s) :
    x = tag ∨ ∃ k, some k ∈ s.places ∧ x ∈ (fs.get k).tags := by
  induction s with
  | look arity view k =>
    cases hs with
    | look one many =>
      exact Or.inr ⟨k, List.mem_singleton_self _, ih k arity view one (fun _ => many) hx⟩
  | bind b k =>
    cases hs with
    | bind hk =>
      refine Or.inr ⟨k, List.mem_singleton_self _, ?_⟩
      rw [toldBy, ofStepAt, ofStep, List.flatMap_singleton] at hx
      obtain rfl := List.mem_singleton.mp (hm.bound _ _ hx)
      exact tag_mem_tags (Pattern.isNode_of_kind? (eq_of_beq hk))
  | self b =>
    rw [toldBy, ofStepAt, ofStep, List.flatMap_singleton] at hx
    exact Or.inl (List.mem_singleton.mp (hm.bound _ _ hx))
  | arguments =>
    rw [toldBy, ofStepAt, ofStep, List.flatMap_singleton, hm.arguments] at hx
    cases hx
  | scope kind dynamic ss ihs =>
    cases hs with
    | scope hs =>
      rw [toldBy, ofStepAt_scope, List.flatMap_singleton] at hx
      rcases List.mem_cons.mp (hm.scope _ _ _ _ hx) with rfl | hx
      · exact Or.inl rfl
      · rw [List.flatMap_assoc] at hx
        obtain ⟨s, hss, hx⟩ := List.mem_flatMap.mp hx
        refine (ihs s hss (hs s hss) hx).imp_right ?_
        rintro ⟨k, hk, hxk⟩
        rw [Step.places_scope]
        exact ⟨k, List.mem_flatMap.mpr ⟨s, hss, hk⟩, hxk⟩

theorem Marks.mem_tags {t : Tree} (hf : ∀ o ∈ t.objects, o.2.fits = true) {arity : Arity}
    {view : View} (one : arity ≠ .many → view.suits t = true)
    (many : arity ≠ .one → ∀ u ∈ t.items, view.suits u = true) :
    (ofLooked arity view t).flatMap f ⊆ t.tags := by
  induction t generalizing arity view with
  | scalar a =>
    rw [ofLooked_scalar]
    exact List.nil_subset _
  | list ts ih =>
    rw [ofLooked_list, tags_list]
    split
    · exact List.nil_subset _
    rename_i harity
    rw [List.flatMap_assoc]
    intro x hx
    obtain ⟨t, ht, hx⟩ := List.mem_flatMap.mp hx
    simp only [objects_list, List.mem_flatMap] at hf
    refine List.mem_flatMap.mpr ⟨t, ht, ?_⟩
    exact ih t ht (fun o ho => hf o ⟨t, ht, ho⟩) (fun _ => many harity t ht) (absurd rfl) hx
  | object tag fs ih =>
    rw [ofLooked_object]
    split
    · rename_i harity
      simp only [objects_object, List.forall_mem_cons, List.mem_flatMap] at hf
      intro x hx
      rw [List.flatMap_assoc] at hx
      obtain ⟨s, hs, hx⟩ := List.mem_flatMap.mp hx
      have hget : ∀ k arity view, (arity ≠ .many → view.suits (Fields.get k fs) = true) →
          (arity ≠ .one → ∀ u ∈ (Fields.get k fs).items, view.suits u = true) →
          (ofLooked arity view (Fields.get k fs)).flatMap f ⊆ (Fields.get k fs).tags := by
        intro k arity view one many
        by_cases hnull : Fields.get k fs = .null
        · rw [hnull, null, ofLooked_scalar]
          exact List.nil_subset _
        · have hmem := Fields.mem_get hnull
          exact ih _ hmem (fun o ho => hf.2 o ⟨_, hmem, ho⟩) one many
      rw [tags_object, List.mem_cons]
      refine (hm.cases_step (Step.fits_ofView hf.1 (one harity.1) s hs) hget hx).imp_right ?_
      rintro ⟨k, -, hxk⟩
      refine List.mem_flatMap.mpr ⟨_, Fields.mem_get fun hnull => ?_, hxk⟩
      rw [hnull] at hxk
      cases hxk
    · exact List.nil_subset _

theorem Marks.told_subset {t : Tree} (ht : t.Numbered) {view : View} (hv : view.suits t = true) :
    told f view t ⊆ t.tags :=
  hm.mem_tags ht.fits (fun _ => hv) (absurd rfl)

/-! ### What the steps of a node tell of what stands in a field -/

theorem Marks.exists_leaf (hx : x ∈ toldBy f tag fs s) (hne : x ≠ tag) :
    ∃ l ∈ s.leaves, x ∈ toldBy f tag fs l := by
  induction s with
  | scope kind dynamic ss ih =>
    rw [toldBy, ofStepAt_scope, List.flatMap_singleton] at hx
    have hx := List.mem_of_ne_of_mem hne (hm.scope _ _ _ _ hx)
    rw [List.flatMap_assoc] at hx
    obtain ⟨s, hs, hx⟩ := List.mem_flatMap.mp hx
    obtain ⟨l, hl, hx⟩ := ih s hs hx
    rw [Step.leaves_scope]
    exact ⟨l, List.mem_flatMap.mpr ⟨s, hs, hl⟩, hx⟩
  | _ => exact ⟨_, List.mem_singleton_self _, hx⟩

theorem Marks.toldBy_leaf {l : Step} (hl : l ∈ s.leaves) :
    toldBy f tag fs l ⊆ toldBy f tag fs s := by
  induction s with
  | scope kind dynamic ss ih =>
    rw [Step.leaves_scope] at hl
    obtain ⟨s, hs, hl⟩ := List.mem_flatMap.mp hl
    rw [toldBy, toldBy, ofStepAt_scope, List.flatMap_singleton]
    refine fun x hx => hm.inner _ _ _ _ ?_
    rw [List.flatMap_assoc]
    exact List.mem_flatMap.mpr ⟨s, hs, ih s hs hl hx⟩
  | _ =>
    obtain rfl := List.mem_singleton.mp hl
    exact fun _ => id

theorem Marks.mem_places (h : (Tree.object tag fs).Numbered) (hs : s.Fits fs)
    (hx : x ∈ toldBy f tag fs s) (hkey : x ∈ (fs.get key).tags) : some key ∈ s.places := by
  have hfield : ∀ {k}, x ∈ (fs.get k).tags → (k, fs.get k) ∈ fs := fun {k} hm =>
    Fields.mem_get fun hnull => by rw [hnull] at hm; cases hm
  have hn := h.nodup
  rw [tags_object, List.nodup_cons] at hn
  rcases hm.cases_step hs (fun k _ _ one many => hm.mem_tags (h.get k).fits one many) hx with
    rfl | ⟨k, hk, hxk⟩
  · -- The node itself is not among the objects in its fields.
    exact absurd (List.mem_flatMap.mpr ⟨_, hfield hkey, hkey⟩) hn.1
  · have he := Scope.eq_of_mem_flatMap hn.2 (hfield hkey) (hfield hxk) hkey hxk
    rw [(Prod.mk.inj he).1]
    exact hk

theorem Marks.held {v c : Tree} (hv : v.Numbered) (hc : c ∈ v.heldNodes) {contents : Contents}
    (hadmits : contents.admits v = true) {arity : Arity} {view : View}
    (harity : arity ≠ if contents.list then .one else .many)
    (hmany : ∀ u ∈ v.items, view.suits u = true) (hx : x ∈ c.tags) :
    x ∈ (ofLooked arity view v).flatMap f ↔ x ∈ told f view c := by
  cases v with
  | scalar a => cases hc
  | list ts =>
    rw [Contents.admits, Bool.and_eq_true] at hadmits
    rw [hadmits.1, if_pos rfl] at harity
    have hcs := (mem_heldNodes_of_list.mp hc).1
    rw [ofLooked_list, if_neg harity, List.flatMap_assoc, List.mem_flatMap]
    constructor
    · rintro ⟨d, hd, hxd⟩
      have htags := hm.told_subset (hv.item hd) (hmany d hd) hxd
      rwa [Scope.eq_of_mem_flatMap (tags_list ts ▸ hv.nodup) hcs hd hx htags]
    · exact fun hxc => ⟨c, hcs, hxc⟩
  | object tag fs =>
    have hsingle := (Bool.not_eq_true' _).mp (Bool.and_eq_true_iff.mp hadmits).1
    rw [hsingle, if_neg Bool.false_ne_true] at harity
    rw [heldNodes] at hc
    split at hc
    · rw [List.mem_singleton.mp hc, told, ofLooked_object, ofLooked_object]
      simp [harity]
    · cases hc

end

theorem ofLooked_held {v c : Tree} (hc : c ∈ v.heldNodes) {contents : Contents}
    (hadmits : contents.admits v = true) {arity : Arity} {view : View}
    (harity : arity ≠ if contents.list then .one else .many)
    (hone : arity ≠ .many → view.suits v = true) (hmany : ∀ u ∈ v.items, view.suits u = true) :
    view.suits c = true ∧ ofLooked .one view c ⊆ ofLooked arity view v := by
  cases v with
  | scalar a => cases hc
  | list ts =>
    rw [Contents.admits, Bool.and_eq_true] at hadmits
    rw [hadmits.1, if_pos rfl] at harity
    have hcs := (mem_heldNodes_of_list.mp hc).1
    rw [ofLooked_list, if_neg harity]
    exact ⟨hmany c hcs, fun i hi => List.mem_flatMap.mpr ⟨c, hcs, hi⟩⟩
  | object tag fs =>
    have hsingle := (Bool.not_eq_true' _).mp (Bool.and_eq_true_iff.mp hadmits).1
    rw [hsingle, if_neg Bool.false_ne_true] at harity
    rw [heldNodes] at hc
    split at hc
    · rw [List.mem_singleton.mp hc, ofLooked_object, ofLooked_object]
      exact ⟨hone harity, by simp [harity]⟩
    · cases hc

theorem ofLooked_self {view : View} (hn : (Tree.object tag fs).isNode = true) {b : Binding}
    (hsteps : Step.ofView fs view = [.self b]) :
    ofLooked .one view (.object tag fs) = [bound b (.object tag fs)] := by
  rw [ofLooked_object, if_pos ⟨by decide, by rw [hn]; rfl⟩, hsteps, List.flatMap_singleton,
    ofStepAt, ofStep]

theorem ofLooked_target {t : Tree} (hk : t.kind? = some "Identifier") (b : Binding) :
    ofLooked .one (.target b) t = [bound b t] := by
  obtain ⟨tag, fs, rfl⟩ := eq_object_of_isNode (Pattern.isNode_of_kind? hk)
  have hkind : Fields.kind fs = "Identifier" := kind_fields hk
  exact ofLooked_self (Pattern.isNode_of_kind? hk) (by simp [Step.ofView, Step.ofTarget, hkind])

theorem ofLooked_identifier {t : Tree} (hk : t.kind? = some "Identifier") {view : View}
    (hv : view.fits t.fields.kind = true) : ∃ b, ofLooked .one view t = [bound b t] := by
  cases view with
  | target b => exact ⟨b, ofLooked_target hk b⟩
  | visit | functionBody =>
    obtain ⟨tag, fs, rfl⟩ := eq_object_of_isNode (Pattern.isNode_of_kind? hk)
    have hkind : Fields.kind fs = "Identifier" := kind_fields hk
    refine ⟨.refer, ofLooked_self (Pattern.isNode_of_kind? hk) ?_⟩
    simp [Step.ofView, Step.ofNode, hkind]
  | _ =>
    rw [kind_fields hk] at hv
    cases hv

structure Leads (tag : Nat) (fs : Fields) (view : View) (key : String) (c : Tree) (s l : Step)
    (view' : View) : Prop where
  step : s ∈ Step.ofView fs view
  leaf : l ∈ s.leaves
  place : some key ∈ l.places
  fits : view'.fits c.fields.kind = true
  suits : view'.suits c = true
  items : ofLooked .one view' c ⊆ ofStepAt tag fs l
  told : ∀ f, Marks f → ∀ x ∈ c.tags,
    (x ∈ told f view (.object tag fs) ↔ x ∈ Item.told f view' c)

section

variable {slots : List (String × Contents)} {view : View} {e : String × Contents} {c : Tree}
  (h : (Tree.object tag fs).Numbered) (hs : slots? fs.kind = some slots)
  (hsuits : view.suits (.object tag fs) = true) (hc : c ∈ (fs.get e.1).heldNodes)

include h hsuits

theorem fits_steps : ∀ s ∈ Step.ofView fs view, s.Fits fs :=
  Step.fits_ofView (h.fits (tag, fs) (by rw [objects_object]; exact List.mem_cons_self)) hsuits

include hs hc

theorem Marks.mem_told_iff (hm : Marks f) (hx : x ∈ c.tags) : x ∈ told f view (.object tag fs) ↔
    ∃ s ∈ Step.ofView fs view, ∃ l ∈ s.leaves, some e.1 ∈ l.places ∧ x ∈ toldBy f tag fs l := by
  have hn := Pattern.isNode_of_kind? (Step.kind?_of_slots hs tag)
  have hkey : x ∈ (fs.get e.1).tags := List.map_subset _ (objects_held hc) hx
  have hne : x ≠ tag := by
    rintro rfl
    have hnodup := h.nodup
    rw [tags_object, List.nodup_cons] at hnodup
    refine hnodup.1 (List.mem_flatMap.mpr ⟨_, Fields.mem_get fun hnull => ?_, hkey⟩)
    rw [hnull] at hkey
    cases hkey
  rw [told, ofLooked_object, if_pos ⟨by decide, by rw [hn]; rfl⟩, List.flatMap_assoc,
    List.mem_flatMap]
  refine exists_congr fun s => and_congr_right fun hss => ⟨fun hxs => ?_, fun ⟨l, hl, _, hxl⟩ => ?_⟩
  · obtain ⟨l, hl, hxl⟩ := hm.exists_leaf hxs hne
    exact ⟨l, hl, hm.mem_places h ((fits_steps h hsuits s hss).leaves l hl) hxl hkey, hxl⟩
  · exact hm.toldBy_leaf hl hxl

variable (hv : view.fits fs.kind = true) (he : e ∈ slots)

include hv he

theorem Marks.notMem_told_of_silent (hm : Marks f) (hsilent : fs.silent e.1 = true)
    (hx : x ∈ c.tags) : x ∉ told f view (.object tag fs) := by
  intro hxu
  obtain ⟨s, hs', l, hl, hplace, -⟩ := (hm.mem_told_iff h hs hsuits hc hx).mp hxu
  have hplaces : some e.1 ∈ (Step.ofView fs view).flatMap Step.places := by
    refine List.mem_flatMap.mpr ⟨s, hs', ?_⟩
    rw [← Step.flatMap_places_leaves]
    exact List.mem_flatMap.mpr ⟨l, hl, hplace⟩
  rw [Step.mem_places_iff hs hv e he (isNull_of_held hc), hsilent] at hplaces
  cases hplaces

theorem exists_leads (hadmits : e.2.admits (fs.get e.1) = true) (hsilent : fs.silent e.1 = false) :
    ∃ s l view', Leads tag fs view e.1 c s l view' := by
  have hplaces := (Step.mem_places_iff hs hv e he (isNull_of_held hc)).mpr hsilent
  obtain ⟨s, hs', hplace⟩ := List.mem_flatMap.mp hplaces
  rw [← Step.flatMap_places_leaves] at hplace
  obtain ⟨l, hl, hplace⟩ := List.mem_flatMap.mp hplace
  have hls := List.mem_flatMap.mpr ⟨s, hs', hl⟩
  have hlfits := (fits_steps h hsuits s hs').leaves l hl
  -- No other leaf is about the field.
  have hnodup : (((Step.ofView fs view).flatMap Step.leaves).flatMap Step.places).Nodup := by
    rw [List.flatMap_assoc, List.flatMap_congr fun s _ => s.flatMap_places_leaves]
    exact Step.nodup_places (distinct_object.mp h.distinct).1 view
  have htold : ∀ f, Marks f → ∀ x ∈ c.tags,
      (x ∈ told f view (.object tag fs) ↔ x ∈ toldBy f tag fs l) := by
    intro f hm x hx
    rw [hm.mem_told_iff h hs hsuits hc hx]
    constructor
    · rintro ⟨s', hs'', l', hl', hplace', hxl⟩
      have hls' := List.mem_flatMap.mpr ⟨s', hs'', hl'⟩
      rwa [Scope.eq_of_mem_flatMap hnodup hls hls' hplace hplace']
    · exact fun hxl => ⟨s, hs', l, hl, hplace, hxl⟩
  cases l with
  | look arity view' key =>
    obtain rfl := Option.some.inj (List.mem_singleton.mp hplace)
    have hlook := Step.suits_ofView hs hv _ hls
    rw [Step.suits, lookup_of_mem_slots hs he, Option.any_some, Bool.and_eq_true,
      bne_iff_ne, List.all_eq_true] at hlook
    cases hlfits with
    | look hone hmany =>
      obtain ⟨hsuits', hitems⟩ := ofLooked_held hc hadmits hlook.1 hone hmany
      obtain ⟨kind, hkind, hk⟩ := Contents.kind_of_admits hadmits hc
      refine ⟨s, _, view', hs', hl, hplace, ?_, hsuits', hitems, fun f hm x hx => ?_⟩
      · rw [kind_fields hk]
        exact hlook.2 kind hkind
      · exact (htold f hm x hx).trans (hm.held (h.get e.1) hc hadmits hlook.1 hmany hx)
  | bind b key =>
    obtain rfl := Option.some.inj (List.mem_singleton.mp hplace)
    cases hlfits with
    | bind hid =>
      have hk := eq_of_beq hid
      rw [heldNodes_of_isNode (Pattern.isNode_of_kind? hk), List.mem_singleton] at hc
      subst hc
      have hitems : ofLooked .one (.target b) (fs.get e.1) = ofStepAt tag fs (.bind b e.1) :=
        ofLooked_target hk b
      refine ⟨s, _, .target b, hs', hl, hplace, ?_, rfl, ?_, fun f hm x hx => ?_⟩
      · rw [kind_fields hk]
        rfl
      · exact fun _ hi => hitems ▸ hi
      · rw [htold f hm x hx, told, hitems, toldBy]
  | self b => cases List.mem_singleton.mp hplace
  | arguments => cases hplace
  | scope kind dynamic ss => exact absurd hl Step.scope_notMem_leaves

end

end Item

end Legible
