import Legible.Proofs.Scope.Look
import Legible.Proofs.Tree.Names
import Mathlib.Data.List.Perm.Subperm

namespace Legible

theorem subperm_flatMap {α β : Type} {f g : α → List β} {l : List α}
    (h : ∀ a ∈ l, (f a).Subperm (g a)) : (l.flatMap f).Subperm (l.flatMap g) := by
  induction l with
  | nil => exact .refl _
  | cons a l ih =>
    rw [List.forall_mem_cons] at h
    exact h.1.append (ih h.2)

theorem subperm_lookup {α β : Type} [BEq α] [LawfulBEq α] {l : List (α × List β)} {ks : List α}
    (h : ks.Nodup) : (ks.flatMap fun k => (l.lookup k).getD []).Subperm (l.flatMap (·.2)) := by
  induction l generalizing ks with
  | nil => simp
  | cons e l ih =>
    obtain ⟨a, bs⟩ := e
    have hrest : ∀ ks : List α, a ∉ ks →
        (ks.flatMap fun k => (List.lookup k ((a, bs) :: l)).getD []) =
          ks.flatMap fun k => (l.lookup k).getD [] := by
      refine fun ks ha => List.flatMap_congr fun k hk => ?_
      have hne : (k == a) = false := beq_false_of_ne fun he => ha (he ▸ hk)
      simp [List.lookup_cons, hne]
    by_cases ha : a ∈ ks
    · have hp := List.perm_cons_erase ha
      refine (hp.flatMap_right _).subperm.trans ?_
      rw [List.flatMap_cons, hrest _ (h.not_mem_erase), List.lookup_cons_self]
      exact (List.Subperm.refl bs).append (ih (h.erase a))
    · rw [hrest ks ha]
      exact (ih h).trans (List.sublist_append_right ..).subperm

namespace Item

open Legible.Tree

def identifiersAt (tag : Nat) (fs : Fields) : Option String → List Occurrence
  | none => (identifier? (tag, fs)).toList
  | some k => (fs.get k).identifiers

theorem identifiersAt_subperm (tag : Nat) (fs : Fields) {ps : List (Option String)}
    (h : ps.Nodup) : (ps.flatMap (identifiersAt tag fs)).Subperm (object tag fs).identifiers := by
  let l : List (Option String × List Occurrence) :=
    (none, (identifier? (tag, fs)).toList) :: fs.map fun f => (some f.1, f.2.identifiers)
  have hget : ∀ k, ((fs.map fun f => (some f.1, f.2.identifiers)).lookup (some k)).getD [] =
      (fs.get k).identifiers := by
    intro k
    rw [Fields.get]
    induction fs with
    | nil => rfl
    | cons f fs ih =>
      obtain ⟨k', v⟩ := f
      rw [List.map_cons, List.lookup_cons, List.lookup_cons, Option.some_beq_some]
      cases k == k' with
      | true => rfl
      | false => exact ih
  have hl : identifiersAt tag fs = fun p => (l.lookup p).getD [] := by
    funext p
    cases p with
    | none => simp [l, identifiersAt]
    | some k => exact (hget k).symm
  rw [hl, identifiers_object]
  simpa [l, List.flatMap_map] using subperm_lookup (l := l) h

theorem occurrences_bound (b : Binding) (t : Tree) : occurrences (bound b t) = [⟨t.tag, t.name⟩] := by
  cases b <;> rfl

theorem identifiers_of_isKind {t : Tree} (h : t.isKind "Identifier" = true) :
    [⟨t.tag, t.name⟩].Subperm t.identifiers := by
  cases t with
  | scalar a => cases h
  | list ts => cases h
  | object tag fs =>
    have hk : Fields.kind fs = "Identifier" := by
      have hk : (Fields.get "type" fs).text? = some "Identifier" := by
        simpa [isKind, kind?, Fields.get] using h
      rw [Fields.kind_eq, hk, Option.getD_some]
    rw [identifiers_object, identifier?, if_pos hk]
    exact (List.prefix_append [_] _).sublist.subperm

theorem occurrences_ofStepAt {tag : Nat} {fs : Fields} {s : Step} (h : s.Fits fs)
    (ih : ∀ k arity view, (arity ≠ .many → view.suits (fs.get k) = true) →
      (arity ≠ .one → ∀ u ∈ (fs.get k).items, view.suits u = true) →
      ((ofLooked arity view (fs.get k)).flatMap occurrences).Subperm (fs.get k).identifiers) :
    ((ofStepAt tag fs s).flatMap occurrences).Subperm (s.places.flatMap (identifiersAt tag fs)) := by
  induction s with
  | look arity view key =>
    cases h with
    | look one many =>
      rw [Step.places, List.flatMap_singleton]
      exact ih key arity view one fun _ => many
  | bind b key =>
    cases h with
    | bind h =>
      rw [Step.places, List.flatMap_singleton, ofStepAt, ofStep, List.flatMap_singleton,
        occurrences_bound]
      exact identifiers_of_isKind h
  | self b =>
    cases h with
    | self h =>
      rw [Step.places, List.flatMap_singleton, ofStepAt, ofStep, List.flatMap_singleton,
        occurrences_bound, identifiersAt, identifier?, if_pos h]
      exact .refl _
  | arguments => exact .refl _
  | scope kind dynamic steps ihs =>
    cases h with
    | scope h =>
      rw [ofStepAt_scope, Step.places_scope, List.flatMap_singleton, occurrences_scope,
        List.flatMap_assoc, List.flatMap_assoc]
      exact subperm_flatMap fun s hs => ihs s hs (h s hs)

theorem occurrences_ofLooked {t : Tree} (hd : t.distinct = true)
    (hf : ∀ o ∈ t.objects, o.2.fits = true) {arity : Arity} {view : View}
    (one : arity ≠ .many → view.suits t = true)
    (many : arity ≠ .one → ∀ u ∈ t.items, view.suits u = true) :
    ((ofLooked arity view t).flatMap occurrences).Subperm t.identifiers := by
  induction t generalizing arity view with
  | scalar a =>
    rw [ofLooked_scalar]
    exact .refl _
  | list ts ih =>
    rw [ofLooked_list, identifiers_list]
    split
    · exact (List.nil_sublist _).subperm
    rename_i harity
    rw [List.flatMap_assoc]
    rw [distinct_list] at hd
    simp only [objects_list, List.mem_flatMap] at hf
    exact subperm_flatMap fun t ht => ih t ht (hd t ht) (fun o ho => hf o ⟨t, ht, ho⟩)
      (fun _ => many harity t ht) (absurd rfl)
  | object tag fs ih =>
    rw [ofLooked_object]
    split
    · rename_i harity
      rw [distinct_object] at hd
      simp only [objects_object, List.forall_mem_cons, List.mem_flatMap] at hf
      have hget : ∀ k arity view, (arity ≠ .many → view.suits (Fields.get k fs) = true) →
          (arity ≠ .one → ∀ u ∈ (Fields.get k fs).items, view.suits u = true) →
          ((ofLooked arity view (Fields.get k fs)).flatMap occurrences).Subperm
            (Fields.get k fs).identifiers := by
        intro k arity view
        rw [Fields.get]
        cases h : List.lookup k fs with
        | none =>
          intros
          cases arity <;> exact .refl _
        | some v =>
          have hm := Fields.mem_of_lookup h
          exact ih _ hm (hd.2 _ hm) fun o ho => hf.2 o ⟨_, hm, ho⟩
      refine List.Subperm.trans ?_ (identifiersAt_subperm tag fs (Step.nodup_places hd.1 view))
      rw [List.flatMap_assoc, List.flatMap_assoc]
      exact subperm_flatMap fun s hs =>
        occurrences_ofStepAt (Step.fits_ofView hf.1 (one harity.1) s hs) hget
    · exact (List.nil_sublist _).subperm

theorem forall_ofLooked {motive : Item → Prop} (bound : ∀ b t, motive (bound b t))
    (arguments : motive (.declare .implicit false "arguments" none))
    (scope : ∀ kind block dynamic is,
      (dynamic = true → kind = .withBody ∨ block.kind = "Program") → (∀ i ∈ is, motive i) →
        motive (.scope kind block dynamic is))
    {t : Tree} {arity : Arity} {view : View} : ∀ i ∈ ofLooked arity view t, motive i := by
  induction t generalizing arity view with
  | scalar a =>
    rw [ofLooked_scalar]
    exact List.forall_mem_nil _
  | list ts ih =>
    rw [ofLooked_list]
    split
    · exact List.forall_mem_nil _
    · intro i hi
      obtain ⟨t, ht, hi⟩ := List.mem_flatMap.mp hi
      exact ih t ht i hi
  | object tag fs ih =>
    have hsteps : ∀ s : Step, s.placed (Fields.kind fs) = true → ∀ i ∈ ofStepAt tag fs s, motive i := by
      intro s
      induction s with
      | look arity view key =>
        intro _
        exact Fields.get_induction (motive := fun t => ∀ i ∈ ofLooked arity view t, motive i) key
          (by rw [Tree.null, ofLooked_scalar]; exact List.forall_mem_nil _) fun f hf => ih f hf
      | bind b key => exact fun _ => List.forall_mem_singleton.mpr (bound b _)
      | self b => exact fun _ => List.forall_mem_singleton.mpr (bound b _)
      | arguments => exact fun _ => List.forall_mem_singleton.mpr arguments
      | scope kind dynamic steps ihs =>
        intro hp
        rw [Step.placed, Bool.and_eq_true, Step.placedAll_iff] at hp
        rw [ofStepAt_scope, List.forall_mem_singleton]
        refine scope _ _ _ _ (fun hd => ?_) fun i hi => ?_
        · simpa [hd] using hp.1
        · obtain ⟨s, hs, hi⟩ := List.mem_flatMap.mp hi
          exact ihs s hs (hp.2 s hs) i hi
    rw [ofLooked_object]
    split
    · intro i hi
      obtain ⟨s, hs, hi⟩ := List.mem_flatMap.mp hi
      exact hsteps s (Step.placedAll_iff.mp (Step.placed_ofView fs view) s hs) i hi
    · exact List.forall_mem_nil _

theorem implicit_ofLooked {t : Tree} {arity : Arity} {view : View} :
    ∀ i ∈ ofLooked arity view t, ∀ m ∈ i.mentions, m.1 = none → m.2 = "arguments" := by
  refine forall_ofLooked (fun b t => ?_) ?_ fun kind block dynamic is _ ih => ?_
  · cases b <;> simp [bound, mentions]
  · simp [mentions]
  · rw [mentions_scope]
    intro m hm
    obtain ⟨i, hi, hm⟩ := List.mem_flatMap.mp hm
    exact ih i hi m hm

end Item

/-! ### New names -/

theorem Step.ofView_newFields {names : Names} {tag : Nat} {fs : Fields}
    (h : fs.kind ≠ "Identifier" → names[tag]? = none) (view : View) :
    Step.ofView (names.newFields tag fs) view = Step.ofView fs view := by
  have hget : ∀ k, k ≠ "name" → (names.newFields tag fs).get k = names.apply (fs.get k) :=
    fun k hk => Names.get_newFields fun he => absurd he hk
  have hnode : Step.ofNode (names.newFields tag fs) = Step.ofNode fs := by
    simp only [Step.ofNode, Step.declareIf, Step.functionScope, Step.classScope, Step.loopScope,
      Names.kind_newFields, Names.flag_newFields, Names.childKeys_newFields h, hget,
      Names.isNull_apply, Names.text?_apply, Names.isKind_apply, Names.get_apply, ne_eq,
      String.reduceEq, not_false_eq_true]
  cases view with
  | visit => exact hnode
  | target b => simp only [Step.ofView, Step.ofTarget, Names.kind_newFields, hnode]
  | property b =>
    simp only [Step.ofView, Step.ofProperty, Names.kind_newFields, Names.flag_newFields, ne_eq,
      String.reduceEq, not_false_eq_true]
  | declarator hoisted => rfl
  | functionBody => simp only [Step.ofView, Names.kind_newFields, hnode]
  | importSpecifier => rfl
  | exportSpecifier => rfl

theorem Step.name_notMem_places {fs : Fields} (h : fs.kind = "Identifier") (view : View) :
    some "name" ∉ (Step.ofView fs view).flatMap Step.places := by
  cases view with
  | property b =>
    rw [Step.ofView, Step.ofProperty]
    split_ifs <;> simp [Step.places]
  | _ => simp [Step.ofView, Step.ofTarget, Step.ofNode, Step.places, h]

namespace Item

variable {names : Names}

theorem name_apply_object (names : Names) (tag : Nat) (fs : Fields) :
    (names.apply (.object tag fs)).name = names.current ⟨tag, (Tree.object tag fs).name⟩ := by
  rw [Names.current, Std.HashMap.getD_eq_getD_getElem?, Names.apply_object]
  cases hn : names[tag]? with
  | none =>
    have hg : (names.newFields tag fs).get "name" = names.apply (Fields.get "name" fs) :=
      Names.get_newFields fun _ => hn
    exact congrArg (·.getD "") ((congrArg Tree.text? hg).trans (Names.text?_apply _ _))
  | some name =>
    have hg : (names.newFields tag fs).get "name" = .text name := by
      rw [Names.newFields, hn, Fields.get]
      exact congrArg (·.getD Tree.null) (Fields.lookup_set ..)
    exact congrArg (·.getD "") (congrArg Tree.text? hg)

theorem name_apply (h : names[0]? = none) (t : Tree) :
    (names.apply t).name = names.current ⟨t.tag, t.name⟩ := by
  cases t with
  | scalar a =>
    rw [Names.current, Std.HashMap.getD_eq_getD_getElem?]
    simp [Names.apply, Tree.tag, h]
  | list ts =>
    rw [Names.current, Std.HashMap.getD_eq_getD_getElem?]
    simp [Names.apply_list, Tree.tag, h, Tree.name, Tree.get, Tree.field?, Tree.fields]
  | object tag fs => exact name_apply_object names tag fs

theorem bound_apply (h : names[0]? = none) (b : Binding) (t : Tree) :
    bound b (names.apply t) = (bound b t).renamed names := by
  cases b with
  | declare kind hoisted =>
    simp only [bound, renamed, Names.currentOf, name_apply h, Names.tag_apply]
  | refer => simp only [bound, renamed, Occurrence.renamed, name_apply h, Names.tag_apply]

theorem ofStepAt_newFields {tag : Nat} {fs : Fields} {s : Step} (h : names[0]? = none)
    (hs : some "name" ∈ s.places → names[tag]? = none)
    (ih : ∀ k arity view, ofLooked arity view (names.apply (fs.get k)) =
      (ofLooked arity view (fs.get k)).map (renamed names)) :
    ofStepAt tag (names.newFields tag fs) s = (ofStepAt tag fs s).map (renamed names) := by
  induction s with
  | look arity view key =>
    have hg : (names.newFields tag fs).get key = names.apply (fs.get key) :=
      Names.get_newFields fun he => hs (he ▸ List.mem_singleton_self _)
    have hl := ih key arity view
    rw [← hg] at hl
    exact hl
  | bind b key =>
    have hg : (names.newFields tag fs).get key = names.apply (fs.get key) :=
      Names.get_newFields fun he => hs (he ▸ List.mem_singleton_self _)
    simp only [ofStepAt, ofStep, hg, bound_apply h, List.map_singleton]
  | self b =>
    simp only [ofStepAt, ofStep, ← Names.apply_object, bound_apply h, List.map_singleton]
  | arguments => rfl
  | scope kind dynamic steps ihs =>
    rw [Step.places_scope] at hs
    rw [ofStepAt_scope, ofStepAt_scope, List.map_singleton, renamed_scope, Names.kind_newFields,
      List.map_flatMap]
    congr 2
    exact List.flatMap_congr fun s hm =>
      ihs s hm fun hn => hs (List.mem_flatMap.mpr ⟨s, hm, hn⟩)

theorem ofLooked_apply {t : Tree} (h : names.Suits t) {arity : Arity} {view : View} :
    ofLooked arity view (names.apply t) = (ofLooked arity view t).map (renamed names) := by
  induction t generalizing arity view with
  | scalar a =>
    rw [Names.apply, ofLooked_scalar]
    rfl
  | list ts ih =>
    rw [Names.apply_list, ofLooked_list, ofLooked_list]
    split
    · rfl
    · rw [List.flatMap_map, List.map_flatMap]
      exact List.flatMap_congr fun t ht => ih t ht ⟨h.zero, fun o ho => h.others o (by
        rw [Tree.objects_list]
        exact List.mem_flatMap.mpr ⟨t, ht, ho⟩)⟩
  | object tag fs ih =>
    have hobj := h.others
    simp only [Tree.objects_object, List.forall_mem_cons, List.mem_flatMap] at hobj
    have hnode := Names.isNode_apply names (.object tag fs)
    rw [Names.apply_object] at hnode ⊢
    rw [ofLooked_object, ofLooked_object, hnode, Step.ofView_newFields hobj.1]
    split
    · rw [List.map_flatMap]
      refine List.flatMap_congr fun s hs => ofStepAt_newFields h.zero (fun hn => ?_) fun k => ?_
      · refine hobj.1 fun hk => Step.name_notMem_places hk view ?_
        exact List.mem_flatMap.mpr ⟨s, hs, hn⟩
      · exact Fields.get_induction k
          (motive := fun t => ∀ arity view, ofLooked arity view (names.apply t) =
            (ofLooked arity view t).map (renamed names))
          (fun arity view => by cases arity <;> rfl) fun f hf arity view =>
            ih f hf ⟨h.zero, fun o ho => hobj.2 o ⟨f, hf, ho⟩⟩
    · rfl

end Item

end Legible
