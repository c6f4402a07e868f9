import Legible.Proofs.Scope.Standing

namespace Legible

namespace Step

mutual

def makes : Step → List ScopeKind
  | .scope kind _ steps => (if kind = .functionName then [] else [kind]) ++ makesOf steps
  | _ => []
termination_by structural s => s

def makesOf : List Step → List ScopeKind
  | [] => []
  | s :: ss => makes s ++ makesOf ss
termination_by structural ss => ss

end

theorem makesOf_eq (ss : List Step) : makesOf ss = ss.flatMap makes := by
  induction ss with
  | nil => rfl
  | cons s ss ih => rw [makesOf, List.flatMap_cons, ih]

theorem makes_scope (kind : ScopeKind) (dynamic : Bool) (ss : List Step) :
    makes (.scope kind dynamic ss) =
      (if kind = .functionName then [] else [kind]) ++ ss.flatMap makes := by
  rw [makes, makesOf_eq]

theorem makes_declareIf (kind : VariableKind) (fs : Fields) :
    (declareIf kind fs).flatMap makes = [] := by
  rw [declareIf]
  split <;> rfl

theorem makes_functionScope (fs : Fields) : (functionScope fs).makes = [.function] := by
  rw [functionScope]
  split <;> rfl

theorem makes_classScope (fs : Fields) : (classScope fs).flatMap makes = [.classBody] := by
  rw [classScope]
  split
  · simp [makes, makesOf_eq, makes_declareIf]
  · rfl

theorem length_makes_ofNode (fs : Fields) : ((ofNode fs).flatMap makes).length ≤ 1 := by
  unfold ofNode
  split
  case h_30 =>
    rw [List.flatMap_map]
    simp [makes]
  all_goals try split_ifs
  all_goals try rw [loopScope]
  all_goals try split
  all_goals simp [makes, makesOf_eq, makes_declareIf, makes_functionScope, makes_classScope]

theorem length_makes_ofView (fs : Fields) (view : View) :
    ((ofView fs view).flatMap makes).length ≤ 1 := by
  have hnode := length_makes_ofNode fs
  cases view with
  | visit => exact hnode
  | target b =>
    rw [ofView]
    unfold ofTarget
    split
    case h_6 => exact hnode
    all_goals exact Nat.zero_le _
  | property b =>
    rw [ofView, ofProperty]
    split_ifs <;> exact Nat.zero_le _
  | functionBody =>
    rw [ofView]
    split
    · exact Nat.zero_le _
    · exact hnode
  | _ => exact Nat.zero_le _

end Step

namespace Item

open Legible.Tree

mutual

def blockTags : Item → List Nat
  | .scope kind block _ items =>
    (if kind = .functionName then [] else [block.tag]) ++ blockTagsOf items
  | _ => []
termination_by structural i => i

def blockTagsOf : List Item → List Nat
  | [] => []
  | i :: is => blockTags i ++ blockTagsOf is
termination_by structural is => is

end

theorem blockTags_scope (kind : ScopeKind) (block : Block) (dynamic : Bool) (is : List Item) :
    blockTags (.scope kind block dynamic is) =
      (if kind = .functionName then [] else [block.tag]) ++ is.flatMap blockTags := by
  rw [blockTags]
  congr 1
  induction is with
  | nil => rfl
  | cons i is ih => rw [blockTagsOf, List.flatMap_cons, ih]

theorem blockTags_bound (b : Binding) (t : Tree) : blockTags (bound b t) = [] := by
  cases b <;> rfl

theorem marks_blockTags : Marks blockTags where
  bound b t := by
    rw [blockTags_bound]
    exact List.nil_subset _
  arguments := rfl
  scope kind block dynamic is := by
    rw [blockTags_scope]
    split
    · exact List.subset_cons_self _ _
    · exact List.Subset.refl _
  inner kind block dynamic is := by
    rw [blockTags_scope]
    exact List.subset_append_right _ _

def tagsAt (fs : Fields) : Option String → List Nat
  | none => []
  | some k => (fs.get k).tags

theorem tagsAt_subperm (fs : Fields) {ps : List (Option String)} (h : ps.Nodup) :
    (ps.flatMap (tagsAt fs)).Subperm (fs.flatMap fun f => f.2.tags) := by
  let l : List (Option String × List Nat) := fs.map fun f => (some f.1, f.2.tags)
  have hl : tagsAt fs = fun p => (l.lookup p).getD [] := by
    funext p
    cases p with
    | none =>
      have hnone : l.lookup none = none :=
        List.lookup_eq_none_iff.mpr fun e he => by
          obtain ⟨f, -, rfl⟩ := List.mem_map.mp he
          rfl
      rw [hnone]
      rfl
    | some k =>
      simp only [tagsAt, Fields.get, l]
      induction fs with
      | nil => rfl
      | cons f fs ih =>
        rw [List.map_cons, List.lookup_cons, List.lookup_cons, Option.some_beq_some]
        cases k == f.1 with
        | true => rfl
        | false => exact ih
  have hsub := subperm_lookup (l := l) h
  rw [← hl, List.flatMap_map] at hsub
  exact hsub

variable {tag : Nat} {fs : Fields} {s : Step}

theorem blockTags_ofStepAt (h : s.Fits fs)
    (ih : ∀ k arity view, (arity ≠ .many → view.suits (fs.get k) = true) →
      (arity ≠ .one → ∀ u ∈ (fs.get k).items, view.suits u = true) →
      ((ofLooked arity view (fs.get k)).flatMap blockTags).Subperm (fs.get k).tags) :
    ((ofStepAt tag fs s).flatMap blockTags).Subperm
      (s.makes.map (fun _ => tag) ++ s.places.flatMap (tagsAt fs)) := by
  induction s with
  | look arity view key =>
    cases h with
    | look one many =>
      rw [Step.places, List.flatMap_singleton]
      exact ih key arity view one fun _ => many
  | bind b key =>
    rw [ofStepAt, ofStep, List.flatMap_singleton, blockTags_bound]
    exact List.nil_subperm
  | self b =>
    rw [ofStepAt, ofStep, List.flatMap_singleton, blockTags_bound]
    exact List.nil_subperm
  | arguments => exact List.nil_subperm
  | scope kind dynamic ss ihs =>
    cases h with
    | scope h =>
      have hss : ((ss.flatMap (ofStepAt tag fs)).flatMap blockTags).Subperm
          ((ss.flatMap Step.makes).map (fun _ => tag) ++
            (ss.flatMap Step.places).flatMap (tagsAt fs)) := by
        rw [List.flatMap_assoc, List.flatMap_assoc, List.map_flatMap]
        exact (subperm_flatMap fun s hs => ihs s hs (h s hs)).trans
          (List.flatMap_append_perm _ _ _).symm.subperm
      rw [ofStepAt_scope, List.flatMap_singleton, blockTags_scope, Step.makes_scope,
        Step.places_scope, List.map_append, List.append_assoc]
      refine List.Subperm.append ?_ hss
      split <;> exact .refl _

theorem blockTags_ofLooked {t : Tree} (hd : t.distinct = true)
    (hf : ∀ o ∈ t.objects, o.2.fits = true) {arity : Arity} {view : View}
    (one : arity ≠ .many → view.suits t = true)
    (many : arity ≠ .one → ∀ u ∈ t.items, view.suits u = true) :
    ((ofLooked arity view t).flatMap blockTags).Subperm t.tags := by
  induction t generalizing arity view with
  | scalar a =>
    rw [ofLooked_scalar]
    exact .refl _
  | list ts ih =>
    rw [ofLooked_list, tags_list]
    split
    · exact List.nil_subperm
    rename_i harity
    rw [List.flatMap_assoc]
    rw [distinct_list] at hd
    simp only [objects_list, List.mem_flatMap] at hf
    exact subperm_flatMap fun t ht => ih t ht (hd t ht) (fun o ho => hf o ⟨t, ht, ho⟩)
      (fun _ => many harity t ht) (absurd rfl)
  | object tag fs ih =>
    rw [ofLooked_object]
    split
    · rename_i harity
      rw [distinct_object] at hd
      simp only [objects_object, List.forall_mem_cons, List.mem_flatMap] at hf
      have hget : ∀ k arity view, (arity ≠ .many → view.suits (Fields.get k fs) = true) →
          (arity ≠ .one → ∀ u ∈ (Fields.get k fs).items, view.suits u = true) →
          ((ofLooked arity view (Fields.get k fs)).flatMap blockTags).Subperm
            (Fields.get k fs).tags := by
        intro k arity view one many
        by_cases hnull : Fields.get k fs = .null
        · rw [hnull, null, ofLooked_scalar]
          exact List.nil_subperm
        · have hmem := Fields.mem_get hnull
          exact ih _ hmem (hd.2 _ hmem) (fun o ho => hf.2 o ⟨_, hmem, ho⟩) one many
      have hmakes : (((Step.ofView fs view).flatMap Step.makes).map fun _ => tag).Subperm [tag] := by
        rw [List.map_const']
        exact ((List.replicate_sublist_replicate tag).mpr
          (Step.length_makes_ofView fs view)).subperm
      rw [tags_object, List.flatMap_assoc]
      refine (subperm_flatMap fun s hs => blockTags_ofStepAt
        (Step.fits_ofView hf.1 (one harity.1) s hs) hget).trans ?_
      refine (List.flatMap_append_perm _ _ _).symm.subperm.trans ?_
      rw [← List.map_flatMap, ← List.flatMap_assoc]
      exact hmakes.append (tagsAt_subperm fs (Step.nodup_places hd.1 view))
    · exact List.nil_subperm

theorem tag_notMem_told {view : View} (h : (Tree.object tag fs).Numbered)
    (hsuits : view.suits (.object tag fs) = true)
    (hmakes : (Step.ofView fs view).flatMap Step.makes = []) :
    tag ∉ told blockTags view (.object tag fs) := by
  have hn := h.nodup
  rw [tags_object, List.nodup_cons] at hn
  rw [told, ofLooked_object]
  split
  · rw [List.flatMap_assoc, List.mem_flatMap]
    rintro ⟨s, hs, hx⟩
    have hx := (blockTags_ofStepAt (fits_steps h hsuits s hs)
      fun k _ _ one many => blockTags_ofLooked (h.get k).distinct (h.get k).fits one many).subset hx
    rcases List.mem_append.mp hx with hx | hx
    · rw [List.flatMap_eq_nil_iff.mp hmakes s hs] at hx
      cases hx
    · -- The node itself is not among the objects in its fields.
      obtain ⟨p, -, hx⟩ := List.mem_flatMap.mp hx
      cases p with
      | none => cases hx
      | some k =>
        refine hn.1 (List.mem_flatMap.mpr ⟨_, Fields.mem_get fun hnull => ?_, hx⟩)
        rw [tagsAt, hnull] at hx
        cases hx
  · exact List.not_mem_nil

end Item

namespace Scope

def blockTag? (s : Scope) : Option Nat :=
  if s.registered = true ∧ s.kind ≠ .functionName then some s.block.tag else none

theorem fst_owners (s : Scope) : s.owners.map (·.1) = s.scopes.filterMap blockTag? := by
  have hpaths : s.owners.map (·.1) = (s.paths.map s.at?).filterMap (·.bind blockTag?) := by
    rw [owners, registeredPaths, List.map_filterMap, List.filterMap_filter, List.filterMap_map]
    refine List.filterMap_congr fun p _ => ?_
    cases h : s.at? p with
    | none => simp [h]
    | some c =>
      by_cases hr : c.registered = true <;> by_cases hk : c.kind = .functionName <;>
        simp [h, blockTag?, hr, hk]
  rw [hpaths, map_at?_paths, List.filterMap_map]
  rfl

theorem blockTags_partsOf (env : List Frame) (i : Item) :
    ((partsOf env i).flatMap Part.scopes).filterMap blockTag? = i.blockTags := by
  induction i generalizing env with
  | declare kind hoisted name id => rfl
  | refer o => rfl
  | scope kind block dynamic is ih =>
    have hself : blockTag? (made kind block dynamic true env is) =
        if kind = .functionName then none else some block.tag := by
      rw [blockTag?, made, assemble]
      by_cases hk : kind = .functionName <;> simp [hk]
    have hinner : ((partsIn kind dynamic env is).flatMap Part.scopes).filterMap blockTag? =
        is.flatMap Item.blockTags := by
      rw [partsIn, List.flatMap_assoc, List.filterMap_flatMap]
      exact List.flatMap_congr fun i hi => ih i hi _
    rw [partsOf_scope, List.flatMap_singleton, Part.scopes, scopes_made, List.filterMap_cons, hself,
      hinner, Item.blockTags_scope]
    by_cases hk : kind = .functionName <;> simp [hk]

variable {t : Tree}

theorem fst_owners_program (h : t.isKind "Program" = true) :
    (ofTree t).owners.map (·.1) = Item.told Item.blockTags .visit t := by
  obtain ⟨kind, dynamic, is, -, -, hi⟩ := exists_item_of_program h
  have hparts := blockTags_partsOf [] (.scope kind ⟨t.tag, "Program"⟩ dynamic is)
  rw [partsOf_scope, List.flatMap_singleton, Part.scopes, ← ofTree_program h hi] at hparts
  rw [fst_owners, hparts, Item.told, ← Item.ofTree_eq_ofLooked, hi, List.flatMap_singleton]

theorem acquire?_eq_some_iff (h : t.isKind "Program" = true) (ht : t.Numbered) {tag : Nat}
    {p : Path} : (ofTree t).acquire? tag = some p ↔ (tag, p) ∈ (ofTree t).owners := by
  have hsub : (Item.told Item.blockTags .visit t).Subperm t.tags :=
    Item.blockTags_ofLooked ht.distinct ht.fits (fun _ => rfl) (absurd rfl)
  have hnodup : ((ofTree t).owners.map (·.1)).Nodup := by
    obtain ⟨l, hl, hs⟩ := hsub
    rw [fst_owners_program h]
    exact hl.nodup_iff.mp (ht.nodup.sublist hs)
  exact ⟨mem_of_lookup_eq, lookup_eq_of_mem hnodup⟩

theorem mem_owners {s : Scope} {tag : Nat} {p : Path} : (tag, p) ∈ s.owners ↔
    ∃ c, s.at? p = some c ∧ c.registered = true ∧ c.kind ≠ .functionName ∧ c.block.tag = tag := by
  rw [owners, registeredPaths, List.filterMap_filter, List.mem_filterMap]
  constructor
  · rintro ⟨q, -, h⟩
    cases hc : s.at? q with
    | none => simp [hc] at h
    | some c =>
      by_cases hr : c.registered = true <;> by_cases hk : c.kind = .functionName <;>
        simp [hc, hr, hk] at h
      obtain ⟨rfl, rfl⟩ := h
      exact ⟨c, hc, hr, hk, rfl⟩
  · rintro ⟨c, hc, hr, hk, rfl⟩
    exact ⟨p, mem_paths hc, by simp [hc, hr, hk]⟩

theorem acquire?_eq_none (h : t.isKind "Program" = true) {tag : Nat} {fs : Fields} {view : View}
    (hn : (Tree.object tag fs).Numbered) (hsuits : view.suits (.object tag fs) = true)
    (htold : tag ∈ Item.told Item.blockTags .visit t ↔
      tag ∈ Item.told Item.blockTags view (.object tag fs))
    (hmakes : (Step.ofView fs view).flatMap Step.makes = []) : (ofTree t).acquire? tag = none := by
  refine List.lookup_eq_none_iff.mpr fun e he => bne_iff_ne.mpr ?_
  rintro rfl
  have hmem := List.mem_map_of_mem (f := (·.1)) he
  rw [fst_owners_program h, htold] at hmem
  exact Item.tag_notMem_told hn hsuits hmakes hmem

end Scope

end Legible
