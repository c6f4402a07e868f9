import Legible.Proofs.Scope.UniqueName

namespace Legible

namespace Names

variable {names names' names'' : Names} {new : String} {tags tags' : List Nat}

theorem current_eq (names : Names) (o : Occurrence) :
    names.current o = (names[o.tag]?).getD o.name :=
  Std.HashMap.getD_eq_getD_getElem?

theorem current_congr {o : Occurrence} (h : names'[o.tag]? = names[o.tag]?) :
    names'.current o = names.current o := by
  rw [current_eq, current_eq, h]

theorem getElem?_setAll (names : Names) (tags : List Nat) (new : String) (tag : Nat) :
    (names.setAll tags new)[tag]? = if tag ∈ tags then some new else names[tag]? := by
  rw [setAll]
  induction tags generalizing names with
  | nil => rfl
  | cons n tags ih =>
    rw [List.foldl_cons, ih, Std.HashMap.getElem?_insert]
    by_cases hm : tag ∈ tags
    · rw [if_pos hm, if_pos (List.mem_cons_of_mem _ hm)]
    · by_cases hn : n = tag
      · simp [hn]
      · simp [hm, hn, Ne.symm hn]

def Spares (names : Names) (old new : String) (x : Nat) (o : Occurrence) : Prop :=
  o.tag = x → names.current o = old → names[x]? = some new

theorem Spares.congr {old : String} {x : Nat} {o : Occurrence} (h : names.Spares old new x o)
    (hn : names'[x]? = names[x]?) : names'.Spares old new x o := by
  intro htag hcurrent
  rw [current_congr (htag ▸ hn)] at hcurrent
  exact hn.trans (h htag hcurrent)

theorem getElem?_replaceName_of_spares {old : String} {x : Nat} {os : List Occurrence}
    (h : ∀ o ∈ os, names.Spares old new x o) : (names.replaceName os old new)[x]? = names[x]? := by
  apply List.foldlRecOn (motive := fun names' : Names => names'[x]? = names[x]?)
  · rfl
  · intro names' hn o ho
    split
    · rename_i hcurrent
      rw [Std.HashMap.getElem?_insert]
      split
      · rename_i htag
        exact (((h o ho).congr hn (eq_of_beq htag) hcurrent).symm.trans hn)
      · exact hn
    · exact hn

def Adds (names : Names) (new : String) (tags : List Nat) (names' : Names) : Prop :=
  ∀ tag, names'[tag]? = if tag ∈ tags ∧ names[tag]? = none then some new else names[tag]?

theorem Adds.nil (names : Names) (new : String) : names.Adds new [] names :=
  fun tag => by rw [if_neg fun h => List.not_mem_nil h.1]

theorem Adds.append (h : names.Adds new tags names') (h' : names'.Adds new tags' names'') :
    names.Adds new (tags ++ tags') names'' := by
  intro tag
  rw [h' tag, h tag]
  cases hn : names[tag]? with
  | some x => simp
  | none => by_cases ht : tag ∈ tags <;> simp [ht]

theorem Adds.of_subset (h : names.Adds new (tags ++ tags') names') (hs : tags' ⊆ tags) :
    names.Adds new tags names' := by
  intro tag
  rw [h tag]
  refine if_congr (and_congr_left' ?_) rfl rfl
  rw [List.mem_append]
  exact or_iff_left_of_imp (@hs tag)

def Avoid (names : Names) (old new : String) : Prop :=
  ∀ tag : Nat, names[tag]? = some old → new = old

theorem Avoid.empty (old new : String) : Avoid ∅ old new :=
  fun tag h => by simp at h

theorem Avoid.setAll {old : String} (ha : names.Avoid old new) (tags : List Nat) :
    (names.setAll tags new).Avoid old new := by
  intro tag
  rw [getElem?_setAll]
  split
  · exact Option.some.inj
  · exact ha tag

theorem Adds.avoid (h : names.Adds new tags names') {old : String} (ha : names.Avoid old new) :
    names'.Avoid old new := by
  intro tag
  rw [h tag]
  split
  · exact Option.some.inj
  · exact ha tag

theorem adds_replaceName {old : String} (ha : names.Avoid old new) (os : List Occurrence) :
    names.Adds new ((os.filter (·.name == old)).map (·.tag)) (names.replaceName os old new) := by
  induction os generalizing names with
  | nil => exact .nil names new
  | cons o os ih =>
    have hstep : names.Adds new (([o].filter (·.name == old)).map (·.tag))
        (if names.current o = old then names.insert o.tag new else names) := by
      intro tag
      rw [current_eq]
      cases hn : names[o.tag]? with
      | some x =>
        rw [Option.getD_some, if_neg (c := tag ∈ _ ∧ _)]
        · split
          · rename_i hx
            subst hx
            obtain rfl := ha o.tag hn
            rw [Std.HashMap.getElem?_insert]
            split
            · rename_i ht
              rw [← eq_of_beq ht, hn]
            · rfl
          · rfl
        · rintro ⟨hm, hnone⟩
          obtain ⟨o', ho', rfl⟩ := List.mem_map.mp hm
          obtain rfl := List.mem_singleton.mp (List.mem_filter.mp ho').1
          rw [hn] at hnone
          cases hnone
      | none =>
        rw [Option.getD_none]
        by_cases ho : o.name = old
        · rw [if_pos ho, List.filter_cons_of_pos (by simpa using ho), List.filter_nil,
            List.map_singleton, Std.HashMap.getElem?_insert]
          by_cases ht : o.tag = tag
          · subst ht
            simp [hn]
          · simp [ht, Ne.symm ht]
        · rw [if_neg ho, List.filter_cons_of_neg (by simpa using ho), List.filter_nil, List.map_nil,
            if_neg fun h => List.not_mem_nil h.1]
    have hall := hstep.append (ih (hstep.avoid ha))
    rw [← List.map_append, ← List.filter_append, List.singleton_append] at hall
    exact hall

end Names

namespace Scope

variable {names : Names} {old new : String}

theorem renameChildren_eq (old new : String) (names : Names) (cs : List Scope) :
    renameChildren old new names cs = cs.foldl (renameThrough old new) names := by
  induction cs generalizing names with
  | nil => rfl
  | cons c cs ih => rw [renameChildren, List.foldl_cons, ih]

theorem renameThrough_eq (old new : String) (names : Names) (s : Scope) :
    renameThrough old new names s =
      if s.declares old then names
      else s.children.foldl (renameThrough old new) (names.replaceName s.through old new) := by
  cases s
  rw [renameThrough, renameChildren_eq]
  rfl

theorem getElem?_renameThrough_of_spares {s : Scope} {x : Nat}
    (h : ∀ c ∈ s.scopes, ∀ o ∈ c.through, names.Spares old new x o) :
    (renameThrough old new names s)[x]? = names[x]? := by
  induction s using induction generalizing names with
  | node s ih =>
    rw [renameThrough_eq]
    split
    · rfl
    · apply List.foldlRecOn (motive := fun names' : Names => names'[x]? = names[x]?)
      · exact Names.getElem?_replaceName_of_spares (h s s.self_mem_scopes)
      · intro names' hn c hc
        apply (ih c hc fun d hd o ho => ?_).trans hn
        exact (h d (mem_scopes_of_child hc hd) o ho).congr hn

theorem getElem?_renamedNames_of_current {s : Scope} {v : Variable} {x : Nat}
    (hr : ∀ r ∈ s.references, r.occurrence.tag = x → names.current r.occurrence = v.name → x ∈ v.tags)
    (ht : ∀ c ∈ s.children, ∀ d ∈ c.scopes, ∀ o ∈ d.through,
      o.tag = x → names.current o = v.name → x ∈ v.tags) (new : String) :
    (renamedNames s v new names)[x]? = if x ∈ v.tags then some new else names[x]? := by
  have hset := names.getElem?_setAll v.tags new x
  have hspares : ∀ o : Occurrence, (o.tag = x → names.current o = v.name → x ∈ v.tags) →
      (names.setAll v.tags new).Spares v.name new x o := by
    intro o ho htag hcurrent
    by_cases hx : x ∈ v.tags
    · rw [hset, if_pos hx]
    · rw [if_neg hx] at hset
      rw [Names.current_congr (htag ▸ hset)] at hcurrent
      exact absurd (ho htag hcurrent) hx
  rw [renamedNames, renameChildren_eq]
  refine Eq.trans ?_ hset
  apply List.foldlRecOn
    (motive := fun names' : Names => names'[x]? = (names.setAll v.tags new)[x]?)
  · apply Names.getElem?_replaceName_of_spares
    rw [List.forall_mem_map]
    exact fun r hm => hspares _ (hr r hm)
  · intro names' hn c hc
    apply (getElem?_renameThrough_of_spares fun d hd o ho => ?_).trans hn
    exact (hspares o (ht c hc d hd o ho)).congr hn

def passed (old : String) (s : Scope) : List Nat :=
  if s.declares old then [] else (s.through.filter (·.name == old)).map (·.tag)

theorem adds_foldl {cs : List Scope}
    (h : ∀ c ∈ cs, ∀ names : Names, names.Avoid old new →
      names.Adds new (c.passed old) (renameThrough old new names c)) (ha : names.Avoid old new) :
    names.Adds new (cs.flatMap (passed old)) (cs.foldl (renameThrough old new) names) := by
  induction cs generalizing names with
  | nil => exact .nil names new
  | cons c cs ih =>
    rw [List.forall_mem_cons] at h
    have hc := h.1 names ha
    exact hc.append (ih h.2 (hc.avoid ha))

theorem passed_subset {s : Scope} (h : s.Fresh) (hd : s.declares old = false) :
    s.children.flatMap (passed old) ⊆ (s.through.filter (·.name == old)).map (·.tag) := by
  intro tag ht
  obtain ⟨c, hc, ht⟩ := List.mem_flatMap.mp ht
  rw [passed] at ht
  split at ht
  · cases ht
  obtain ⟨o, ho, rfl⟩ := List.mem_map.mp ht
  obtain ⟨ho, hn⟩ := List.mem_filter.mp ho
  refine List.mem_map_of_mem (List.mem_filter.mpr ⟨(h.through o).mpr ⟨?_, fun _ v hv he => ?_⟩, hn⟩)
  · exact List.mem_append_right _ (List.mem_flatMap.mpr ⟨c, hc, ho⟩)
  · have hdv := h.declares_iff.mpr ⟨v, hv, he.trans (eq_of_beq hn)⟩
    rw [hd] at hdv
    cases hdv

theorem adds_renameThrough {s : Scope} (h : ∀ c ∈ s.scopes, c.Fresh)
    (ha : names.Avoid old new) : names.Adds new (s.passed old) (renameThrough old new names s) := by
  induction s using induction generalizing names with
  | node s ih =>
    rw [renameThrough_eq, passed]
    cases hd : s.declares old with
    | true => exact .nil names new
    | false =>
      have hs := Names.adds_replaceName ha s.through
      have hc := adds_foldl (fun c hc names ha =>
        ih c hc (fun d hd => h d (mem_scopes_of_child hc hd)) ha) (hs.avoid ha)
      exact (hs.append hc).of_subset (passed_subset (h s s.self_mem_scopes) hd)

def reaching (s : Scope) (name : String) : List Occurrence :=
  (s.references.map (·.occurrence) ++
    (s.children.filter fun c => !c.declares name).flatMap (·.through)).filter (·.name == name)

theorem mem_incoming_of_reaching {s : Scope} {name : String} {o : Occurrence}
    (h : o ∈ s.reaching name) : o ∈ s.incoming ∧ o.name = name := by
  obtain ⟨ho, hn⟩ := List.mem_filter.mp h
  refine ⟨List.mem_append.mpr ((List.mem_append.mp ho).imp_right fun ho => ?_), eq_of_beq hn⟩
  obtain ⟨c, hc, ho⟩ := List.mem_flatMap.mp ho
  exact List.mem_flatMap.mpr ⟨c, (List.mem_filter.mp hc).1, ho⟩

theorem map_tag_reaching (s : Scope) (name : String) :
    (s.reaching name).map (·.tag) =
      ((s.references.map (·.occurrence)).filter (·.name == name)).map (·.tag) ++
        s.children.flatMap (passed name) := by
  rw [reaching, List.filter_append, List.map_append]
  congr 1
  induction s.children with
  | nil => rfl
  | cons c cs ih =>
    rw [List.flatMap_cons, passed]
    cases hd : c.declares name with
    | true => rw [List.filter_cons_of_neg (by simp [hd]), ih]; rfl
    | false =>
      rw [List.filter_cons_of_pos (by simp [hd]), List.flatMap_cons, List.filter_append,
        List.map_append, ih]
      rfl

theorem getElem?_renamedNames_of_avoid {s : Scope} {v : Variable}
    (h : ∀ c ∈ s.children, ∀ d ∈ c.scopes, d.Fresh) (ha : (names.setAll v.tags new).Avoid v.name new)
    (tag : Nat) : (renamedNames s v new names)[tag]? =
      if tag ∈ v.tags ∨ tag ∈ (s.reaching v.name).map (·.tag) ∧ names[tag]? = none then some new
      else names[tag]? := by
  have hset := names.getElem?_setAll v.tags new
  have hrefs := Names.adds_replaceName ha (s.references.map (·.occurrence))
  have hall := hrefs.append (adds_foldl (fun c hc names ha => adds_renameThrough (h c hc) ha)
    (hrefs.avoid ha)) tag
  rw [← map_tag_reaching, hset] at hall
  rw [renamedNames, renameChildren_eq]
  refine hall.trans ?_
  by_cases htag : tag ∈ v.tags
  · simp [htag]
  · simp [htag]

theorem getElem?_renamedNames {s : Scope} {v : Variable}
    (h : ∀ c ∈ s.children, ∀ d ∈ c.scopes, d.Fresh) (ha : names.Avoid v.name new) (tag : Nat) :
    (renamedNames s v new names)[tag]? =
      if tag ∈ v.tags ∨ tag ∈ (s.reaching v.name).map (·.tag) ∧ names[tag]? = none then some new
      else names[tag]? :=
  getElem?_renamedNames_of_avoid h (ha.setAll v.tags) tag

end Scope

end Legible
