import Legible.Proofs.Scope.Assembly

namespace Legible

namespace Scope

@[elab_as_elim]
theorem induction {motive : Scope → Prop}
    (node : ∀ s : Scope, (∀ c ∈ s.children, motive c) → motive s) (s : Scope) : motive s :=
  node s fun c _ => induction node c
termination_by sizeOf s
decreasing_by
  rename_i h
  have := List.sizeOf_lt_of_mem h
  cases s
  simp only [Scope.mk.sizeOf_spec]
  simp only at this
  omega

mutual

def scopes : Scope → List Scope
  | ⟨kind, block, dynamic, registered, declared, table, references, through, children⟩ =>
    ⟨kind, block, dynamic, registered, declared, table, references, through, children⟩ ::
      scopesOf children
termination_by structural s => s

def scopesOf : List Scope → List Scope
  | [] => []
  | c :: cs => scopes c ++ scopesOf cs
termination_by structural cs => cs

end

theorem scopes_eq (s : Scope) : s.scopes = s :: s.children.flatMap scopes := by
  cases s with
  | mk kind block dynamic registered declared table references through children =>
    rw [scopes]
    congr 1
    induction children with
    | nil => rfl
    | cons c cs ih => rw [scopesOf, List.flatMap_cons, ih]

theorem self_mem_scopes (s : Scope) : s ∈ s.scopes := by
  rw [scopes_eq]
  exact List.mem_cons_self

theorem mem_scopes_of_child {s c d : Scope} (hc : c ∈ s.children) (hd : d ∈ c.scopes) :
    d ∈ s.scopes := by
  rw [scopes_eq]
  exact List.mem_cons_of_mem _ (List.mem_flatMap.mpr ⟨c, hc, hd⟩)

theorem map_tag_owned (v : Variable) : v.owned.map (·.tag) = v.tags := by
  rw [Variable.owned, List.map_map]
  exact List.map_id _

theorem mem_scopes_trans {root s c : Scope} (hs : s ∈ root.scopes) (hc : c ∈ s.scopes) :
    c ∈ root.scopes := by
  induction root using induction with
  | node root ih =>
    rw [scopes_eq, List.mem_cons, List.mem_flatMap] at hs
    rcases hs with rfl | ⟨d, hd, hs⟩
    · exact hc
    · exact mem_scopes_of_child hd (ih d hd hs)

def owned (s : Scope) : List Occurrence :=
  s.declared.flatMap Variable.owned

theorem Fresh.incoming_cases {s : Scope} (h : s.Fresh) {o : Occurrence} (ho : o ∈ s.incoming) :
    (∃ v ∈ s.declared, v.name = o.name ∧ o.tag ∈ v.references) ∨ o ∈ s.through := by
  by_cases hv : s.dynamic = false ∧ ∃ v ∈ s.declared, v.name = o.name
  · obtain ⟨hd, v, hv, hn⟩ := hv
    exact Or.inl ⟨v, hv, hn, (h.references v hv o.tag).mpr ⟨hd, o, ho, hn.symm, rfl⟩⟩
  · exact Or.inr ((h.through o).mpr ⟨ho, fun hd v hm hn => hv ⟨hd, v, hm, hn⟩⟩)

theorem incoming_cases {root : Scope} (h : ∀ c ∈ root.scopes, c.Fresh) {c : Scope}
    (hc : c ∈ root.scopes) {o : Occurrence} (ho : o ∈ c.incoming) :
    (∃ d ∈ root.scopes, ∃ v ∈ d.declared, v.name = o.name ∧ o.tag ∈ v.references) ∨
      o ∈ root.through := by
  induction root using induction with
  | node s ih =>
    have hroot : ∀ o ∈ s.incoming, (∃ d ∈ s.scopes, ∃ v ∈ d.declared,
        v.name = o.name ∧ o.tag ∈ v.references) ∨ o ∈ s.through := fun o ho =>
      ((h s s.self_mem_scopes).incoming_cases ho).imp_left fun hv => ⟨s, s.self_mem_scopes, hv⟩
    rw [scopes_eq, List.mem_cons, List.mem_flatMap] at hc
    rcases hc with rfl | ⟨d, hd, hc⟩
    · exact hroot o ho
    · rcases ih d hd (fun c hc => h c (mem_scopes_of_child hd hc)) hc with ⟨e, he, hv⟩ | ho
      · exact Or.inl ⟨e, mem_scopes_of_child hd he, hv⟩
      · exact hroot o (List.mem_append_right _ (List.mem_flatMap.mpr ⟨d, hd, ho⟩))

/-! ### Items and their scopes -/

def partsIn (kind : ScopeKind) (dynamic : Bool) (env : List Frame) (is : List Item) : List Part :=
  is.flatMap (partsOf (⟨(is.flatMap (Item.declared kind.receives)).map (·.name), dynamic⟩ :: env))

def made (kind : ScopeKind) (block : Block) (dynamic registered : Bool) (env : List Frame)
    (is : List Item) : Scope :=
  assemble kind block dynamic registered (is.flatMap (Item.declared kind.receives))
    (partsIn kind dynamic env is)

theorem partsOfItems_eq (env : List Frame) (is : List Item) :
    partsOfItems env is = is.flatMap (partsOf env) := by
  induction is with
  | nil => rfl
  | cons i is ih => rw [partsOfItems, List.flatMap_cons, ih]

theorem partsOf_scope (env : List Frame) (kind : ScopeKind) (block : Block) (dynamic : Bool)
    (is : List Item) :
    partsOf env (.scope kind block dynamic is) = [.child (made kind block dynamic true env is)] := by
  rw [partsOf, partsOfItems_eq]
  rfl

def Part.scopes : Part → List Scope
  | .refer _ => []
  | .child s => s.scopes

theorem scopes_made (kind : ScopeKind) (block : Block) (dynamic registered : Bool)
    (env : List Frame) (is : List Item) :
    (made kind block dynamic registered env is).scopes =
      made kind block dynamic registered env is ::
        (partsIn kind dynamic env is).flatMap Part.scopes := by
  rw [scopes_eq]
  congr 1
  rw [made, assemble]
  induction partsIn kind dynamic env is with
  | nil => rfl
  | cons p parts ih =>
    cases p with
    | refer r => exact ih
    | child c => exact congrArg (c.scopes ++ ·) ih

def NamesArguments (is : List Item) : Prop :=
  ∀ i ∈ is, ∀ m ∈ i.mentions, m.1 = none → m.2 = "arguments"

variable {kind : ScopeKind} {block : Block} {dynamic registered : Bool} {env : List Frame}
  {is : List Item}

theorem NamesArguments.of_scope (h : NamesArguments [.scope kind block dynamic is]) :
    NamesArguments is := by
  rw [NamesArguments, List.forall_mem_singleton, Item.mentions_scope] at h
  exact fun i hi m hm => h m (List.mem_flatMap.mpr ⟨i, hi, hm⟩)

theorem NamesArguments.declared (h : NamesArguments is) {receives : Bool} :
    ∀ d ∈ is.flatMap (Item.declared receives), d.identifier = none → d.name = "arguments" := by
  intro d hd hn
  obtain ⟨i, hi, hd⟩ := List.mem_flatMap.mp hd
  exact h i hi _ (Item.mem_mentions_of_declared hd) hn

theorem fresh_partsOf {i : Item} (h : NamesArguments [i]) :
    ∀ p ∈ partsOf env i, ∀ c ∈ p.scopes, c.Fresh := by
  induction i generalizing env with
  | declare kind hoisted name id => exact nofun
  | refer o => simp [partsOf, Part.scopes]
  | scope kind block dynamic is ih =>
    have his := h.of_scope
    rw [partsOf_scope, List.forall_mem_singleton, Part.scopes, scopes_made, List.forall_mem_cons]
    refine ⟨fresh_assemble _ _ _ _ _ his.declared, fun c hc => ?_⟩
    obtain ⟨p, hp, hc⟩ := List.mem_flatMap.mp hc
    obtain ⟨i, hi, hp⟩ := List.mem_flatMap.mp hp
    exact ih i hi (List.forall_mem_singleton.mpr (his i hi)) p hp c hc

theorem fresh_made (h : NamesArguments is) :
    ∀ c ∈ (made kind block dynamic registered env is).scopes, c.Fresh := by
  rw [scopes_made, List.forall_mem_cons]
  refine ⟨fresh_assemble _ _ _ _ _ h.declared, fun c hc => ?_⟩
  obtain ⟨p, hp, hc⟩ := List.mem_flatMap.mp hc
  obtain ⟨i, hi, hp⟩ := List.mem_flatMap.mp hp
  exact fresh_partsOf (List.forall_mem_singleton.mpr (h i hi)) p hp c hc

theorem perm_items (h : NamesArguments is)
    (hi : ∀ i ∈ is, ∀ env : List Frame, i.occurrences.Perm
      ((partsOf env i).flatMap (fun p => p.scopes.flatMap owned) ++ pending (partsOf env i) ++
        (Item.declared true i).flatMap Declaration.occurrences)) :
    (is.flatMap Item.occurrences).Perm
      ((made kind block dynamic registered env is).scopes.flatMap owned ++
        (made kind block dynamic registered env is).through ++
        (Item.declared true (.scope kind block dynamic is)).flatMap Declaration.occurrences) := by
  let ds := is.flatMap (Item.declared kind.receives)
  have hs : ((made kind block dynamic registered env is).owned ++
      (made kind block dynamic registered env is).through).Perm
        (ds.flatMap Declaration.occurrences ++ pending (partsIn kind dynamic env is)) :=
    perm_assemble kind block dynamic registered _ h.declared
  have hi : (is.flatMap Item.occurrences).Perm
      ((partsIn kind dynamic env is).flatMap (fun p => p.scopes.flatMap owned) ++
        pending (partsIn kind dynamic env is) ++
        is.flatMap fun i => (Item.declared true i).flatMap Declaration.occurrences) := by
    simp only [partsIn, pending, List.flatMap_assoc]
    refine (List.Perm.flatMap_left is fun i hm =>
      hi i hm (⟨ds.map (·.name), dynamic⟩ :: env)).trans ?_
    exact (List.flatMap_append_perm _ _ _).symm.trans
      ((List.flatMap_append_perm _ _ _).symm.append_right _)
  -- What leaves an item for a receiving scope is declared here or goes on.
  have hd : (is.flatMap fun i => (Item.declared true i).flatMap Declaration.occurrences).Perm
      (ds.flatMap Declaration.occurrences ++
        (Item.hoisted (.scope kind block dynamic is)).flatMap Declaration.occurrences) := by
    rw [Item.hoisted_scope]
    cases hr : kind.receives with
    | true => simp [ds, hr, List.flatMap_assoc]
    | false =>
      simp only [ds, hr, Item.declared_true, List.flatMap_append, List.flatMap_assoc,
        Bool.false_eq_true, if_false]
      exact (List.flatMap_append_perm _ _ _).symm
  rw [scopes_made, List.flatMap_cons, List.flatMap_assoc, Item.declared_scope]
  refine List.perm_iff_count.mpr fun o => ?_
  have hs := hs.count_eq o
  have hi := hi.count_eq o
  have hd := hd.count_eq o
  simp only [List.count_append] at hs hi hd ⊢
  omega

theorem perm_occurrences {i : Item} (h : NamesArguments [i]) (env : List Frame) :
    i.occurrences.Perm ((partsOf env i).flatMap (fun p => p.scopes.flatMap owned) ++
      pending (partsOf env i) ++ (Item.declared true i).flatMap Declaration.occurrences) := by
  induction i generalizing env with
  | declare kind hoisted name id =>
    have hd : Item.declared true (.declare kind hoisted name id) = [⟨name, kind, id⟩] := by
      cases hoisted <;> rfl
    rw [Item.occurrences_declare, hd]
    simp [partsOf, pending, Declaration.occurrences]
  | refer o => exact .refl _
  | scope kind block dynamic is ih =>
    have his := h.of_scope
    rw [Item.occurrences_scope, partsOf_scope, List.flatMap_singleton, Part.scopes, pending,
      List.flatMap_singleton]
    exact perm_items his fun i hi env => ih i hi (List.forall_mem_singleton.mpr (his i hi)) env

/-! ### Trees -/

theorem exists_item_of_program {t : Tree} (h : t.isKind "Program" = true) :
    ∃ kind dynamic is, kind.receives = true ∧ kind ≠ .functionName ∧
      Item.ofTree .visit t = [.scope kind ⟨t.tag, "Program"⟩ dynamic is] := by
  cases t with
  | scalar a => cases h
  | list ts => cases h
  | object tag fs =>
    have htype : Fields.get "type" fs = .text "Program" := by
      have hk : (Fields.get "type" fs).text? = some "Program" := eq_of_beq h
      revert hk
      cases Fields.get "type" fs with
      | scalar a => cases a <;> simp [Tree.text?]
      | list ts => simp [Tree.text?]
      | object tag fs => simp [Tree.text?]
    have hkind : Fields.kind fs = "Program" := by rw [Fields.kind_eq, htype]; rfl
    have hnode : (Tree.object tag fs).isNode = true := by
      rw [Fields.get] at htype
      rw [Tree.isNode, Tree.field?, Tree.fields]
      cases hl : List.lookup "type" fs with
      | none => rw [hl] at htype; cases htype
      | some v => rfl
    rw [Item.ofTree_eq_ofLooked, Item.ofLooked_object, if_pos ⟨by decide, by rw [hnode]; rfl⟩,
      Step.ofView, Step.ofNode]
    simp only [hkind]
    split
    · exact ⟨.module, false, _, rfl, by decide, by
        rw [List.flatMap_singleton, Item.ofStepAt_scope, hkind]; rfl⟩
    · exact ⟨.global, true, _, rfl, by decide, by
        rw [List.flatMap_singleton, Item.ofStepAt_scope, hkind]; rfl⟩

theorem ofTree_program {t : Tree} (h : t.isKind "Program" = true) {kind : ScopeKind} {block : Block}
    {dynamic : Bool} {is : List Item} (hi : Item.ofTree .visit t = [.scope kind block dynamic is]) :
    ofTree t = made kind block dynamic true [] is := by
  rw [ofTree, if_pos h, hi, partsOfItems_eq, List.flatMap_singleton, partsOf_scope]

theorem ofTree_other {t : Tree} (h : t.isKind "Program" = false) :
    ofTree t = made .global ⟨t.tag, t.kind⟩ false false [] (Item.ofTree .visit t) := by
  rw [ofTree, if_neg (by simp [h])]
  simp only [partsOfItems_eq]
  rfl

theorem exists_made (t : Tree) :
    ∃ kind block dynamic is, kind.receives = true ∧ NamesArguments is ∧
      is.flatMap Item.occurrences = (Item.ofTree .visit t).flatMap Item.occurrences ∧
      ofTree t = made kind block dynamic (t.isKind "Program") [] is ∧
      ∀ names : Names, names.Suits t →
        ofTree (names.apply t) =
          made kind block dynamic (t.isKind "Program") [] (is.map (Item.renamed names)) := by
  have himp : NamesArguments (Item.ofTree .visit t) := by
    rw [Item.ofTree_eq_ofLooked]
    exact Item.implicit_ofLooked
  have happly : ∀ names : Names, names.Suits t →
      Item.ofTree .visit (names.apply t) = (Item.ofTree .visit t).map (Item.renamed names) := by
    intro names h
    rw [Item.ofTree_eq_ofLooked, Item.ofLooked_apply h, Item.ofTree_eq_ofLooked]
  cases h : t.isKind "Program" with
  | true =>
    obtain ⟨kind, dynamic, is, hr, -, hi⟩ := exists_item_of_program h
    rw [hi] at himp happly
    refine ⟨kind, _, dynamic, is, hr, himp.of_scope, ?_, ofTree_program h hi, fun names hn => ?_⟩
    · rw [hi, List.flatMap_singleton, Item.occurrences_scope]
    · refine ofTree_program (by rw [Names.isKind_apply, h]) ?_
      rw [happly names hn, List.map_singleton, Item.renamed_scope]
  | false =>
    refine ⟨.global, _, false, _, rfl, himp, rfl, ofTree_other h, fun names hn => ?_⟩
    rw [ofTree_other (by rw [Names.isKind_apply, h]), happly names hn, Names.tag_apply, Tree.kind,
      Tree.kind?, Names.get_apply (by decide), Names.text?_apply]
    rfl

theorem fresh_ofTree (t : Tree) : ∀ c ∈ (ofTree t).scopes, c.Fresh := by
  obtain ⟨kind, block, dynamic, is, -, hi, -, h, -⟩ := exists_made t
  rw [h]
  exact fresh_made hi

theorem kind_of_dynamic {t : Tree} {c : Scope} (hc : c ∈ (ofTree t).scopes)
    (hd : c.dynamic = true) : c.kind = .withBody ∨ c.block.kind = "Program" := by
  have hitems : ∀ i ∈ Item.ofTree .visit t, ∀ env, ∀ p ∈ partsOf env i, ∀ c ∈ p.scopes,
      c.dynamic = true → c.kind = .withBody ∨ c.block.kind = "Program" := by
    rw [Item.ofTree_eq_ofLooked]
    refine Item.forall_ofLooked (fun b t env => ?_) (fun env => nofun)
      fun kind block dynamic is hk ih env => ?_
    · cases b <;> simp [Item.bound, partsOf, Part.scopes]
    · rw [partsOf_scope, List.forall_mem_singleton, Part.scopes, scopes_made, List.forall_mem_cons]
      refine ⟨hk, fun c hc => ?_⟩
      obtain ⟨p, hp, hc⟩ := List.mem_flatMap.mp hc
      obtain ⟨i, hi, hp⟩ := List.mem_flatMap.mp hp
      exact ih i hi _ p hp c hc
  cases h : t.isKind "Program" with
  | true =>
    obtain ⟨kind, dynamic, is, -, -, hi⟩ := exists_item_of_program h
    rw [hi, List.forall_mem_singleton] at hitems
    have hp := hitems []
    rw [partsOf_scope, List.forall_mem_singleton] at hp
    rw [ofTree_program h hi] at hc
    exact hp c hc hd
  | false =>
    rw [ofTree_other h, scopes_made, List.mem_cons] at hc
    rcases hc with rfl | hc
    · cases hd
    · obtain ⟨p, hp, hc⟩ := List.mem_flatMap.mp hc
      obtain ⟨i, hi, hp⟩ := List.mem_flatMap.mp hp
      exact hitems i hi _ p hp c hc hd

def mentioned (t : Tree) : List Occurrence :=
  (ofTree t).scopes.flatMap owned ++ (ofTree t).through

theorem perm_mentioned (t : Tree) :
    (mentioned t).Perm ((Item.ofTree .visit t).flatMap Item.occurrences) := by
  obtain ⟨kind, block, dynamic, is, hr, hi, ho, h, -⟩ := exists_made t
  have hp : (is.flatMap Item.occurrences).Perm
      ((made kind block dynamic (t.isKind "Program") [] is).scopes.flatMap owned ++
        (made kind block dynamic (t.isKind "Program") [] is).through ++
        (Item.declared true (.scope kind block dynamic is)).flatMap Declaration.occurrences) :=
    perm_items hi fun i hm env => perm_occurrences (List.forall_mem_singleton.mpr (hi i hm)) env
  have hnone : Item.declared true (.scope kind block dynamic is) = [] := by
    rw [Item.declared_scope, Item.hoisted_scope, if_pos hr]
  rw [hnone, List.flatMap_nil, List.append_nil, ← h, ho] at hp
  exact hp.symm

theorem mem_mentioned_of_tags {t : Tree} {c : Scope} (hc : c ∈ (ofTree t).scopes) {v : Variable}
    (hv : v ∈ c.declared) {tag : Nat} (h : tag ∈ v.tags) : ⟨tag, v.name⟩ ∈ mentioned t :=
  List.mem_append_left _ (List.mem_flatMap.mpr
    ⟨c, hc, List.mem_flatMap.mpr ⟨v, hv, List.mem_map.mpr ⟨tag, h, rfl⟩⟩⟩)

theorem mem_mentioned_of_incoming {t : Tree} {c : Scope} (hc : c ∈ (ofTree t).scopes)
    {o : Occurrence} (ho : o ∈ c.incoming) : o ∈ mentioned t := by
  rcases incoming_cases (fresh_ofTree t) hc ho with ⟨d, hd, v, hv, hn, hr⟩ | ho
  · have hm := mem_mentioned_of_tags hd hv (List.mem_append_right _ hr)
    rw [hn] at hm
    exact hm
  · exact List.mem_append_right _ ho

theorem subperm_mentioned {t : Tree} (ht : t.Numbered) : (mentioned t).Subperm t.identifiers := by
  refine (perm_mentioned t).subperm.trans ?_
  rw [Item.ofTree_eq_ofLooked]
  exact Item.occurrences_ofLooked ht.distinct ht.fits (fun _ => rfl) (absurd rfl)

theorem eq_of_mem_flatMap {α β : Type} {l : List α} {f : α → List β} (h : (l.flatMap f).Nodup)
    {a b : α} (ha : a ∈ l) (hb : b ∈ l) {x : β} (hx : x ∈ f a) (hx' : x ∈ f b) : a = b := by
  induction l with
  | nil => cases ha
  | cons c l ih =>
    rw [List.flatMap_cons, List.nodup_append] at h
    rcases List.mem_cons.mp ha with rfl | hal <;> rcases List.mem_cons.mp hb with rfl | hbl
    · rfl
    · exact absurd rfl (h.2.2 x hx x (List.mem_flatMap.mpr ⟨b, hbl, hx'⟩))
    · exact absurd rfl (h.2.2 x hx' x (List.mem_flatMap.mpr ⟨a, hal, hx⟩))
    · exact ih h.2.1 hal hbl

section

variable {t : Tree} (ht : t.Numbered) {c d : Scope} (hc : c ∈ (ofTree t).scopes) {u v : Variable}
  (hu : u ∈ c.declared) {tag : Nat}

include ht

theorem nodup_mentioned : ((mentioned t).map (·.tag)).Nodup := by
  obtain ⟨l, hl, hs⟩ := subperm_mentioned ht
  exact (hl.map _).nodup_iff.mp (ht.nodup_identifiers.sublist (hs.map _))

theorem nodup_tags : ((ofTree t).scopes.flatMap fun c => c.declared.flatMap Variable.tags).Nodup := by
  have hn := nodup_mentioned ht
  rw [mentioned, List.map_append] at hn
  have hn := (List.nodup_append.mp hn).1
  simp only [List.map_flatMap, owned, map_tag_owned] at hn
  exact hn

include hc

theorem mem_identifiers_of_incoming {o : Occurrence} (ho : o ∈ c.incoming) : o ∈ t.identifiers :=
  (subperm_mentioned ht).subset (mem_mentioned_of_incoming hc ho)

include hu

theorem mem_identifiers_of_tags (h : tag ∈ u.tags) : ⟨tag, u.name⟩ ∈ t.identifiers :=
  (subperm_mentioned ht).subset (mem_mentioned_of_tags hc hu h)

theorem owner_unique (hd : d ∈ (ofTree t).scopes) (hv : v ∈ d.declared) (h : tag ∈ u.tags)
    (h' : tag ∈ v.tags) : c = d ∧ u = v := by
  have hn := nodup_tags ht
  have hcd : c = d := eq_of_mem_flatMap hn hc hd (List.mem_flatMap.mpr ⟨u, hu, h⟩)
    (List.mem_flatMap.mpr ⟨v, hv, h'⟩)
  subst hcd
  exact ⟨rfl, eq_of_mem_flatMap ((List.nodup_flatMap.mp hn).1 c hc) hu hv h h'⟩

theorem variable_nodup : u.tags.Nodup :=
  (List.nodup_flatMap.mp ((List.nodup_flatMap.mp (nodup_tags ht)).1 c hc)).1 u hu

theorem through_notMem_tags {o : Occurrence} (ho : o ∈ (ofTree t).through) : o.tag ∉ u.tags := by
  intro h
  have hn := nodup_mentioned ht
  rw [mentioned, List.map_append] at hn
  refine (List.nodup_append.mp hn).2.2 o.tag ?_ o.tag (List.mem_map_of_mem ho) rfl
  refine List.mem_map.mpr ⟨⟨o.tag, u.name⟩, List.mem_flatMap.mpr ⟨c, hc, ?_⟩, rfl⟩
  exact List.mem_flatMap.mpr ⟨u, hu, List.mem_map.mpr ⟨o.tag, h, rfl⟩⟩

theorem identifier_not_incoming (h : tag ∈ u.identifiers) (hd : d ∈ (ofTree t).scopes)
    {o : Occurrence} (ho : o ∈ d.incoming) : o.tag ≠ tag := by
  have htag : tag ∈ u.tags := List.mem_append_left _ h
  rintro rfl
  rcases incoming_cases (fresh_ofTree t) hd ho with ⟨e, he, v, hv, -, hr⟩ | ho
  · obtain ⟨-, rfl⟩ := owner_unique ht hc hu he hv htag (List.mem_append_right _ hr)
    exact (List.nodup_append.mp (variable_nodup ht hc hu)).2.2 _ h _ hr rfl
  · exact through_notMem_tags ht hc hu ho htag

end

end Scope

end Legible
