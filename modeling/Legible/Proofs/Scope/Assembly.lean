import Legible.Proofs.Scope.Reading

namespace Legible

def Variable.tags (v : Variable) : List Nat :=
  v.identifiers ++ v.references

def Variable.owned (v : Variable) : List Occurrence :=
  v.tags.map fun tag => ⟨tag, v.name⟩

def Declaration.occurrences (d : Declaration) : List Occurrence :=
  d.identifier.toList.map fun tag => ⟨tag, d.name⟩

namespace Scope

/-! ### Declarations -/

theorem names_addDeclaration (vs : List Variable) (d : Declaration) :
    (addDeclaration vs d).map (·.name) =
      if d.name ∈ vs.map (·.name) then vs.map (·.name) else vs.map (·.name) ++ [d.name] := by
  have hany : vs.any (·.name == d.name) = true ↔ d.name ∈ vs.map (·.name) := by
    simp [List.any_eq_true]
  rw [addDeclaration]
  by_cases h : d.name ∈ vs.map (·.name)
  · rw [if_pos (hany.mpr h), if_pos h, List.map_map]
    refine List.map_congr_left fun v _ => ?_
    simp only [Function.comp_apply]
    split <;> rfl
  · rw [if_neg fun ha => h (hany.mp ha), if_neg h, List.map_append, List.map_singleton]

theorem nodup_addDeclaration {vs : List Variable} (h : (vs.map (·.name)).Nodup) (d : Declaration) :
    ((addDeclaration vs d).map (·.name)).Nodup := by
  rw [names_addDeclaration]
  split
  · exact h
  · rename_i hd
    exact List.nodup_append.mpr ⟨h, List.nodup_singleton _, fun a ha b hb =>
      (List.mem_singleton.mp hb) ▸ ne_of_mem_of_not_mem ha hd⟩

theorem perm_addDeclaration {vs : List Variable} (h : (vs.map (·.name)).Nodup) (d : Declaration) :
    ((addDeclaration vs d).flatMap Variable.owned).Perm
      (vs.flatMap Variable.owned ++ d.occurrences) := by
  rw [addDeclaration]
  split
  · rename_i hd
    obtain ⟨v, hv, hn⟩ := List.any_eq_true.mp hd
    have hn : v.name = d.name := eq_of_beq hn
    obtain ⟨l, r, rfl⟩ := List.append_of_mem hv
    -- Only the variable with the name of the declaration changes.
    have hother : ∀ u ∈ l ++ r, u.name ≠ d.name := by
      rw [List.map_append, List.map_cons] at h
      have h := List.nodup_middle.mp h
      rw [← List.map_append, List.nodup_cons] at h
      exact fun u hu he => h.1 (List.mem_map.mpr ⟨u, hu, he.trans hn.symm⟩)
    have hkeep : ∀ us : List Variable, (∀ u ∈ us, u.name ≠ d.name) →
        us.map (fun v => if v.name == d.name then
          { v with identifiers := v.identifiers ++ d.identifier.toList } else v) = us :=
      fun us hu => (List.map_congr_left fun u hm => if_neg (by simpa using hu u hm)).trans
        (List.map_id us)
    rw [List.forall_mem_append] at hother
    rw [List.map_append, List.map_cons, hkeep l hother.1, hkeep r hother.2, if_pos (by simpa using hn)]
    have hv : (Variable.owned { v with identifiers := v.identifiers ++ d.identifier.toList }).Perm
        (v.owned ++ d.occurrences) := by
      simp only [Variable.owned, Variable.tags, Declaration.occurrences, List.map_append,
        List.append_assoc, hn]
      exact List.perm_append_comm.append_left _
    simp only [List.flatMap_append, List.flatMap_cons, List.append_assoc]
    refine List.Perm.append_left _ ((hv.append_right _).trans ?_)
    rw [List.append_assoc]
    exact List.perm_append_comm.append_left _
  · rw [List.flatMap_append, List.flatMap_singleton]
    simp [Variable.owned, Variable.tags, Declaration.occurrences]

structure Declared (vs : List Variable) : Prop where
  nodup : (vs.map (·.name)).Nodup
  fresh : ∀ v ∈ vs, v.references = [] ∧ v.keepName = false
  identified : ∀ v ∈ vs, v.name ≠ "arguments" → v.identifiers ≠ []

theorem Declared.add {vs : List Variable} (h : Declared vs) {d : Declaration}
    (hd : d.identifier = none → d.name = "arguments") : Declared (addDeclaration vs d) := by
  refine ⟨nodup_addDeclaration h.nodup d, fun v hv => ?_, fun v hv hn => ?_⟩
  all_goals
    rw [addDeclaration] at hv
    split at hv
  · obtain ⟨u, hu, rfl⟩ := List.mem_map.mp hv
    have := h.fresh u hu
    split
    · exact this
    · exact this
  · rcases List.mem_append.mp hv with hv | hv
    · exact h.fresh v hv
    · obtain rfl := List.mem_singleton.mp hv
      exact ⟨rfl, rfl⟩
  · obtain ⟨u, hu, rfl⟩ := List.mem_map.mp hv
    split at hn
    · rename_i he
      simp only [he, if_true]
      exact List.append_ne_nil_of_left_ne_nil (h.identified u hu hn) _
    · rename_i he
      rw [if_neg he]
      exact h.identified u hu hn
  · rcases List.mem_append.mp hv with hv | hv
    · exact h.identified v hv hn
    · obtain rfl := List.mem_singleton.mp hv
      intro he
      exact hn (hd (Option.toList_eq_nil_iff.mp he))

def variablesOf (ds : List Declaration) : List Variable :=
  ds.foldl addDeclaration []

theorem declared_variablesOf {ds : List Declaration}
    (hd : ∀ d ∈ ds, d.identifier = none → d.name = "arguments") : Declared (variablesOf ds) := by
  have hfold : ∀ vs, Declared vs → Declared (ds.foldl addDeclaration vs) := by
    induction ds with
    | nil => exact fun vs hv => hv
    | cons d ds ih =>
      rw [List.forall_mem_cons] at hd
      exact fun vs hv => ih hd.2 _ (hv.add hd.1)
  exact hfold [] ⟨List.nodup_nil, nofun, nofun⟩

theorem perm_variablesOf (ds : List Declaration) :
    ((variablesOf ds).flatMap Variable.owned).Perm (ds.flatMap Declaration.occurrences) := by
  have hfold : ∀ vs : List Variable, (vs.map (·.name)).Nodup →
      ((ds.foldl addDeclaration vs).flatMap Variable.owned).Perm
        (vs.flatMap Variable.owned ++ ds.flatMap Declaration.occurrences) := by
    induction ds with
    | nil => exact fun vs _ => by simp
    | cons d ds ih =>
      intro vs h
      refine (ih _ (nodup_addDeclaration h d)).trans ?_
      rw [List.flatMap_cons, ← List.append_assoc]
      exact (perm_addDeclaration h d).append_right _
  exact hfold [] List.nodup_nil

theorem mem_names_variablesOf {ds : List Declaration} {name : String} :
    name ∈ (variablesOf ds).map (·.name) ↔ name ∈ ds.map (·.name) := by
  have hfold : ∀ vs : List Variable, name ∈ (ds.foldl addDeclaration vs).map (·.name) ↔
      name ∈ vs.map (·.name) ∨ name ∈ ds.map (·.name) := by
    induction ds with
    | nil => simp
    | cons d ds ih =>
      intro vs
      rw [List.foldl_cons, ih, names_addDeclaration, List.map_cons, List.mem_cons]
      split
      · rename_i hd
        exact ⟨fun h => h.imp_right Or.inr, fun h => h.elim Or.inl fun h => h.elim
          (fun h => Or.inl (h ▸ hd)) Or.inr⟩
      · rw [List.mem_append, List.mem_singleton, or_assoc]
  exact (hfold []).trans (or_iff_right List.not_mem_nil)

/-! ### References -/

theorem perm_filter_names (l : List Occurrence) {names : List String} (h : names.Nodup) :
    (names.flatMap fun n => l.filter fun o => o.name == n).Perm
      (l.filter fun o => names.contains o.name) := by
  induction names with
  | nil => simp
  | cons n names ih =>
    rw [List.nodup_cons] at h
    rw [List.flatMap_cons]
    refine ((ih h.2).append_left _).trans ?_
    refine List.Perm.trans ?_ (List.filter_append_perm (·.name == n) _)
    rw [List.filter_filter, List.filter_filter]
    refine .of_eq (congrArg₂ _ (List.filter_congr fun o _ => ?_) (List.filter_congr fun o _ => ?_))
    · by_cases ho : o.name = n <;> simp [ho]
    · by_cases ho : o.name = n
      · simpa [ho] using h.1
      · simp [ho]

def incoming (s : Scope) : List Occurrence :=
  s.references.map (·.occurrence) ++ s.children.flatMap (·.through)

structure Fresh (s : Scope) : Prop where
  nodup : (s.declared.map (·.name)).Nodup
  table : s.table = tableOf s.declared
  unkept : ∀ v ∈ s.declared, v.keepName = false
  identified : ∀ v ∈ s.declared, v.name ≠ "arguments" → v.identifiers ≠ []
  references : ∀ v ∈ s.declared, ∀ tag, tag ∈ v.references ↔
    s.dynamic = false ∧ ∃ o ∈ s.incoming, o.name = v.name ∧ o.tag = tag
  through : ∀ o, o ∈ s.through ↔
    o ∈ s.incoming ∧ (s.dynamic = false → ∀ v ∈ s.declared, v.name ≠ o.name)

def takes (dynamic : Bool) (vs : List Variable) (o : Occurrence) : Bool :=
  !dynamic && vs.any (·.name == o.name)

theorem takes_iff {dynamic : Bool} {vs : List Variable} {o : Occurrence} :
    takes dynamic vs o = true ↔ dynamic = false ∧ ∃ v ∈ vs, v.name = o.name := by
  simp [takes]

def withReferences (dynamic : Bool) (vs : List Variable) (os : List Occurrence) (v : Variable) :
    Variable :=
  { v with references := (os.filter fun o => takes dynamic vs o && o.name == v.name).map (·.tag) }

section

variable (kind : ScopeKind) (block : Block) (dynamic registered : Bool) (ds : List Declaration)
  (parts : List Part)

theorem declared_assemble : (assemble kind block dynamic registered ds parts).declared =
    (variablesOf ds).map (withReferences dynamic (variablesOf ds) (pending parts)) := rfl

theorem through_assemble : (assemble kind block dynamic registered ds parts).through =
    (pending parts).filter fun o => !takes dynamic (variablesOf ds) o := rfl

theorem mem_incoming_assemble {o : Occurrence} :
    o ∈ (assemble kind block dynamic registered ds parts).incoming ↔ o ∈ pending parts := by
  simp only [incoming, assemble, pending, List.mem_append, List.mem_map, List.mem_flatMap,
    List.mem_filterMap]
  constructor
  · rintro (⟨r, ⟨p, hp, hr⟩, rfl⟩ | ⟨c, ⟨p, hp, hc⟩, ho⟩)
    · cases p with
      | refer r' =>
        obtain rfl := Option.some.inj hr
        exact ⟨_, hp, List.mem_singleton_self _⟩
      | child c => cases hr
    · cases p with
      | refer r => cases hc
      | child c' =>
        obtain rfl := Option.some.inj hc
        exact ⟨_, hp, ho⟩
  · rintro ⟨p, hp, ho⟩
    cases p with
    | refer r => exact Or.inl ⟨r, ⟨_, hp, rfl⟩, (List.mem_singleton.mp ho).symm⟩
    | child c => exact Or.inr ⟨c, ⟨_, hp, rfl⟩, ho⟩

variable {ds}

theorem fresh_assemble (hd : ∀ d ∈ ds, d.identifier = none → d.name = "arguments") :
    Fresh (assemble kind block dynamic registered ds parts) := by
  have hv := declared_variablesOf hd
  constructor
  · rw [declared_assemble, List.map_map]
    exact hv.nodup
  · rw [declared_assemble, tableOf, List.zipIdx_map, List.map_map]
    rfl
  · rw [declared_assemble, List.forall_mem_map]
    exact fun v hm => (hv.fresh v hm).2
  · rw [declared_assemble, List.forall_mem_map]
    exact hv.identified
  · rw [declared_assemble, List.forall_mem_map]
    intro v hm tag
    simp only [withReferences, List.mem_map, List.mem_filter, Bool.and_eq_true, takes_iff,
      beq_iff_eq, mem_incoming_assemble]
    exact ⟨fun ⟨o, ⟨ho, hd, hn⟩, ht⟩ => ⟨hd.1, o, ho, hn, ht⟩,
      fun ⟨hd, o, ho, hn, ht⟩ => ⟨o, ⟨ho, ⟨hd, v, hm, hn.symm⟩, hn⟩, ht⟩⟩
  · intro o
    rw [through_assemble, List.mem_filter, mem_incoming_assemble, declared_assemble,
      Bool.not_eq_true', ← Bool.not_eq_true, takes_iff, List.forall_mem_map]
    exact and_congr_right' ⟨fun h hd v hm hn => h ⟨hd, v, hm, hn⟩,
      fun h ⟨hd, v, hm, hn⟩ => h hd v hm hn⟩

theorem perm_assemble (hd : ∀ d ∈ ds, d.identifier = none → d.name = "arguments") :
    ((assemble kind block dynamic registered ds parts).declared.flatMap Variable.owned ++
      (assemble kind block dynamic registered ds parts).through).Perm
        (ds.flatMap Declaration.occurrences ++ pending parts) := by
  have hv := declared_variablesOf hd
  let taken (v : Variable) : List Occurrence :=
    (pending parts).filter fun o => takes dynamic (variablesOf ds) o && o.name == v.name
  have howned : ∀ v ∈ variablesOf ds,
      (withReferences dynamic (variablesOf ds) (pending parts) v).owned = v.owned ++ taken v := by
    intro v hm
    simp only [Variable.owned, Variable.tags, withReferences, (hv.fresh v hm).1, List.map_append,
      List.append_nil, List.map_map, taken]
    congr 1
    refine (List.map_congr_left fun o ho => ?_).trans (List.map_id _)
    simp only [List.mem_filter, Bool.and_eq_true, beq_iff_eq] at ho
    simp only [Function.comp_apply, ← ho.2.2, id_eq]
  have htaken : ((variablesOf ds).flatMap taken).Perm
      ((pending parts).filter (takes dynamic (variablesOf ds))) := by
    have hp := perm_filter_names ((pending parts).filter (takes dynamic (variablesOf ds))) hv.nodup
    have hall : ∀ o ∈ (pending parts).filter (takes dynamic (variablesOf ds)),
        ((variablesOf ds).map (·.name)).contains o.name = true := by
      intro o ho
      obtain ⟨-, v, hm, hn⟩ := takes_iff.mp (List.mem_filter.mp ho).2
      exact List.contains_iff_mem.mpr (List.mem_map.mpr ⟨v, hm, hn⟩)
    rw [List.filter_eq_self.mpr hall, List.flatMap_map] at hp
    refine (List.Perm.of_eq (List.flatMap_congr fun v _ => ?_)).trans hp
    rw [List.filter_filter]
    exact List.filter_congr fun o _ => Bool.and_comm ..
  rw [declared_assemble, through_assemble, List.flatMap_map, List.flatMap_congr howned]
  refine ((List.flatMap_append_perm _ _ _).symm.append_right _).trans ?_
  rw [List.append_assoc]
  refine (perm_variablesOf ds).append ((htaken.append_right _).trans ?_)
  exact List.filter_append_perm _ _

end

end Scope

end Legible
