import Legible.Proofs.Scope.Analysis

namespace Legible

def Variable.newName (names : Names) (v : Variable) : String :=
  match v.identifiers with
  | tag :: _ => names.current ⟨tag, v.name⟩
  | [] => v.name

theorem Variable.newName_eq {names : Names} {v : Variable} {name : String}
    (h : ∀ tag ∈ v.identifiers, names.current ⟨tag, v.name⟩ = name)
    (hnil : v.identifiers = [] → v.name = name) : v.newName names = name := by
  unfold newName
  cases hi : v.identifiers with
  | nil => exact hnil hi
  | cons tag tags => exact h tag (hi ▸ List.mem_cons_self)

def Variable.renamed (names : Names) (v : Variable) : Variable :=
  { v with name := v.newName names }

def Reference.renamed (names : Names) (r : Reference) : Reference :=
  { r with occurrence := r.occurrence.renamed names }

namespace Scope

variable (names : Names)

mutual

def renamed : Scope → Scope
  | ⟨kind, block, dynamic, registered, declared, _, references, through, children⟩ =>
    ⟨kind, block, dynamic, registered, declared.map (·.renamed names),
      tableOf (declared.map (·.renamed names)), references.map (·.renamed names),
      through.map (·.renamed names), renamedChildren children⟩
termination_by structural s => s

def renamedChildren : List Scope → List Scope
  | [] => []
  | c :: cs => renamed c :: renamedChildren cs
termination_by structural cs => cs

end

theorem renamed_eq (s : Scope) : s.renamed names =
    { s with
      declared := s.declared.map (·.renamed names)
      table := tableOf (s.declared.map (·.renamed names))
      references := s.references.map (·.renamed names)
      through := s.through.map (·.renamed names)
      children := s.children.map (renamed names) } := by
  have hcs : ∀ cs, renamedChildren names cs = cs.map (renamed names) := by
    intro cs
    induction cs with
    | nil => rfl
    | cons c cs ih => rw [renamedChildren, List.map_cons, ih]
  cases s
  rw [renamed, hcs]

mutual

def unnamed : Scope → Scope
  | ⟨kind, block, dynamic, registered, declared, table, references, through, children⟩ =>
    ⟨kind, block, dynamic, registered, declared.map fun v => { v with name := "" },
      table.map fun e => ("", e.2),
      references.map fun r => { r with occurrence := ⟨r.occurrence.tag, ""⟩ },
      through.map fun o => ⟨o.tag, ""⟩, unnamedChildren children⟩
termination_by structural s => s

def unnamedChildren : List Scope → List Scope
  | [] => []
  | c :: cs => unnamed c :: unnamedChildren cs
termination_by structural cs => cs

end

theorem unnamed_eq (s : Scope) : s.unnamed =
    { s with
      declared := s.declared.map fun v => { v with name := "" }
      table := s.table.map fun e => ("", e.2)
      references := s.references.map fun r => { r with occurrence := ⟨r.occurrence.tag, ""⟩ }
      through := s.through.map fun o => ⟨o.tag, ""⟩
      children := s.children.map unnamed } := by
  have hcs : ∀ cs, unnamedChildren cs = cs.map unnamed := by
    intro cs
    induction cs with
    | nil => rfl
    | cons c cs ih => rw [unnamedChildren, List.map_cons, ih]
  cases s
  rw [unnamed, hcs]

theorem unnamed_tableOf (vs : List Variable) :
    (tableOf vs).map (fun e => ("", e.2)) = (List.range' 0 vs.length).map fun i => ("", i) := by
  rw [← List.zipIdx_map_snd 0 vs, tableOf, List.map_map, List.map_map]
  rfl

theorem unnamed_renamed {s : Scope} (h : ∀ c ∈ s.scopes, c.Fresh) :
    (s.renamed names).unnamed = s.unnamed := by
  induction s using induction with
  | node s ih =>
    have hc : ∀ c ∈ s.children, (c.renamed names).unnamed = c.unnamed := fun c hc =>
      ih c hc fun d hd => h d (mem_scopes_of_child hc hd)
    rw [unnamed_eq, renamed_eq, unnamed_eq]
    simp only [List.map_map, (h s s.self_mem_scopes).table, unnamed_tableOf, List.length_map]
    congr 1
    exact List.map_congr_left hc

variable {names}

structure KeepsBy (names : Names) (g : String → String) (s : Scope) : Prop where
  arguments : g "arguments" = "arguments"
  own : ∀ v ∈ s.declared, ∀ tag ∈ v.tags, names.current ⟨tag, v.name⟩ = g v.name
  injective : ∀ u ∈ s.declared, ∀ v ∈ s.declared, g u.name = g v.name → u.name = v.name
  through : s.dynamic = false → ∀ o ∈ s.through, ∀ v ∈ s.declared, names.current o ≠ g v.name

def Part.renamed (names : Names) : Part → Part
  | .refer r => .refer (r.renamed names)
  | .child s => .child (s.renamed names)

theorem pending_renamed (parts : List Part) :
    pending (parts.map (·.renamed names)) = (pending parts).map (·.renamed names) := by
  rw [pending, pending, List.flatMap_map, List.map_flatMap]
  refine List.flatMap_congr fun p _ => ?_
  cases p with
  | refer r => rfl
  | child c => exact congrArg Scope.through (renamed_eq names c)

theorem addDeclaration_map {g : String → String} {vs : List Variable} {d e : Declaration}
    (hg : ∀ v ∈ vs, g v.name = g d.name → v.name = d.name)
    (he : e = { d with name := g d.name }) :
    addDeclaration (vs.map fun v => { v with name := g v.name }) e =
      (addDeclaration vs d).map fun v => { v with name := g v.name } := by
  subst he
  have hb : ∀ v ∈ vs, (g v.name == g d.name) = (v.name == d.name) := fun v hv =>
    Bool.eq_iff_iff.mpr (by simpa using ⟨hg v hv, congrArg g⟩)
  have hany : (vs.map fun v => { v with name := g v.name }).any (·.name == g d.name) =
      vs.any (·.name == d.name) := by
    rw [List.any_map, Bool.eq_iff_iff, List.any_eq_true, List.any_eq_true]
    exact exists_congr fun v => and_congr_right fun hv => by rw [Function.comp_apply, hb v hv]
  rw [addDeclaration, addDeclaration, hany]
  split
  · rw [List.map_map, List.map_map]
    refine List.map_congr_left fun v hv => ?_
    simp only [Function.comp_apply, hb v hv]
    split <;> rfl
  · rw [List.map_append, List.map_singleton]

def Part.reference? : Part → Option Reference
  | .refer r => some r
  | .child _ => none

def Part.child? : Part → Option Scope
  | .refer _ => none
  | .child s => some s

theorem assemble_eq (kind : ScopeKind) (block : Block) (dynamic registered : Bool)
    (ds : List Declaration) (parts : List Part) :
    assemble kind block dynamic registered ds parts =
      { kind, block, dynamic, registered
        declared := (assemble kind block dynamic registered ds parts).declared
        table := tableOf (variablesOf ds)
        references := parts.filterMap Part.reference?
        through := (assemble kind block dynamic registered ds parts).through
        children := parts.filterMap Part.child? } := rfl

section

variable {kind : ScopeKind} {block : Block} {dynamic registered : Bool} {ds : List Declaration}
  {parts : List Part} {g : String → String}
  (h : KeepsBy names g (assemble kind block dynamic registered ds parts))
  (hd : ∀ d ∈ ds, d.identifier = none → d.name = "arguments")

include h

theorem KeepsBy.variable {v : Variable} (hv : v ∈ variablesOf ds) {tag : Nat}
    (ht : tag ∈ v.identifiers) : names.current ⟨tag, v.name⟩ = g v.name :=
  h.own (withReferences dynamic (variablesOf ds) (pending parts) v)
    (List.mem_map_of_mem hv) tag (List.mem_append_left _ ht)

theorem KeepsBy.injective_variables {u v : Variable} (hu : u ∈ variablesOf ds)
    (hv : v ∈ variablesOf ds) (hg : g u.name = g v.name) : u.name = v.name :=
  h.injective (withReferences dynamic (variablesOf ds) (pending parts) u) (List.mem_map_of_mem hu)
    (withReferences dynamic (variablesOf ds) (pending parts) v) (List.mem_map_of_mem hv) hg

theorem KeepsBy.taken {v : Variable} (hv : v ∈ variablesOf ds) {o : Occurrence}
    (ho : o ∈ pending parts) (hn : v.name = o.name) (hdyn : dynamic = false) :
    names.current o = g v.name := by
  have hr : o.tag ∈ (withReferences dynamic (variablesOf ds) (pending parts) v).references := by
    refine List.mem_map.mpr ⟨o, List.mem_filter.mpr ⟨ho, ?_⟩, rfl⟩
    rw [Bool.and_eq_true, takes_iff, beq_iff_eq]
    exact ⟨⟨hdyn, v, hv, hn⟩, hn.symm⟩
  have := h.own _ (List.mem_map_of_mem hv) o.tag (List.mem_append_right _ hr)
  rw [← this]
  exact congrArg (fun n => names.current ⟨o.tag, n⟩) hn.symm

include hd

theorem KeepsBy.newName {v : Variable} (hv : v ∈ variablesOf ds) : v.newName names = g v.name := by
  have hid := (declared_variablesOf hd).identified v hv
  refine Variable.newName_eq (fun tag ht => h.variable hv ht) fun hi => ?_
  have hn : v.name = "arguments" := by_contra fun hn => hid hn hi
  rw [hn, h.arguments]

theorem KeepsBy.declaration {d : Declaration} (hm : d ∈ ds) : (d.renamed names).name = g d.name := by
  cases hi : d.identifier with
  | none =>
    rw [Declaration.renamed, hi, hd d hm hi]
    exact h.arguments.symm
  | some tag =>
    rw [Declaration.renamed, hi]
    have ho : ⟨tag, d.name⟩ ∈ (variablesOf ds).flatMap Variable.owned := by
      refine (perm_variablesOf ds).mem_iff.mpr (List.mem_flatMap.mpr ⟨d, hm, ?_⟩)
      rw [Declaration.occurrences, hi]
      exact List.mem_singleton_self _
    obtain ⟨v, hv, ho⟩ := List.mem_flatMap.mp ho
    obtain ⟨tag', ht, he⟩ := List.mem_map.mp ho
    obtain ⟨rfl, hn⟩ := Occurrence.mk.inj he
    rw [Variable.tags, ((declared_variablesOf hd).fresh v hv).1, List.append_nil] at ht
    rw [← hn]
    exact h.variable hv ht

theorem variablesOf_renamed :
    variablesOf (ds.map (·.renamed names)) = (variablesOf ds).map (·.renamed names) := by
  have hinj : ∀ m ∈ ds.map (·.name), ∀ n ∈ ds.map (·.name), g m = g n → m = n := by
    intro m hm n hn hg
    obtain ⟨u, hu, rfl⟩ := List.mem_map.mp (mem_names_variablesOf.mpr hm)
    obtain ⟨v, hv, rfl⟩ := List.mem_map.mp (mem_names_variablesOf.mpr hn)
    exact h.injective_variables hu hv hg
  have hds : ds.map (·.renamed names) = ds.map fun d => { d with name := g d.name } :=
    List.map_congr_left fun d hm => by rw [← h.declaration hd hm]; rfl
  have hfold : ∀ es : List Declaration, (∀ e ∈ es, e ∈ ds) → ∀ vs : List Variable,
      (∀ v ∈ vs, v.name ∈ ds.map (·.name)) →
      (es.map fun d => { d with name := g d.name }).foldl addDeclaration
          (vs.map fun v => { v with name := g v.name }) =
        (es.foldl addDeclaration vs).map fun v => { v with name := g v.name } := by
    intro es
    induction es with
    | nil => exact fun _ _ _ => rfl
    | cons e es ih =>
      intro hes vs hvs
      rw [List.forall_mem_cons] at hes
      have he : e.name ∈ ds.map (·.name) := List.mem_map_of_mem hes.1
      rw [List.map_cons, List.foldl_cons, List.foldl_cons,
        addDeclaration_map (fun v hv => hinj _ (hvs v hv) _ he) rfl]
      refine ih hes.2 _ fun v hv => ?_
      have hn := List.mem_map_of_mem (f := (·.name)) hv
      rw [names_addDeclaration] at hn
      split at hn
      · obtain ⟨u, hu, hn⟩ := List.mem_map.mp hn
        exact hn ▸ hvs u hu
      · rcases List.mem_append.mp hn with hn | hn
        · obtain ⟨u, hu, hn⟩ := List.mem_map.mp hn
          exact hn ▸ hvs u hu
        · exact List.mem_singleton.mp hn ▸ he
  have hvs := hfold ds (fun _ => id) [] nofun
  rw [hds, variablesOf, ← List.map_nil, hvs]
  exact List.map_congr_left fun v hv => by rw [Variable.renamed, h.newName hd hv]

theorem takes_renamed {o : Occurrence} (ho : o ∈ pending parts) :
    takes dynamic (variablesOf (ds.map (·.renamed names))) (o.renamed names) =
      takes dynamic (variablesOf ds) o := by
  rw [Bool.eq_iff_iff, takes_iff, takes_iff, variablesOf_renamed h hd]
  refine and_congr_right fun hdyn => ⟨fun ⟨u, hu, hn⟩ => ?_, fun ⟨v, hv, hn⟩ => ?_⟩
  · obtain ⟨v, hv, rfl⟩ := List.mem_map.mp hu
    by_contra hno
    have hthrough : o ∈ (assemble kind block dynamic registered ds parts).through := by
      rw [through_assemble, List.mem_filter, Bool.not_eq_true', ← Bool.not_eq_true, takes_iff]
      exact ⟨ho, fun ht => hno ht.2⟩
    refine h.through hdyn o hthrough _ (List.mem_map_of_mem hv) ?_
    exact hn.symm.trans (h.newName hd hv)
  · refine ⟨v.renamed names, List.mem_map_of_mem hv, ?_⟩
    exact (h.newName hd hv).trans (h.taken hv ho hn hdyn).symm

theorem renamed_assemble :
    assemble kind block dynamic registered (ds.map (·.renamed names)) (parts.map (·.renamed names)) =
      (assemble kind block dynamic registered ds parts).renamed names := by
  have hvs := variablesOf_renamed h hd
  have hdeclared :
      (assemble kind block dynamic registered (ds.map (·.renamed names))
        (parts.map (·.renamed names))).declared =
      (assemble kind block dynamic registered ds parts).declared.map (·.renamed names) := by
    rw [declared_assemble, declared_assemble, pending_renamed, hvs, List.map_map, List.map_map]
    refine List.map_congr_left fun v hv => ?_
    have hrefs : (((pending parts).map (·.renamed names)).filter fun o =>
          takes dynamic ((variablesOf ds).map (·.renamed names)) o &&
            o.name == v.newName names).map (·.tag) =
        ((pending parts).filter fun o =>
          takes dynamic (variablesOf ds) o && o.name == v.name).map (·.tag) := by
      rw [List.filter_map, List.map_map]
      refine congrArg (List.map _) (List.filter_congr fun o ho => ?_)
      rw [Function.comp_apply, ← hvs, takes_renamed h hd ho]
      refine Bool.eq_iff_iff.mpr ?_
      rw [Bool.and_eq_true, Bool.and_eq_true, takes_iff, beq_iff_eq, beq_iff_eq, h.newName hd hv]
      refine and_congr_right fun ⟨hdyn, u, hu, hn⟩ => ?_
      have ho : (o.renamed names).name = g u.name := h.taken hu ho hn hdyn
      rw [ho, ← hn]
      exact ⟨h.injective_variables hu hv, congrArg g⟩
    exact congrArg (fun rs => { v with name := v.newName names, references := rs }) hrefs
  have hthrough :
      (assemble kind block dynamic registered (ds.map (·.renamed names))
        (parts.map (·.renamed names))).through =
      (assemble kind block dynamic registered ds parts).through.map (·.renamed names) := by
    rw [through_assemble, through_assemble, pending_renamed, List.filter_map]
    refine congrArg (List.map _) (List.filter_congr fun o ho => ?_)
    rw [Function.comp_apply, takes_renamed h hd ho]
  have htable : tableOf (variablesOf (ds.map (·.renamed names))) =
      tableOf ((assemble kind block dynamic registered ds parts).declared.map (·.renamed names)) := by
    rw [← hdeclared, declared_assemble, tableOf, tableOf, List.zipIdx_map, List.map_map]
    rfl
  have hreferences : (parts.map (·.renamed names)).filterMap Part.reference? =
      (parts.filterMap Part.reference?).map (·.renamed names) := by
    rw [List.filterMap_map, List.map_filterMap]
    refine List.filterMap_congr fun p _ => ?_
    cases p <;> rfl
  have hchildren : (parts.map (·.renamed names)).filterMap Part.child? =
      (parts.filterMap Part.child?).map (renamed names) := by
    rw [List.filterMap_map, List.map_filterMap]
    refine List.filterMap_congr fun p _ => ?_
    cases p <;> rfl
  rw [renamed_eq, assemble_eq, hdeclared, hthrough, htable, hreferences, hchildren]
  rfl

end

/-! ### Scopes inside scopes -/

theorem resolve_cons (f : Frame) (env : List Frame) (name : String) :
    resolve (f :: env) name =
      if (!f.dynamic && f.names.contains name) = true then some 0
      else (resolve env name).map (· + 1) := by
  rw [resolve, List.findIdx?_cons]
  rfl

theorem frame_takes (ds : List Declaration) (dynamic : Bool) (o : Occurrence) :
    (!dynamic && (ds.map (·.name)).contains o.name) = takes dynamic (variablesOf ds) o := by
  refine Bool.eq_iff_iff.mpr ?_
  rw [takes_iff, Bool.and_eq_true, Bool.not_eq_true', List.contains_iff_mem,
    ← mem_names_variablesOf, List.mem_map]

def Keeps (names : Names) (s : Scope) : Prop :=
  ∃ g, KeepsBy names g s

theorem keeps_of_newName {c : Scope} (hc : c.Fresh)
    (arguments : ∀ v ∈ c.declared, v.name = "arguments" → v.newName names = "arguments")
    (own : ∀ v ∈ c.declared, ∀ tag ∈ v.tags, names.current ⟨tag, v.name⟩ = v.newName names)
    (injective : ∀ u ∈ c.declared, ∀ v ∈ c.declared, u.newName names = v.newName names →
      u.name = v.name)
    (through : c.dynamic = false → ∀ o ∈ c.through, ∀ v ∈ c.declared,
      names.current o ≠ v.newName names) : c.Keeps names := by
  classical
  let g (n : String) : String :=
    if h : ∃ v ∈ c.declared, v.name = n then h.choose.newName names else n
  have hg : ∀ v ∈ c.declared, g v.name = v.newName names := by
    intro v hv
    have h : ∃ u ∈ c.declared, u.name = v.name := ⟨v, hv, rfl⟩
    have hu : h.choose = v :=
      List.inj_on_of_nodup_map hc.nodup h.choose_spec.1 hv h.choose_spec.2
    simp only [g, dif_pos h, hu]
  refine ⟨g, ?_, fun v hv tag ht => ?_, fun u hu v hv he => ?_, fun hd o ho v hv => ?_⟩
  · by_cases h : ∃ v ∈ c.declared, v.name = "arguments"
    · obtain ⟨v, hv, hn⟩ := h
      rw [← hn, hg v hv, arguments v hv hn, hn]
    · exact dif_neg h
  · rw [own v hv tag ht, hg v hv]
  · rw [hg u hu, hg v hv] at he
    exact injective u hu v hv he
  · rw [hg v hv]
    exact through hd o ho v hv

def KeepsItem (names : Names) (i : Item) : Prop :=
  ∀ env env' : List Frame, (∀ p ∈ partsOf env i, ∀ c ∈ p.scopes, c.Keeps names) →
    (∀ o ∈ pending (partsOf env i), resolve env' (names.current o) = resolve env o.name) →
      partsOf env' (i.renamed names) = (partsOf env i).map (·.renamed names)

theorem renamed_made {kind : ScopeKind} {block : Block} {dynamic registered : Bool}
    {env env' : List Frame} {is : List Item} (his : NamesArguments is)
    (hi : ∀ i ∈ is, KeepsItem names i)
    (hc : ∀ c ∈ (made kind block dynamic registered env is).scopes, c.Keeps names)
    (ho : ∀ o ∈ (made kind block dynamic registered env is).through,
      resolve env' (names.current o) = resolve env o.name) :
    made kind block dynamic registered env' (is.map (Item.renamed names)) =
      (made kind block dynamic registered env is).renamed names := by
  rw [scopes_made, List.forall_mem_cons] at hc
  obtain ⟨⟨g, hg⟩, hc⟩ := hc
  have hds : (is.map (Item.renamed names)).flatMap (Item.declared kind.receives) =
      (is.flatMap (Item.declared kind.receives)).map (·.renamed names) := by
    rw [List.flatMap_map, List.map_flatMap]
    exact List.flatMap_congr fun i _ => Item.declared_renamed names _ i
  have hparts : partsIn kind dynamic env' (is.map (Item.renamed names)) =
      (partsIn kind dynamic env is).map (·.renamed names) := by
    let ds := is.flatMap (Item.declared kind.receives)
    have hmap : (partsIn kind dynamic env is).map (·.renamed names) =
        is.flatMap fun i => (partsOf (⟨ds.map (·.name), dynamic⟩ :: env) i).map (·.renamed names) :=
      List.map_flatMap
    rw [hmap, partsIn, hds, List.flatMap_map]
    refine List.flatMap_congr fun i hm => hi i hm _ _ (fun p hp c hcp => ?_) fun o hop => ?_
    · exact hc c (List.mem_flatMap.mpr ⟨p, List.mem_flatMap.mpr ⟨i, hm, hp⟩, hcp⟩)
    · obtain ⟨p, hp, hop⟩ := List.mem_flatMap.mp hop
      have hop : o ∈ pending (partsIn kind dynamic env is) :=
        List.mem_flatMap.mpr ⟨p, List.mem_flatMap.mpr ⟨i, hm, hp⟩, hop⟩
      have htakes := takes_renamed hg his.declared hop
      have hframe : (!dynamic && ((ds.map (·.renamed names)).map (·.name)).contains
          (names.current o)) = takes dynamic (variablesOf ds) o :=
        (frame_takes _ _ (o.renamed names)).trans htakes
      rw [resolve_cons, resolve_cons, frame_takes, hframe]
      split
      · rfl
      · rename_i hno
        have hthrough : o ∈ (made kind block dynamic registered env is).through := by
          rw [made, through_assemble, List.mem_filter, Bool.not_eq_true', ← Bool.not_eq_true]
          exact ⟨hop, hno⟩
        rw [ho o hthrough]
  rw [made, hds, hparts]
  exact renamed_assemble hg his.declared

theorem keepsItem {i : Item} (h : NamesArguments [i]) : KeepsItem names i := by
  induction i with
  | declare kind hoisted name id => exact fun _ _ _ _ => rfl
  | refer o =>
    intro env env' _ ho
    have ho := ho o (List.mem_singleton_self o)
    rw [Item.renamed, partsOf, partsOf, List.map_singleton, Part.renamed, Reference.renamed,
      Occurrence.renamed, ho]
  | scope kind block dynamic is ih =>
    intro env env' hc ho
    have his := h.of_scope
    rw [partsOf_scope, List.forall_mem_singleton] at hc
    rw [partsOf_scope] at ho ⊢
    rw [Item.renamed_scope, partsOf_scope, List.map_singleton, Part.renamed]
    refine congrArg (fun s => [Part.child s]) (renamed_made his (fun i hi => ?_) hc fun o hm => ?_)
    · exact ih i hi (List.forall_mem_singleton.mpr (his i hi))
    · exact ho o (List.mem_flatMap.mpr ⟨_, List.mem_singleton_self _, hm⟩)

theorem ofTree_apply {t : Tree} (hn : names.Suits t)
    (h : ∀ c ∈ (ofTree t).scopes, c.Keeps names) :
    ofTree (names.apply t) = (ofTree t).renamed names := by
  obtain ⟨kind, block, dynamic, is, -, his, -, ht, ha⟩ := exists_made t
  rw [ht] at h
  rw [ha names hn, ht]
  exact renamed_made his (fun i hi => keepsItem (List.forall_mem_singleton.mpr (his i hi))) h
    fun _ _ => rfl

theorem exists_of_mem_mentioned {t : Tree} (hn : names.Suits t) {o' : Occurrence}
    (ho : o' ∈ mentioned (names.apply t)) : ∃ o ∈ mentioned t, o' = o.renamed names := by
  have hm := (perm_mentioned _).mem_iff.mp ho
  rw [Item.ofTree_eq_ofLooked, Item.ofLooked_apply hn, ← Item.ofTree_eq_ofLooked] at hm
  obtain ⟨i', hi', hm⟩ := List.mem_flatMap.mp hm
  obtain ⟨i, hi, rfl⟩ := List.mem_map.mp hi'
  rw [Item.occurrences_renamed] at hm
  obtain ⟨o, hoi, rfl⟩ := List.mem_map.mp hm
  exact ⟨o, (perm_mentioned t).mem_iff.mpr (List.mem_flatMap.mpr ⟨i, hi, hoi⟩), rfl⟩

theorem suits_of_identifiers {t : Tree} (ht : t.Numbered)
    (h : ∀ tag : Nat, names[tag]? ≠ none → ∃ o ∈ t.identifiers, o.tag = tag) : names.Suits t := by
  refine ⟨by_contra fun h0 => ?_, fun x hx hk => by_contra fun hne => ?_⟩
  · obtain ⟨o, ho, h0⟩ := h 0 h0
    exact ht.zero (h0 ▸ Tree.tag_mem_of_mem_identifiers ho)
  · obtain ⟨o, ho, hox⟩ := h x.1 hne
    exact hk (ht.kind_eq ho hx hox.symm)

theorem scopes_renamed (s : Scope) : (s.renamed names).scopes = s.scopes.map (renamed names) := by
  induction s using induction with
  | node s ih =>
    have hchildren : (s.renamed names).children = s.children.map (renamed names) := by
      rw [renamed_eq]
    rw [scopes_eq, hchildren, scopes_eq, List.map_cons, List.flatMap_map, List.map_flatMap]
    exact congrArg _ (List.flatMap_congr ih)

theorem scopes_unnamed (s : Scope) : s.unnamed.scopes = s.scopes.map unnamed := by
  induction s using induction with
  | node s ih =>
    have hchildren : s.unnamed.children = s.children.map unnamed := by rw [unnamed_eq]
    rw [scopes_eq, hchildren, scopes_eq, List.map_cons, List.flatMap_map, List.map_flatMap]
    exact congrArg _ (List.flatMap_congr ih)

theorem exists_of_unnamed_eq {root root' : Scope} (h : root'.unnamed = root.unnamed) {c : Scope}
    (hc : c ∈ root.scopes) : ∃ c' ∈ root'.scopes, c'.dynamic = c.dynamic ∧
      c'.through.map (·.tag) = c.through.map (·.tag) ∧
      ∀ v ∈ c.declared, ∃ v' ∈ c'.declared,
        v'.identifiers = v.identifiers ∧ v'.references = v.references := by
  have hm : c.unnamed ∈ root'.scopes.map unnamed := by
    rw [← scopes_unnamed, h, scopes_unnamed]
    exact List.mem_map_of_mem hc
  obtain ⟨c', hc', he⟩ := List.mem_map.mp hm
  rw [unnamed_eq, unnamed_eq, Scope.mk.injEq] at he
  obtain ⟨-, -, hdynamic, -, hdeclared, -, -, hthrough, -⟩ := he
  refine ⟨c', hc', hdynamic, ?_, fun v hv => ?_⟩
  · have := congrArg (List.map (·.tag)) hthrough
    rwa [List.map_map, List.map_map] at this
  · have hm := List.mem_map_of_mem (f := fun v => { v with name := "" }) hv
    rw [← hdeclared] at hm
    obtain ⟨v', hv', he⟩ := List.mem_map.mp hm
    obtain ⟨-, -, hi, hr, -⟩ := Variable.mk.inj he
    exact ⟨v', hv', hi, hr⟩

end Scope

end Legible
