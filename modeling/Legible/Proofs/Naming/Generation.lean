import Legible.Naming.Generate
import Legible.Proofs.Naming.Source
import Legible.Proofs.Scope.Capture
import Legible.Proofs.Scope.Paths

namespace Legible

def Scope.nameable (s : Scope) : List Variable :=
  if s.block.kind = "Program" then [] else s.declared.filter (·.name != "arguments")

namespace Naming

open Scope

/-! ### Names given in turn -/

def nameGiven? (tag : Nat) (given : List (Variable × String)) : Option String :=
  given.foldl (fun name g => if tag ∈ g.1.tags then some g.2 else name) none

theorem nameGiven?_concat (tag : Nat) (given : List (Variable × String)) (v : Variable)
    (w : String) : nameGiven? tag (given ++ [(v, w)]) =
      if tag ∈ v.tags then some w else nameGiven? tag given := by
  rw [nameGiven?, List.foldl_append]
  rfl

theorem exists_of_nameGiven? {tag : Nat} {given : List (Variable × String)} {w : String}
    (h : nameGiven? tag given = some w) : ∃ v, (v, w) ∈ given ∧ tag ∈ v.tags := by
  induction given using List.reverseRecOn with
  | nil => cases h
  | append_singleton given g ih =>
    obtain ⟨v, w'⟩ := g
    rw [nameGiven?_concat] at h
    split at h
    · rename_i ht
      obtain rfl := Option.some.inj h
      exact ⟨v, List.mem_append_right _ (List.mem_singleton_self _), ht⟩
    · obtain ⟨u, hu, ht⟩ := ih h
      exact ⟨u, List.mem_append_left _ hu, ht⟩

theorem nameGiven?_eq_some_iff {given : List (Variable × String)}
    (hn : (given.flatMap (·.1.tags)).Nodup) {tag : Nat} {w : String} :
    nameGiven? tag given = some w ↔ ∃ v, (v, w) ∈ given ∧ tag ∈ v.tags := by
  refine ⟨exists_of_nameGiven?, fun h => ?_⟩
  obtain ⟨v, hv, ht⟩ := h
  induction given using List.reverseRecOn with
  | nil => cases hv
  | append_singleton given g ih =>
    obtain ⟨v', w'⟩ := g
    rw [List.flatMap_append, List.flatMap_singleton, List.nodup_append] at hn
    rw [nameGiven?_concat]
    rcases List.mem_append.mp hv with hv | hv
    · rw [if_neg fun ht' => hn.2.2 tag (List.mem_flatMap.mpr ⟨_, hv, ht⟩) tag ht' rfl]
      exact ih hn.1 hv
    · obtain ⟨rfl, rfl⟩ := Prod.mk.inj (List.mem_singleton.mp hv)
      exact if_pos ht

/-! ### States -/

def Free (t : Tree) (src : Source) (n : Nat) : Prop :=
  ∀ o ∈ t.identifiers, o.name ∉ (src.take n).1

theorem Free.of_succ {t : Tree} {src : Source} {n : Nat} (h : Free t src (n + 1)) :
    Free t src n := by
  intro o ho hm
  refine h o ho ?_
  rw [Source.take_concat]
  exact List.mem_append_left _ hm

structure Named (t : Tree) (src : Source) (vs : List Variable) (g : Generation) : Prop where
  source : g.source = (src.take vs.length).2
  count : g.count = vs.length
  names : Free t src vs.length →
    ∀ tag : Nat, g.names[tag]? = nameGiven? tag (vs.zip (src.take vs.length).1)
  tables : Free t src vs.length → ∀ p c, g.root.at? p = some c → ∀ e ∈ c.table,
    e.1 ∈ (src.take vs.length).1 ∨ e.1 = "arguments" ∨ ∃ o ∈ t.identifiers, o.name = e.1

theorem uniqueName_eq_self {root : Scope} {p : Path} {name : String} (h : Plain name)
    (hf : ∀ c ∈ root.along p, c.declares name = false) : root.uniqueName p name = name := by
  have htaken : isTaken (root.along p) name = false := by
    rw [isTaken, Bool.or_eq_false_iff, List.any_eq_false]
    refine ⟨Bool.of_not_eq_true fun hm => h.unreserved (List.contains_iff_mem.mp hm), fun c hc => ?_⟩
    rw [hf c hc]
    exact Bool.false_ne_true
  rw [uniqueName, uniqueNameIn, h.stem, htaken]
  rfl

theorem nameVariable_eq {g : Generation} {p : Path} {s : Scope} {i : Nat} {v : Variable}
    (hs : g.root.at? p = some s) (hv : s.declared[i]? = some v) (hk : v.keepName = false)
    (ha : v.name ≠ "arguments") :
    let w := g.root.uniqueName p g.source.next.1
    g.nameVariable p i = ⟨g.root.modifyAt (fun s => renamedScope s i v w) p,
      renamedNames s v w g.names, g.source.next.2, g.count + 1⟩ := by
  intro w
  have hb : (v.keepName || v.name == "arguments") = false := by
    rw [hk, Bool.false_or, beq_eq_false_iff_ne]
    exact ha
  simp only [Generation.nameVariable, hs, Option.bind_some, hv, hb, rename, w]
  rfl

theorem nameVariable_cases (g : Generation) (q : Path) (i : Nat) :
    g.nameVariable q i = g ∨ ∃ d v w, g.root.at? q = some d ∧ d.declared[i]? = some v ∧
      v.keepName = false ∧ v.name ≠ "arguments" ∧
      (g.nameVariable q i).root = g.root.modifyAt (fun s => renamedScope s i v w) q ∧
      (g.nameVariable q i).names = renamedNames d v w g.names := by
  cases hv : (g.root.at? q).bind (·.declared[i]?) with
  | none => exact Or.inl (by simp only [Generation.nameVariable, hv])
  | some v =>
    obtain ⟨d, hd, hvd⟩ := Option.bind_eq_some_iff.mp hv
    cases hb : v.keepName || v.name == "arguments" with
    | true => exact Or.inl (by simp only [Generation.nameVariable, hv, hb, if_true])
    | false =>
      rw [Bool.or_eq_false_iff, beq_eq_false_iff_ne] at hb
      have heq := nameVariable_eq hd hvd hb.1 hb.2
      exact Or.inr ⟨d, v, _, hd, hvd, hb.1, hb.2, congrArg Generation.root heq,
        congrArg Generation.names heq⟩

section

variable {t : Tree} {src : Source} {vs : List Variable} {g : Generation}

theorem Named.uniqueName (h : Named t src vs g) (hsrc : src.Ready)
    (hf : Free t src (vs.length + 1)) (p : Path) :
    g.root.uniqueName p g.source.next.1 = g.source.next.1 := by
  have htake := Source.take_concat vs.length src
  have hnodup := Source.nodup_take hsrc (vs.length + 1)
  rw [h.source]
  rw [htake] at hnodup
  have hm : (src.take vs.length).2.next.1 ∈ (src.take (vs.length + 1)).1 := by
    rw [htake]
    exact List.mem_append_right _ (List.mem_singleton_self _)
  have hplain := Source.plain_of_mem_take hm
  refine uniqueName_eq_self hplain fun c hc => ?_
  obtain ⟨q, hq⟩ := exists_path_of_mem_along hc
  rw [declares, List.any_eq_false]
  intro e he hn
  have hn : e.1 = (src.take vs.length).2.next.1 := eq_of_beq hn
  rcases h.tables hf.of_succ q c hq e he with hw | ha | ⟨o, ho, hon⟩
  · exact (List.nodup_append.mp hnodup).2.2 _ hw _ (List.mem_singleton_self _) hn
  · exact hplain.unreserved (hn ▸ ha ▸ by decide)
  · exact hf o ho (hon.trans hn ▸ hm)

theorem exists_of_mem_table {root : Scope} {p q : Path} {i : Nat} {v : Variable} {w : String}
    {c : Scope} (hc : (root.modifyAt (fun s => renamedScope s i v w) p).at? q = some c)
    {e : String × Nat} (he : e ∈ c.table) :
    e.1 = w ∨ ∃ d, root.at? q = some d ∧ e ∈ d.table := by
  by_cases hqp : q = p
  · subst hqp
    rw [at?_modifyAt_self] at hc
    obtain ⟨d, hd, rfl⟩ := Option.map_eq_some_iff.mp hc
    rcases List.mem_cons.mp he with rfl | he
    · exact Or.inl rfl
    · have he := (List.mem_filter.mp he).1
      refine Or.inr ⟨d, hd, ?_⟩
      split at he
      · exact (List.mem_filter.mp he).1
      · exact he
  · have hm := map_at?_modifyAt (f := fun s => renamedScope s i v w) (fun _ => rfl)
      (φ := Scope.table) (fun _ _ => rfl) root hqp
    rw [hc, Option.map_some] at hm
    obtain ⟨d, hd, hdc⟩ := Option.map_eq_some_iff.mp hm.symm
    exact Or.inr ⟨d, hd, hdc ▸ he⟩

structure Untouched (s : Scope) (is : List Nat) (s' : Scope) : Prop where
  declared : ∀ i ∈ is, s'.declared[i]? = s.declared[i]?
  references : s'.references = s.references
  children : s'.children = s.children

variable (ht : t.Numbered) (hsrc : src.Ready) {s : Scope} (hs : s ∈ (ofTree t).scopes)

include ht hsrc hs

theorem Named.nameVariable (h : Named t src vs g) {p : Path} {s' : Scope} {is : List Nat} {i : Nat}
    (hs' : g.root.at? p = some s') (hu : Untouched s (i :: is) s') {v : Variable}
    (hv : s.declared[i]? = some v) (ha : v.name ≠ "arguments") (hd : s.dynamic = false) :
    Named t src (vs ++ [v]) (g.nameVariable p i) := by
  have hfresh := fresh_ofTree t s hs
  have hvs := List.mem_of_getElem? hv
  have hv' : s'.declared[i]? = some v := (hu.declared i List.mem_cons_self).trans hv
  have hlength : (vs ++ [v]).length = vs.length + 1 := by rw [List.length_append]; rfl
  obtain ⟨tag, htag⟩ := List.exists_mem_of_ne_nil _ (hfresh.identified v hvs ha)
  have hold := mem_identifiers_of_tags ht hs hvs (List.mem_append_left _ htag)
  rw [nameVariable_eq hs' hv' (hfresh.unkept v hvs) ha]
  refine ⟨?_, ?_, fun hf => ?_, fun hf => ?_⟩
  · rw [hlength, Source.take_concat, h.source]
  · rw [hlength, h.count]
  · rw [hlength] at hf ⊢
    have hlen : vs.length = (src.take vs.length).1.length := (Source.length_take _ _).symm
    have hw := h.uniqueName hsrc hf p
    rw [hw]
    rw [Source.take_concat, List.zip_append hlen]
    intro tag
    have havoid : g.names.Avoid v.name g.source.next.1 := by
      intro tag hn
      rw [h.names hf.of_succ] at hn
      obtain ⟨u, hu, -⟩ := exists_of_nameGiven? hn
      exact absurd (List.of_mem_zip hu).2 (hf.of_succ _ hold)
    have heq : renamedNames s' v g.source.next.1 g.names =
        renamedNames s v g.source.next.1 g.names := by
      simp only [renamedNames, hu.references, hu.children]
    have hchildren : ∀ c ∈ s.children, ∀ d ∈ c.scopes, d.Fresh := fun c hc d hd =>
      fresh_ofTree t d (mem_scopes_trans hs (mem_scopes_of_child hc hd))
    rw [heq, getElem?_renamedNames hchildren havoid, List.zip_cons_cons, List.zip_nil_right,
      nameGiven?_concat, h.names hf.of_succ, ← h.source]
    refine if_congr (or_iff_left_of_imp fun hr => ?_) rfl rfl
    exact List.mem_append_right _ ((mem_uses_iff hs hvs hd).mp (List.mem_append_right _ hr.1))
  · rw [hlength] at hf ⊢
    rw [h.uniqueName hsrc hf p, Source.take_concat, ← h.source]
    intro q c hc e he
    rcases exists_of_mem_table hc he with hew | ⟨d, hd, he⟩
    · exact Or.inl (hew ▸ List.mem_append_right _ (List.mem_singleton_self _))
    · exact (h.tables hf.of_succ q d hd e he).imp_left (List.mem_append_left _)

omit ht hsrc hs in
theorem Untouched.renamedScope {s' : Scope} {is : List Nat} {i : Nat} (hu : Untouched s (i :: is) s')
    (hi : i ∉ is) (v : Variable) (w : String) : Untouched s is (renamedScope s' i v w) := by
  refine ⟨fun j hj => ?_, hu.references, hu.children⟩
  rw [← hu.declared j (List.mem_cons_of_mem _ hj)]
  exact List.getElem?_set_ne fun hij => hi (by rwa [hij])

theorem Named.nameVariables (h : Named t src vs g) {p : Path} {s' : Scope} {is : List Nat}
    (his : is.Nodup) (hs' : g.root.at? p = some s') (hu : Untouched s is s')
    (hd : s.declared ≠ [] → s.dynamic = false) :
    Named t src (vs ++ (is.filterMap (s.declared[·]?)).filter (·.name != "arguments"))
      (is.foldl (Generation.nameVariable p) g) := by
  induction is generalizing g vs s' with
  | nil => rwa [List.filterMap_nil, List.filter_nil, List.append_nil]
  | cons i is ih =>
    rw [List.nodup_cons] at his
    have hrest : Untouched s is s' :=
      ⟨fun j hj => hu.declared j (List.mem_cons_of_mem _ hj), hu.references, hu.children⟩
    have hi := hu.declared i List.mem_cons_self
    rw [List.foldl_cons]
    cases hv : s.declared[i]? with
    | none =>
      have hstay : g.nameVariable p i = g := by
        simp only [Generation.nameVariable, hs', Option.bind_some, hi, hv]
      rw [hstay, List.filterMap_cons_none hv]
      exact ih h his.2 hs' hrest
    | some v =>
      rw [List.filterMap_cons_some hv]
      by_cases ha : v.name = "arguments"
      · have hstay : g.nameVariable p i = g := by
          simp only [Generation.nameVariable, hs', Option.bind_some, hi, hv, ha, beq_self_eq_true,
            Bool.or_true, if_true]
        rw [hstay, List.filter_cons_of_neg (by simp [ha])]
        exact ih h his.2 hs' hrest
      · rw [List.filter_cons_of_pos (by simpa using ha), ← List.singleton_append,
          ← List.append_assoc]
        have hvs := List.mem_of_getElem? hv
        have hk := (fresh_ofTree t s hs).unkept v hvs
        have hd := hd (List.ne_nil_of_mem hvs)
        refine ih (h.nameVariable ht hsrc hs hs' hu hv ha hd) his.2 ?_
          (hu.renamedScope his.1 v (g.root.uniqueName p g.source.next.1))
        rw [nameVariable_eq hs' (hi.trans hv) hk ha, at?_modifyAt_self, hs', Option.map_some]

omit ht hsrc hs in
theorem filterMap_range (l : List Variable) : (List.range l.length).filterMap (l[·]?) = l := by
  induction l with
  | nil => rfl
  | cons v l ih =>
    have h0 : (v :: l)[0]? = some v := rfl
    rw [List.length_cons, List.range_succ_eq_map, List.filterMap_cons, h0, List.filterMap_map]
    exact congrArg _ ih

theorem Named.nameScope (h : Named t src vs g) {p : Path} (hp : g.root.at? p = some s)
    (hd : s.block.kind ≠ "Program" → s.declared ≠ [] → s.dynamic = false) :
    Named t src (vs ++ s.nameable) (g.nameScope p) := by
  rw [Generation.nameScope, hp, nameable]
  by_cases hk : s.block.kind = "Program"
  · simp only [if_pos hk, List.append_nil]
    exact h
  · simp only [if_neg hk]
    have hu : Untouched s (List.range s.declared.length) s := ⟨fun _ _ => rfl, rfl, rfl⟩
    have hall := h.nameVariables ht hsrc hs List.nodup_range hp hu (hd hk)
    rwa [filterMap_range] at hall

end

theorem nameScope_eq_self {g : Generation} {p : Path} {s : Scope} (hs : g.root.at? p = some s)
    (h : s.nameable = []) : g.nameScope p = g := by
  rw [Generation.nameScope, hs]
  rw [nameable] at h
  by_cases hk : s.block.kind = "Program"
  · exact if_pos hk
  · rw [if_neg hk, List.filter_eq_nil_iff] at h
    refine (if_neg hk).trans ?_
    induction List.range s.declared.length with
    | nil => rfl
    | cons i is ih =>
      have hstay : g.nameVariable p i = g := by
        rw [Generation.nameVariable, hs, Option.bind_some]
        split
        · rfl
        · rename_i v hv
          have ha : (v.name == "arguments") = true := by
            simpa using h v (List.mem_of_getElem? hv)
          rw [ha, Bool.or_true, if_pos rfl]
      rw [List.foldl_cons, hstay, ih]

theorem at?_nameScope (g : Generation) {p q : Path} (h : ¬ q <+: p) :
    (g.nameScope p).root.at? q = g.root.at? q := by
  have hrename : ∀ (g : Generation) (i : Nat) (w : String),
      (g.root.rename p i w g.names).1.at? q = g.root.at? q := by
    intro g i w
    rw [rename]
    split
    · rfl
    · split
      · rfl
      · rename_i v _
        exact at?_modifyAt_elsewhere (f := fun s => renamedScope s i v w) (fun _ => rfl) g.root h
  have hstep : ∀ (g : Generation) (i : Nat), (g.nameVariable p i).root.at? q = g.root.at? q := by
    intro g i
    rw [Generation.nameVariable]
    split
    · rfl
    · split
      · rfl
      · exact hrename g i _
  have hfold : ∀ (is : List Nat) (g : Generation),
      (is.foldl (Generation.nameVariable p) g).root.at? q = g.root.at? q := by
    intro is
    induction is with
    | nil => exact fun _ => rfl
    | cons i is ih => exact fun g => (ih (g.nameVariable p i)).trans (hstep g i)
  rw [Generation.nameScope]
  split
  · rfl
  · split
    · rfl
    · exact hfold _ g

theorem Named.nameScopes {t : Tree} (ht : t.Numbered) {src : Source} (hsrc : src.Ready)
    (hd : ∀ s ∈ (ofTree t).scopes, s.block.kind ≠ "Program" → s.declared ≠ [] → s.dynamic = false)
    {ps : List Path} (hps : ps.Pairwise fun p q => ¬ q <+: p) {vs : List Variable} {g : Generation}
    (h : Named t src vs g)
    (hg : ∀ p ∈ ps, ∃ s, g.root.at? p = some s ∧ (ofTree t).at? p = some s) :
    Named t src (vs ++ (ps.map (ofTree t).at?).flatMap fun s => (s.map nameable).getD [])
      (ps.foldl Generation.nameScope g) := by
  induction ps generalizing vs g with
  | nil => rwa [List.map_nil, List.flatMap_nil, List.append_nil]
  | cons p ps ih =>
    rw [List.pairwise_cons] at hps
    rw [List.forall_mem_cons] at hg
    obtain ⟨⟨s, hgs, hs⟩, hg⟩ := hg
    have hmem := at?_mem_scopes hs
    rw [List.map_cons, List.flatMap_cons, hs, ← List.append_assoc, List.foldl_cons]
    refine ih hps.2 (h.nameScope ht hsrc hmem hgs (hd s hmem)) fun q hq => ?_
    obtain ⟨c, hgc, hc⟩ := hg q hq
    exact ⟨c, (at?_nameScope g (hps.1 q hq)).trans hgc, hc⟩

/-- The variables of a tree that get made-up names, in the order in which they get them. -/
def nameables (s : Scope) : List Variable :=
  s.scopes.flatMap nameable

theorem startOf_program {t : Tree} (h : t.isKind "Program" = true) : startOf t = (ofTree t, []) := by
  obtain ⟨kind, dynamic, is, -, hk, hi⟩ := exists_item_of_program h
  have howners : ∃ os, (ofTree t).owners = (t.tag, []) :: os := by
    rw [ofTree_program h hi, owners, registeredPaths, paths_eq, List.filter_cons_of_pos rfl,
      List.filterMap_cons]
    simp only [at?, made, assemble, if_neg hk]
    exact ⟨_, rfl⟩
  obtain ⟨os, hos⟩ := howners
  rw [startOf, acquire?, hos, List.lookup_cons_self]
  rfl

theorem named_start {t : Tree} (ht : t.Numbered) (src : Source) :
    Named t src [] ⟨ofTree t, ∅, src, 0⟩ := by
  refine ⟨rfl, rfl, fun _ tag => by simp [nameGiven?], fun _ p c hc e he => Or.inr ?_⟩
  have hcs := at?_mem_scopes hc
  have hfresh := fresh_ofTree t c hcs
  have hdecl : c.declares e.1 = true := List.any_eq_true.mpr ⟨e, he, beq_self_eq_true _⟩
  obtain ⟨v, hv, hn⟩ := hfresh.declares_iff.mp hdecl
  by_cases ha : v.name = "arguments"
  · exact Or.inl (hn ▸ ha)
  · obtain ⟨tag, htag⟩ := List.exists_mem_of_ne_nil _ (hfresh.identified v hv ha)
    exact Or.inr ⟨_, mem_identifiers_of_tags ht hcs hv (List.mem_append_left _ htag), hn⟩

theorem named_generate {t : Tree} (ht : t.wellFormed = true) (hp : t.isKind "Program" = true)
    {src : Source} (hsrc : src.Ready)
    (hd : ∀ s ∈ (ofTree t.numbered).scopes, s.block.kind ≠ "Program" → s.declared ≠ [] →
      s.dynamic = false) :
    ∃ g : Generation, Named t.numbered src (nameables (ofTree t.numbered)) g ∧
      generate t src = (g.names.apply t.numbered, g.count) := by
  have hn := Tree.wellFormed.numbered ht
  have hstart := startOf_program ((Tree.isKind_numbered t "Program").trans hp)
  have hall := (named_start hn src).nameScopes hn hsrc hd (pairwise_paths (ofTree t.numbered)) fun p hp => ?_
  · rw [map_at?_paths, List.nil_append, List.flatMap_map] at hall
    refine ⟨_, hall, ?_⟩
    rw [generate, hstart]
    simp only [Generation.run, at?, List.nil_append, List.map_id']
  · have hm := List.mem_map_of_mem (f := (ofTree t.numbered).at?) hp
    rw [map_at?_paths] at hm
    obtain ⟨s, -, hs⟩ := List.mem_map.mp hm
    exact ⟨s, hs.symm, hs.symm⟩

end Naming

end Legible
