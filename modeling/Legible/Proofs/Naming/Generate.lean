import Legible.Proofs.Naming.Generation

/-!
Made-up names are new names for the variables below the top level: where no identifier had one of
them before, the scopes of the tree stay as they are.
-/

namespace Legible.Naming

open Scope

structure Given (t : Tree) (given : List (Variable × String)) (names : Names) : Prop where
  names : ∀ (tag : Nat) (w : String), names[tag]? = some w ↔ ∃ v, (v, w) ∈ given ∧ tag ∈ v.tags
  declared : ∀ v w, (v, w) ∈ given → ∃ c ∈ (ofTree t).scopes, v ∈ c.nameable
  fresh : ∀ v w, (v, w) ∈ given → w ≠ "arguments" ∧ ∀ o ∈ t.identifiers, o.name ≠ w
  distinct : (given.map (·.2)).Nodup

theorem mem_nameable {c : Scope} {v : Variable} :
    v ∈ c.nameable ↔ c.block.kind ≠ "Program" ∧ v ∈ c.declared ∧ v.name ≠ "arguments" := by
  rw [nameable]
  by_cases hk : c.block.kind = "Program"
  · simp [hk]
  · simp [hk, List.mem_filter]

section

variable {t : Tree} (ht : t.Numbered) {given : List (Variable × String)} {names : Names}
  (h : Given t given names)

include h

theorem Given.newName {v : Variable} {w : String} (hv : (v, w) ∈ given) :
    v.newName names = w ∧ ∀ tag ∈ v.tags, names.current ⟨tag, v.name⟩ = w := by
  have hall : ∀ tag ∈ v.tags, names.current ⟨tag, v.name⟩ = w := fun tag htag => by
    rw [Names.current_eq, (h.names tag w).mpr ⟨v, hv, htag⟩, Option.getD_some]
  refine ⟨?_, hall⟩
  obtain ⟨c, hc, hvc⟩ := h.declared v w hv
  obtain ⟨-, hvc, ha⟩ := mem_nameable.mp hvc
  have hid := (fresh_ofTree t c hc).identified v hvc ha
  exact Variable.newName_eq (fun tag htag => hall tag (List.mem_append_left _ htag)) fun hi =>
    absurd hi hid

include ht

theorem Given.newName_of_notMem {c : Scope} (hc : c ∈ (ofTree t).scopes) {v : Variable}
    (hv : v ∈ c.declared) (hno : ∀ w, (v, w) ∉ given) :
    v.newName names = v.name ∧ ∀ tag ∈ v.tags, names[tag]? = none := by
  have hall : ∀ tag ∈ v.tags, names[tag]? = none := by
    intro tag htag
    rw [Option.eq_none_iff_forall_ne_some]
    intro w hw
    obtain ⟨u, hu, hut⟩ := (h.names tag w).mp hw
    obtain ⟨d, hd, hud⟩ := h.declared u w hu
    obtain ⟨-, rfl⟩ := owner_unique ht hc hv hd (mem_nameable.mp hud).2.1 htag hut
    exact hno w hu
  refine ⟨Variable.newName_eq (fun tag htag => ?_) fun _ => rfl, hall⟩
  rw [Names.current_eq, hall tag (List.mem_append_left _ htag), Option.getD_none]

theorem Given.suits : names.Suits t := by
  refine suits_of_identifiers ht fun tag hn => ?_
  obtain ⟨w, hw⟩ := Option.ne_none_iff_exists'.mp hn
  obtain ⟨v, hv, htag⟩ := (h.names tag w).mp hw
  obtain ⟨c, hc, hvc⟩ := h.declared v w hv
  exact ⟨_, mem_identifiers_of_tags ht hc (mem_nameable.mp hvc).2.1 htag, rfl⟩

theorem Given.name_ne {c : Scope} (hc : c ∈ (ofTree t).scopes) {u v : Variable}
    (hu : u ∈ c.declared) {w : String} (hv : (v, w) ∈ given) : u.name ≠ w := by
  obtain ⟨hwa, hfresh⟩ := h.fresh v w hv
  by_cases ha : u.name = "arguments"
  · exact fun he => hwa (he.symm.trans ha)
  · obtain ⟨tag, htag⟩ := List.exists_mem_of_ne_nil _ ((fresh_ofTree t c hc).identified u hu ha)
    exact hfresh _ (mem_identifiers_of_tags ht hc hu (List.mem_append_left _ htag))

theorem Given.keeps : ∀ c ∈ (ofTree t).scopes, c.Keeps names := by
  intro c hc
  have hfresh := fresh_ofTree t c hc
  have hcases : ∀ v ∈ c.declared, (∃ w, (v, w) ∈ given) ∨ ∀ w, (v, w) ∉ given := fun v _ =>
    or_iff_not_imp_left.mpr fun hno w hw => hno ⟨w, hw⟩
  refine keeps_of_newName hfresh (fun v hv ha => ?_) (fun v hv tag htag => ?_)
    (fun u hu v hv he => ?_) fun hd o ho v hv he => ?_
  · refine (h.newName_of_notMem ht hc hv fun w hw => ?_).1.trans ha
    obtain ⟨d, hd, hvd⟩ := h.declared v w hw
    exact (mem_nameable.mp hvd).2.2 ha
  · rcases hcases v hv with ⟨w, hw⟩ | hno
    · obtain ⟨hnew, hall⟩ := h.newName hw
      rw [hall tag htag, hnew]
    · obtain ⟨hnew, hall⟩ := h.newName_of_notMem ht hc hv hno
      rw [Names.current_eq, hall tag htag, hnew, Option.getD_none]
  · rcases hcases u hu with ⟨w, hw⟩ | hno <;> rcases hcases v hv with ⟨w', hw'⟩ | hno'
    · rw [(h.newName hw).1, (h.newName hw').1] at he
      subst he
      obtain ⟨rfl, -⟩ := Prod.mk.inj (List.inj_on_of_nodup_map h.distinct hw hw' rfl)
      rfl
    · rw [(h.newName hw).1, (h.newName_of_notMem ht hc hv hno').1] at he
      exact absurd he.symm (h.name_ne ht hc hv hw)
    · rw [(h.newName_of_notMem ht hc hu hno).1, (h.newName hw').1] at he
      exact absurd he (h.name_ne ht hc hu hw')
    · rwa [(h.newName_of_notMem ht hc hu hno).1, (h.newName_of_notMem ht hc hv hno').1] at he
  · -- What passes through has its old name, or the new one of a variable of another scope.
    obtain ⟨hin, hother⟩ := (hfresh.through o).mp ho
    have hid := mem_identifiers_of_incoming ht hc hin
    rw [Names.current_eq] at he
    cases hn : names[o.tag]? with
    | none =>
      rw [hn, Option.getD_none] at he
      rcases hcases v hv with ⟨w, hw⟩ | hno
      · rw [(h.newName hw).1] at he
        exact (h.fresh v w hw).2 o hid he
      · rw [(h.newName_of_notMem ht hc hv hno).1] at he
        exact hother hd v hv he.symm
    | some x =>
      rw [hn, Option.getD_some] at he
      obtain ⟨u, hu, hut⟩ := (h.names o.tag x).mp hn
      rcases hcases v hv with ⟨w, hw⟩ | hno
      · rw [(h.newName hw).1] at he
        subst he
        obtain ⟨rfl, -⟩ := Prod.mk.inj (List.inj_on_of_nodup_map h.distinct hu hw rfl)
        exact hother hd u hv (ht.name_eq (mem_identifiers_of_tags ht hc hv hut) hid rfl)
      · rw [(h.newName_of_notMem ht hc hv hno).1] at he
        exact h.name_ne ht hc hv hu he.symm

theorem Given.ofTree_apply : ofTree (names.apply t) = (ofTree t).renamed names :=
  Scope.ofTree_apply (h.suits ht) (h.keeps ht)

theorem Given.nameables_renamed :
    nameables ((ofTree t).renamed names) = (nameables (ofTree t)).map (·.renamed names) := by
  rw [nameables, scopes_renamed, List.flatMap_map, nameables, List.map_flatMap]
  refine List.flatMap_congr fun c hc => ?_
  rw [renamed_eq, nameable, nameable]
  by_cases hk : c.block.kind = "Program"
  · rw [if_pos hk, if_pos hk]
    rfl
  · rw [if_neg hk, if_neg hk, List.filter_map]
    refine congrArg _ (List.filter_congr fun v hv => ?_)
    rw [Function.comp_apply, Bool.eq_iff_iff, bne_iff_ne, bne_iff_ne]
    by_cases hw : ∃ w, (v, w) ∈ given
    · obtain ⟨w, hw⟩ := hw
      obtain ⟨d, -, hvd⟩ := h.declared v w hw
      refine iff_of_true ?_ (mem_nameable.mp hvd).2.2
      exact fun he => (h.fresh v w hw).1 ((h.newName hw).1.symm.trans he)
    · have hnew := (h.newName_of_notMem ht hc hv fun w hm => hw ⟨w, hm⟩).1
      rw [← hnew]
      rfl

end

theorem nodup_nameables {t : Tree} (ht : t.Numbered) :
    ((nameables (ofTree t)).flatMap Variable.tags).Nodup := by
  rw [nameables, List.flatMap_assoc]
  refine (nodup_tags ht).sublist (List.Sublist.flatMap_right _ fun c _ => List.Sublist.flatMap ?_ _)
  rw [nameable]
  split
  · exact List.nil_sublist _
  · exact List.filter_sublist

theorem given_of_named {t : Tree} (ht : t.Numbered) {src : Source} (hsrc : src.Ready)
    {g : Generation} (h : Named t src (nameables (ofTree t)) g)
    (hf : Free t src (nameables (ofTree t)).length) :
    Given t ((nameables (ofTree t)).zip (src.take (nameables (ofTree t)).length).1) g.names := by
  have hlength := Source.length_take (nameables (ofTree t)).length src
  have hfst := List.map_fst_zip hlength.ge
  have hsnd := List.map_snd_zip hlength.le
  refine ⟨fun tag w => ?_, fun v w hv => ?_, fun v w hv => ?_, ?_⟩
  · rw [h.names hf]
    refine nameGiven?_eq_some_iff ?_
    have hn := nodup_nameables ht
    rwa [← hfst, List.flatMap_map] at hn
  · exact List.mem_flatMap.mp (List.of_mem_zip hv).1
  · have hw := (List.of_mem_zip hv).2
    exact ⟨fun he => (Source.plain_of_mem_take hw).unreserved (he ▸ by decide),
      fun o ho he => hf o ho (he ▸ hw)⟩
  · rw [hsnd]
    exact Source.nodup_take hsrc _

theorem dynamic_eq_false {t : Tree}
    (hwith : ∀ s ∈ (ofTree t).scopes, s.kind = .withBody → s.declared = []) :
    ∀ s ∈ (ofTree t).scopes, s.block.kind ≠ "Program" → s.declared ≠ [] → s.dynamic = false := by
  intro s hs hk hne
  by_contra hd
  exact hne (hwith s hs ((kind_of_dynamic hs (Bool.of_not_eq_false hd)).resolve_right hk))

/-- Naming the variables of a script or module with a dictionary or phonetic source whose names no
identifier has: each variable below the top level gets the next name at all its identifiers, all
else stays, and so do the scopes of the tree. A `with` must not declare anything by itself. -/
theorem generate_renames {t : Tree} {src : Source} (ht : t.wellFormed = true)
    (hp : t.isKind "Program" = true) (hsrc : src.Ready)
    (hwith : ∀ s ∈ (ofTree t.numbered).scopes, s.kind = .withBody → s.declared = [])
    (hfree : ∀ o ∈ t.identifiers, o.name ∉ (src.take (generate t src).2).1) :
    let root := ofTree t.numbered
    let r := generate t src
    let ws := (src.take r.2).1
    (r.2 = (nameables root).length ∧ ws.Nodup ∧ (nameables (ofTree r.1)).map (·.name) = ws) ∧
      (ofTree r.1).unnamed = root.unnamed ∧
      ∃ names : Names, r.1 = names.apply t.numbered ∧ names.Suits t.numbered ∧
        (∀ (tag : Nat) (w : String),
          names[tag]? = some w ↔ ∃ v, (v, w) ∈ (nameables root).zip ws ∧ tag ∈ v.tags) ∧
        (∀ c ∈ root.scopes, c.block.kind = "Program" → ∀ v ∈ c.declared, ∀ tag ∈ v.tags,
          names[tag]? = none) ∧
        ∀ o ∈ root.through, names[o.tag]? = none := by
  intro root r ws
  have hn := Tree.wellFormed.numbered ht
  obtain ⟨g, hg, hr⟩ := named_generate ht hp hsrc (dynamic_eq_false hwith)
  have hcount : r.2 = (nameables root).length := (congrArg Prod.snd hr).trans hg.count
  have hws : ws = (src.take (nameables root).length).1 := congrArg (fun n => (src.take n).1) hcount
  have hf : Free t.numbered src (nameables root).length := by
    intro o ho hm
    have hname : o.name ∈ t.identifiers.map (·.name) := by
      rw [← Tree.names_numbered]
      exact List.mem_map_of_mem ho
    obtain ⟨o', ho', he⟩ := List.mem_map.mp hname
    rw [← hws] at hm
    exact hfree o' ho' (by rwa [he])
  have hgiven := given_of_named hn hsrc hg hf
  rw [← hws] at hgiven
  have happly : r.1 = g.names.apply t.numbered := congrArg Prod.fst hr
  have hscopes : ofTree r.1 = root.renamed g.names := by
    rw [happly]
    exact hgiven.ofTree_apply hn
  have hlength : ws.length = (nameables root).length := by
    rw [hws]
    exact Source.length_take _ _
  refine ⟨⟨hcount, Source.nodup_take hsrc _, ?_⟩, ?_, g.names, happly, hgiven.suits hn,
    hgiven.names, fun c hc hk v hv tag htag => ?_, fun o ho => ?_⟩
  · rw [hscopes, hgiven.nameables_renamed hn, List.map_map]
    -- Each variable is called by the name that stands beside it.
    have hfst := List.map_fst_zip hlength.ge
    have hsnd := List.map_snd_zip hlength.le
    rw [← hfst, List.map_map]
    refine (List.map_congr_left fun p hm => ?_).trans hsnd
    exact (hgiven.newName hm).1
  · rw [hscopes]
    exact unnamed_renamed g.names (fresh_ofTree _)
  · refine (hgiven.newName_of_notMem hn hc hv fun w hw => ?_).2 tag htag
    obtain ⟨d, hd, hvd⟩ := hgiven.declared v w hw
    obtain ⟨hkd, hvd, -⟩ := mem_nameable.mp hvd
    obtain ⟨rfl, -⟩ := owner_unique hn hc hv hd hvd htag htag
    exact hkd hk
  · rw [Option.eq_none_iff_forall_ne_some]
    intro w hw
    obtain ⟨v, hv, htag⟩ := (hgiven.names o.tag w).mp hw
    obtain ⟨c, hc, hvc⟩ := hgiven.declared v w hv
    exact through_notMem_tags hn hc (mem_nameable.mp hvc).2.1 ho htag

theorem generate_renames_nestedFunctions :
    let src := Source.start .dictionary 0
    let r := generate nestedFunctions src
    (nestedFunctions.wellFormed = true ∧ nestedFunctions.isKind "Program" = true ∧ src.Ready ∧
      (∀ s ∈ (ofTree nestedFunctions.numbered).scopes, s.kind = .withBody → s.declared = []) ∧
      ∀ o ∈ nestedFunctions.identifiers, o.name ∉ (src.take r.2).1) ∧
      r.2 = 2 ∧ (nameables (ofTree r.1)).map (·.name) = ["_able_act_", "_dark_owner_"] := by
  intro src r
  have ht : nestedFunctions.wellFormed = true := by decide
  have hp : nestedFunctions.isKind "Program" = true := by decide
  have hsrc : src.Ready := Source.ready_start (by decide)
  have hwith : ∀ s ∈ (ofTree nestedFunctions.numbered).scopes, s.kind = .withBody →
      s.declared = [] := by
    decide
  obtain ⟨g, hg, hr⟩ := named_generate ht hp hsrc (dynamic_eq_false hwith)
  have hlength : (nameables (ofTree nestedFunctions.numbered)).length = 2 := by decide
  have hcount : r.2 = 2 := (congrArg Prod.snd hr).trans (hg.count.trans hlength)
  have hws : (src.take r.2).1 = ["_able_act_", "_dark_owner_"] := by
    rw [hcount]
    decide +kernel
  have hfree : ∀ o ∈ nestedFunctions.identifiers, o.name ∉ (src.take r.2).1 := by
    rw [hws]
    decide
  have hall := generate_renames ht hp hsrc hwith hfree
  exact ⟨⟨ht, hp, hsrc, hwith, hfree⟩, hcount, hall.1.2.2.trans hws⟩

def functionInWith : Tree :=
  Form.program [Form.withStatement (Form.identifier "o") (Form.ifStatement (Form.identifier "a")
    (Form.functionDeclaration (Form.identifier "f") [] (Form.blockStatement []))
    (Form.expressionStatement (Form.callExpression (Form.identifier "f") [])))]

def withScope : Scope :=
  ((ofTree functionInWith.numbered).at? [0]).getD default

def withFunction : Variable :=
  withScope.declared.getD 0 default

theorem at?_withScope : (ofTree functionInWith.numbered).at? [0] = some withScope :=
  (Option.getD_of_ne_none (by
    rw [← Option.isSome_iff_ne_none]
    decide) default).symm

theorem declared_withScope : withScope.declared[0]? = some withFunction := by
  rw [withFunction, List.getD_eq_getElem?_getD]
  exact (Option.getD_of_ne_none (by
    rw [← Option.isSome_iff_ne_none]
    decide) default).symm

theorem generate_functionInWith :
    generate functionInWith (Source.start .dictionary 0) =
      ((((ofTree functionInWith.numbered).rename [0] 0 "_able_act_" ∅).2).apply
        functionInWith.numbered, 1) := by
  have hp : functionInWith.isKind "Program" = true := by decide
  have hpaths : (ofTree functionInWith.numbered).paths = [[], [0], [0, 0]] := by decide
  have hw : (ofTree functionInWith.numbered).uniqueName [0] (Source.start .dictionary 0).next.1 =
      "_able_act_" := by
    decide +kernel
  let g : Generation := ⟨ofTree functionInWith.numbered, ∅, Source.start .dictionary 0, 0⟩
  let g' : Generation := ⟨g.root.modifyAt (fun s => renamedScope s 0 withFunction "_able_act_") [0],
    renamedNames withScope withFunction "_able_act_" ∅, g.source.next.2, 1⟩
  have hscript : g.nameScope [] = g := nameScope_eq_self rfl (by decide)
  have hwith : g.nameScope [0] = g' := by
    have hk : withScope.block.kind ≠ "Program" := by decide
    have hlength : List.range withScope.declared.length = [0] := by decide
    have hstep := nameVariable_eq (g := g) at?_withScope declared_withScope (by decide)
      (by decide)
    simp only [g, hw] at hstep
    rw [Generation.nameScope]
    simp only [g, at?_withScope, if_neg hk, hlength, List.foldl_cons, List.foldl_nil]
    exact hstep
  have hfunction : g'.nameScope [0, 0] = g' := by
    have hat : g'.root.at? [0, 0] = some (((ofTree functionInWith.numbered).at? [0, 0]).getD default) := by
      refine (at?_modifyAt_elsewhere (f := fun s => renamedScope s 0 withFunction "_able_act_")
        (fun _ => rfl) g.root (by decide)).trans (Option.getD_of_ne_none ?_ default).symm
      rw [← Option.isSome_iff_ne_none]
      decide
    exact nameScope_eq_self hat (by decide)
  have hrun : Generation.run g [] = g' := by
    have hroot : g.root.at? [] = some g.root := rfl
    rw [Generation.run, hroot]
    simp only [g, hpaths, List.map_cons, List.map_nil, List.nil_append, List.foldl_cons,
      List.foldl_nil]
    rw [hscript, hwith, hfunction]
  rw [generate, startOf_program ((Tree.isKind_numbered _ _).trans hp), rename_eq at?_withScope
    declared_withScope]
  exact congrArg (fun g => (g.names.apply functionInWith.numbered, g.count)) hrun

theorem generate_renames_unresolved :
    let src := Source.start .dictionary 0
    let root := ofTree functionInWith.numbered
    let r := generate functionInWith src
    (functionInWith.wellFormed = true ∧ functionInWith.isKind "Program" = true ∧ src.Ready ∧
      (∀ x ∈ functionInWith.objects, x.2.kind = "WithStatement" →
        (x.2.get "body").isKind "IfStatement" = true) ∧
      ∀ o ∈ functionInWith.identifiers, o.name ∉ (src.take r.2).1) ∧
      root.through.map (·.name) = ["o", "a", "f"] ∧
      (ofTree r.1).through.map (·.name) = ["o", "a", "_able_act_"] := by
  intro src root r
  have ht : functionInWith.wellFormed = true := by decide
  have hn := Tree.wellFormed.numbered ht
  have hr : r = _ := generate_functionInWith
  have hs := at?_mem_scopes at?_withScope
  have hv := List.mem_of_getElem? declared_withScope
  have hnames := getElem?_rename at?_withScope declared_withScope "_able_act_"
  have hclear : Clear root withScope withFunction "_able_act_" := by
    refine ⟨by decide, by decide, fun c hc u hu _ tag htag => ?_⟩
    have hnone : ∀ c ∈ root.scopes, ∀ u ∈ c.declared, u.references = [] := by decide
    rw [hnone c hc u hu] at htag
    cases htag
  have hscopes := Scope.ofTree_apply (suits_moved hn hs hv hnames)
    (keeps_of_clear hn hs hv (by decide) (by decide) hnames hclear)
  refine ⟨⟨ht, by decide, Source.ready_start (by decide), by decide, ?_⟩,
    by decide, ?_⟩
  · rw [hr]
    decide
  · rw [hr, hscopes, renamed_eq]
    simp only [List.map_map]
    have hcurrent := fun o => current_moved (s := withScope) (v := withFunction) hnames o
    refine (List.map_congr_left fun o _ => hcurrent o).trans ?_
    decide

end Legible.Naming
