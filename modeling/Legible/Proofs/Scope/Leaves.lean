import Legible.Proofs.Scope.Look
import Legible.Proofs.Tree.Grammar

namespace Legible

def View.fits (kind : String) : View → Bool
  | .visit | .target _ | .functionBody => !(["ImportSpecifier", "ExportSpecifier"].contains kind)
  | .property _ => ["Property", "RestElement"].contains kind
  | .declarator _ => kind == "VariableDeclarator"
  | .importSpecifier =>
    ["ImportDefaultSpecifier", "ImportNamespaceSpecifier", "ImportSpecifier"].contains kind
  | .exportSpecifier => kind == "ExportSpecifier"

def nameSlots : List (String × String) :=
  [("LabeledStatement", "label"), ("BreakStatement", "label"), ("ContinueStatement", "label"),
   ("MetaProperty", "meta"), ("MetaProperty", "property"), ("ImportSpecifier", "imported"),
   ("ExportSpecifier", "exported")]

def keySlots : List (String × String) :=
  [("MemberExpression", "property"), ("Property", "key"), ("MethodDefinition", "key")]

def sourceSlots : List (String × String) :=
  [("ImportDeclaration", "source"), ("ExportNamedDeclaration", "source"),
   ("ExportAllDeclaration", "source")]

def Fields.silent (fs : Fields) (key : String) : Bool :=
  (sourceSlots ++ nameSlots).contains (fs.kind, key) ||
    (keySlots.contains (fs.kind, key) && !fs.flag "computed") ||
    ((fs.kind, key) == ("ExportNamedDeclaration", "specifiers") &&
      (!(fs.get "declaration").isNull || !(fs.get "source").isNull))

namespace Step

/-! ### Leaves

The steps that make no scopes. -/

mutual

def leaves : Step → List Step
  | .scope _ _ steps => leavesOf steps
  | s => [s]
termination_by structural s => s

def leavesOf : List Step → List Step
  | [] => []
  | s :: ss => leaves s ++ leavesOf ss
termination_by structural ss => ss

end

theorem leavesOf_eq (ss : List Step) : leavesOf ss = ss.flatMap leaves := by
  induction ss with
  | nil => rfl
  | cons s ss ih => rw [leavesOf, List.flatMap_cons, ih]

theorem leaves_scope (kind : ScopeKind) (dynamic : Bool) (ss : List Step) :
    leaves (.scope kind dynamic ss) = ss.flatMap leaves := by
  rw [leaves, leavesOf_eq]

theorem flatMap_places_leaves (s : Step) : s.leaves.flatMap places = s.places := by
  induction s with
  | scope kind dynamic ss ih =>
    rw [leaves_scope, List.flatMap_assoc, places_scope]
    exact List.flatMap_congr ih
  | _ => exact List.flatMap_singleton ..

theorem scope_notMem_leaves {s : Step} {kind : ScopeKind} {dynamic : Bool} {ss : List Step} :
    .scope kind dynamic ss ∉ s.leaves := by
  induction s with
  | scope kind dynamic ss ih =>
    rw [leaves_scope, List.mem_flatMap]
    exact fun ⟨s, hs, h⟩ => ih s hs h
  | _ => exact fun h => nomatch List.mem_singleton.mp h

theorem Fits.leaves {fs : Fields} {s : Step} (h : Fits fs s) : ∀ l ∈ s.leaves, Fits fs l := by
  induction s with
  | scope kind dynamic ss ih =>
    cases h with
    | scope h =>
      rw [leaves_scope]
      intro l hl
      obtain ⟨s, hs, hl⟩ := List.mem_flatMap.mp hl
      exact ih s hs (h s hs) l hl
  | _ => exact List.forall_mem_singleton.mpr h

theorem leaves_loopScope (head : Tree) (ss : List Step) :
    (loopScope head ss).flatMap leaves = ss.flatMap leaves := by
  rw [loopScope]
  split
  · rw [List.flatMap_singleton, leaves_scope]
  · rfl

def suits (slots : List (String × Contents)) : Step → Bool
  | .look arity view key => (slots.lookup key).any fun c =>
      arity != (if c.list then .one else .many) && c.kinds.all view.fits
  | _ => true

variable {fs : Fields} {slots : List (String × Contents)}

theorem kind?_of_slots (hs : slots? fs.kind = some slots) (tag : Nat) :
    (Tree.object tag fs).kind? = some fs.kind := by
  change (fs.get "type").text? = _
  rw [Fields.kind_eq]
  cases hx : (fs.get "type").text? with
  | some x => rfl
  | none =>
    rw [Fields.kind_eq, hx] at hs
    cases hs

theorem childKeys_of_slots (hs : slots? fs.kind = some slots) :
    fs.childKeys = slots.map (·.1) :=
  Tree.childKeys_of_kind? (kind?_of_slots hs 0) (by rw [lookup_childTable, hs, Option.map_some])

theorem mem_places_ofNode (hs : slots? fs.kind = some slots) (hv : View.visit.fits fs.kind = true) :
    ∀ e ∈ slots, (fs.get e.1).isNull = false →
      (some e.1 ∈ (ofNode fs).flatMap places ↔ fs.silent e.1 = false) := by
  have hkeys := childKeys_of_slots hs
  unfold ofNode
  split
  case h_30 =>
    -- The steps of a kind of no interest are about its children.
    intro e he _
    refine iff_of_true ?_ ?_
    · rw [hkeys, List.map_map, List.flatMap_map]
      exact List.mem_flatMap.mpr ⟨e, he, List.mem_singleton_self _⟩
    · simp_all [Fields.silent, sourceSlots, nameSlots, keySlots, View.fits]
  all_goals
    clear hkeys
    rename_i hk
    simp only [hk, slots?, grammarTable, List.lookup_cons, String.reduceBEq] at hs
    try cases hs
    try split_ifs
  all_goals
    simp_all [places, placesOf_eq, places_loopScope, places_declareIf, places_functionScope,
      places_classScope, Fields.silent, sourceSlots, nameSlots, keySlots, Contents.one,
      Contents.maybe]

theorem leaves_declareIf (kind : VariableKind) (fs : Fields) :
    (declareIf kind fs).flatMap leaves = declareIf kind fs := by
  rw [declareIf]
  split <;> rfl

theorem leaves_functionScope (fs : Fields) : (functionScope fs).leaves =
    (if fs.kind = "ArrowFunctionExpression" then [] else [.arguments]) ++
      [.look .many (.target (.declare .parameter false)) "params",
        .look .one .functionBody "body"] := by
  rw [functionScope, leaves_scope]
  split <;> rfl

theorem leaves_classScope (fs : Fields) : (classScope fs).flatMap leaves =
    .look .one .visit "superClass" ::
      ((if fs.kind = "ClassExpression" then declareIf .classLike fs else []) ++
        [.look .one .visit "body"]) := by
  have hif : (if fs.kind = "ClassExpression" then declareIf .classLike fs else []).flatMap leaves =
      if fs.kind = "ClassExpression" then declareIf .classLike fs else [] := by
    split
    · exact leaves_declareIf ..
    · rfl
  rw [classScope, List.flatMap_cons, List.flatMap_singleton, leaves_scope, List.flatMap_append, hif]
  rfl

theorem suits_declareIf (kind : VariableKind) (fs : Fields) :
    ∀ l ∈ declareIf kind fs, l.suits slots = true := by
  rw [declareIf]
  split
  · exact List.forall_mem_nil _
  · exact List.forall_mem_singleton.mpr rfl

theorem fits_visit_of_slots : ∀ e ∈ grammarTable,
    ["ImportDeclaration", "ExportNamedDeclaration"].contains e.1 = false →
      ∀ s ∈ e.2, s.2.kinds.all View.visit.fits = true := by
  decide

theorem suits_visit_of_mem (hs : slots? fs.kind = some slots)
    (hk : ["ImportDeclaration", "ExportNamedDeclaration"].contains fs.kind = false)
    {e : String × Contents} (he : e ∈ slots) : (look .either .visit e.1).suits slots = true := by
  rw [suits, lookup_of_mem_slots hs he, Option.any_some,
    fits_visit_of_slots _ (mem_grammarTable hs) hk e he, Bool.and_true]
  split <;> rfl

theorem suits_functionScope (hs : slots? fs.kind = some slots)
    (hk : fs.kind = "FunctionDeclaration" ∨ fs.kind = "FunctionExpression" ∨
      fs.kind = "ArrowFunctionExpression") :
    ∀ l ∈ (functionScope fs).leaves, l.suits slots = true := by
  rw [leaves_functionScope]
  rcases hk with hk | hk | hk
  all_goals
    simp only [hk, slots?, grammarTable, List.lookup_cons, String.reduceBEq,
      Option.some.injEq] at hs
    subst hs
    simp only [hk, String.reduceEq, if_true, if_false]
    decide

theorem suits_classScope (hs : slots? fs.kind = some slots)
    (hk : fs.kind = "ClassDeclaration" ∨ fs.kind = "ClassExpression") :
    ∀ l ∈ (classScope fs).flatMap leaves, l.suits slots = true := by
  rw [leaves_classScope, List.forall_mem_cons, List.forall_mem_append]
  have hid : ∀ l ∈ if fs.kind = "ClassExpression" then declareIf .classLike fs else [],
      l.suits slots = true := by
    split
    · exact suits_declareIf _ _
    · exact List.forall_mem_nil _
  rcases hk with hk | hk
  all_goals
    refine ⟨?_, hid, ?_⟩
    all_goals
      simp only [hk, slots?, grammarTable, List.lookup_cons, String.reduceBEq,
        Option.some.injEq] at hs
      subst hs
      decide

theorem suits_ofNode (hs : slots? fs.kind = some slots) :
    ∀ l ∈ (ofNode fs).flatMap leaves, l.suits slots = true := by
  have hkeys := childKeys_of_slots hs
  unfold ofNode
  split
  case h_2 hk =>
    rw [List.flatMap_append, leaves_declareIf, List.flatMap_singleton, List.forall_mem_append]
    exact ⟨suits_declareIf _ _, suits_functionScope hs (Or.inl hk)⟩
  case h_3 hk =>
    have hfunction := suits_functionScope hs (Or.inr (Or.inl hk))
    split
    · rwa [List.flatMap_singleton]
    · rw [List.flatMap_singleton, leaves_scope, List.flatMap_append, leaves_declareIf,
        List.flatMap_singleton, List.forall_mem_append]
      exact ⟨suits_declareIf _ _, hfunction⟩
  case h_4 hk =>
    rw [List.flatMap_singleton]
    exact suits_functionScope hs (Or.inr (Or.inr hk))
  case h_6 hk =>
    rw [List.flatMap_append, leaves_declareIf, List.forall_mem_append]
    exact ⟨suits_declareIf _ _, suits_classScope hs (Or.inl hk)⟩
  case h_7 hk => exact suits_classScope hs (Or.inr hk)
  case h_30 =>
    rw [hkeys, List.map_map, List.flatMap_map]
    intro l hl
    obtain ⟨e, he, hl⟩ := List.mem_flatMap.mp hl
    obtain rfl := List.mem_singleton.mp hl
    refine suits_visit_of_mem hs ?_ he
    simp_all
  case h_17 hk =>
    simp only [hk, slots?, grammarTable, List.lookup_cons, String.reduceBEq,
      Option.some.injEq] at hs
    subst hs
    generalize ((fs.get "kind").text? == some "var") = hoisted
    cases hoisted <;> decide
  all_goals
    clear hkeys
    rename_i hk
    simp only [hk, slots?, grammarTable, List.lookup_cons, String.reduceBEq] at hs
    cases hs
  all_goals try split_ifs
  all_goals try rw [leaves_loopScope]
  all_goals decide

theorem mem_places_iff (hs : slots? fs.kind = some slots) {view : View}
    (hv : view.fits fs.kind = true) :
    ∀ e ∈ slots, (fs.get e.1).isNull = false →
      (some e.1 ∈ (ofView fs view).flatMap places ↔ fs.silent e.1 = false) := by
  have hnode := mem_places_ofNode hs
  cases view with
  | visit => exact hnode hv
  | target b =>
    rw [ofView]
    unfold ofTarget
    split
    case h_6 => exact hnode hv
    all_goals
      rename_i hk
      simp only [hk, slots?, grammarTable, List.lookup_cons, String.reduceBEq] at hs
      cases hs
      simp [places, Fields.silent, sourceSlots, nameSlots, keySlots, hk]
  | property b =>
    rw [ofView, ofProperty]
    rcases List.mem_pair.mp (List.contains_iff_mem.mp hv) with hk | hk
    all_goals
      simp only [hk, slots?, grammarTable, List.lookup_cons, String.reduceBEq] at hs
      cases hs
      simp [places, Fields.silent, sourceSlots, nameSlots, keySlots, hk]
  | declarator hoisted =>
    have hk : fs.kind = "VariableDeclarator" := eq_of_beq hv
    simp only [hk, slots?, grammarTable, List.lookup_cons, String.reduceBEq] at hs
    cases hs
    simp [ofView, places, Fields.silent, sourceSlots, nameSlots, keySlots, hk]
  | functionBody =>
    rw [ofView]
    split
    · rename_i hk
      simp only [hk, slots?, grammarTable, List.lookup_cons, String.reduceBEq] at hs
      cases hs
      simp [places, Fields.silent, sourceSlots, nameSlots, keySlots, hk]
    · exact hnode hv
  | importSpecifier =>
    simp only [View.fits, List.contains_iff_mem, List.mem_cons, List.not_mem_nil, or_false] at hv
    rcases hv with hk | hk | hk
    all_goals
      simp only [hk, slots?, grammarTable, List.lookup_cons, String.reduceBEq] at hs
      cases hs
      simp [ofView, places, Fields.silent, sourceSlots, nameSlots, keySlots, hk]
  | exportSpecifier =>
    have hk : fs.kind = "ExportSpecifier" := eq_of_beq hv
    simp only [hk, slots?, grammarTable, List.lookup_cons, String.reduceBEq] at hs
    cases hs
    simp [ofView, places, Fields.silent, sourceSlots, nameSlots, keySlots, hk]

theorem suits_ofView (hs : slots? fs.kind = some slots) {view : View}
    (hv : view.fits fs.kind = true) :
    ∀ l ∈ (ofView fs view).flatMap leaves, l.suits slots = true := by
  have hnode := suits_ofNode hs
  cases view with
  | visit => exact hnode
  | target b =>
    rw [ofView]
    unfold ofTarget
    split
    case h_6 => exact hnode
    all_goals
      rename_i hk
      simp only [hk, slots?, grammarTable, List.lookup_cons, String.reduceBEq] at hs
      cases hs
      exact List.all_eq_true.mp rfl
  | property b =>
    rw [ofView, ofProperty]
    rcases List.mem_pair.mp (List.contains_iff_mem.mp hv) with hk | hk
    all_goals
      simp only [hk, slots?, grammarTable, List.lookup_cons, String.reduceBEq] at hs
      cases hs
      split_ifs <;> first | exact List.all_eq_true.mp rfl | simp_all
  | declarator hoisted =>
    have hk : fs.kind = "VariableDeclarator" := eq_of_beq hv
    simp only [hk, slots?, grammarTable, List.lookup_cons, String.reduceBEq] at hs
    cases hs
    exact List.all_eq_true.mp rfl
  | functionBody =>
    rw [ofView]
    split
    · rename_i hk
      simp only [hk, slots?, grammarTable, List.lookup_cons, String.reduceBEq] at hs
      cases hs
      decide
    · exact hnode
  | importSpecifier => exact List.forall_mem_singleton.mpr rfl
  | exportSpecifier => exact List.forall_mem_singleton.mpr rfl

end Step
end Legible
