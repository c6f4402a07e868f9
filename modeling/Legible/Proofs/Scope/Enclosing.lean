import Legible.Proofs.Scope.Placement

namespace Legible

def inlineKinds : List String :=
  expressionKinds ++ ["ArrayPattern", "AssignmentPattern", "ObjectPattern", "Property", "RestElement",
    "SpreadElement", "TemplateElement"]

def scopedKinds : List String :=
  ["ArrowFunctionExpression", "ClassExpression", "FunctionExpression"]

theorem inline_of_slots : ∀ e ∈ grammarTable, e.1 ∈ inlineKinds → e.1 ∉ scopedKinds →
    ∀ s ∈ e.2, s.2.kinds ⊆ inlineKinds := by
  decide

namespace Step

mutual

def leavesIn (around : Option ScopeKind) : Step → List (Option ScopeKind × Step)
  | .scope kind _ steps => leavesInOf (some kind) steps
  | s => [(around, s)]
termination_by structural s => s

def leavesInOf (around : Option ScopeKind) : List Step → List (Option ScopeKind × Step)
  | [] => []
  | s :: ss => leavesIn around s ++ leavesInOf around ss
termination_by structural ss => ss

end

theorem leavesInOf_eq (around : Option ScopeKind) (ss : List Step) :
    leavesInOf around ss = ss.flatMap (leavesIn around) := by
  induction ss with
  | nil => rfl
  | cons s ss ih => rw [leavesInOf, List.flatMap_cons, ih]

theorem leavesIn_scope (around : Option ScopeKind) (kind : ScopeKind) (dynamic : Bool)
    (ss : List Step) :
    leavesIn around (.scope kind dynamic ss) = ss.flatMap (leavesIn (some kind)) := by
  rw [leavesIn, leavesInOf_eq]

theorem exists_leavesIn {s l : Step} (around : Option ScopeKind) (h : l ∈ s.leaves) :
    ∃ a, (a, l) ∈ s.leavesIn around := by
  induction s generalizing around with
  | scope kind dynamic ss ih =>
    rw [leaves_scope] at h
    obtain ⟨s, hs, hl⟩ := List.mem_flatMap.mp h
    obtain ⟨a, ha⟩ := ih s hs (some kind) hl
    rw [leavesIn_scope]
    exact ⟨a, List.mem_flatMap.mpr ⟨s, hs, ha⟩⟩
  | _ =>
    obtain rfl := List.mem_singleton.mp h
    exact ⟨around, List.mem_singleton_self _⟩

def settled (slots : List (String × Contents)) (made : List ScopeKind)
    (l : Option ScopeKind × Step) : Bool :=
  l.1.any (· != .functionName) || (made.isEmpty && l.1.isNone) ||
    slots.all fun c => !l.2.places.contains (some c.1) || c.2.kinds.all inlineKinds.contains

variable {fs : Fields} {slots : List (String × Contents)}

theorem ofView_of_scoped (h : fs.kind ∈ scopedKinds) {view : View} (hv : view.fits fs.kind = true) :
    ofView fs view = ofNode fs := by
  simp only [scopedKinds, List.mem_cons, List.not_mem_nil, or_false] at h
  cases view with
  | visit => rfl
  | target b => rcases h with h | h | h <;> simp [ofView, ofTarget, h]
  | functionBody => rcases h with h | h | h <;> simp [ofView, h]
  | _ => rcases h with h | h | h <;> simp [View.fits, h] at hv

theorem makes_ne_nil (h : fs.kind ∈ scopedKinds) {view : View} (hv : view.fits fs.kind = true) :
    (ofView fs view).flatMap makes ≠ [] := by
  rw [ofView_of_scoped h hv]
  simp only [scopedKinds, List.mem_cons, List.not_mem_nil, or_false] at h
  rcases h with h | h | h
  · simp [ofNode, h, makes_functionScope]
  · simp [ofNode, h, makes_classScope]
  · simp only [ofNode, h]
    split <;> simp [makes, makesOf_eq, makes_functionScope]

theorem settled_ofNode (hs : slots? fs.kind = some slots) :
    ∀ l ∈ (ofNode fs).flatMap (leavesIn none),
      settled slots ((ofNode fs).flatMap makes) l = true := by
  unfold ofNode
  split
  case h_30 =>
    have hmakes : (fs.childKeys.map (look .either .visit)).flatMap makes = [] := by
      rw [List.flatMap_map]
      exact List.flatMap_eq_nil_iff.mpr fun _ _ => rfl
    rw [hmakes, List.flatMap_map]
    intro l hl
    obtain ⟨key, -, hl⟩ := List.mem_flatMap.mp hl
    obtain rfl := List.mem_singleton.mp hl
    rfl
  all_goals
    rename_i hk
    simp only [hk, slots?, grammarTable, List.lookup_cons, String.reduceBEq] at hs
    try cases hs
  all_goals try simp only [declareIf, functionScope, classScope, loopScope, hk]
  all_goals try split_ifs
  all_goals exact List.all_eq_true.mp rfl

theorem settled_ofView (hs : slots? fs.kind = some slots) (view : View) :
    ∀ l ∈ (ofView fs view).flatMap (leavesIn none),
      settled slots ((ofView fs view).flatMap makes) l = true := by
  have hnode := settled_ofNode hs
  cases view with
  | visit => exact hnode
  | target b =>
    rw [ofView]
    unfold ofTarget
    split
    case h_6 => exact hnode
    all_goals exact List.all_eq_true.mp rfl
  | property b =>
    rw [ofView, ofProperty]
    split_ifs <;> exact List.all_eq_true.mp rfl
  | functionBody =>
    rw [ofView]
    split
    · exact List.all_eq_true.mp rfl
    · exact hnode
  | _ => exact List.all_eq_true.mp rfl

theorem ofNode_program (h : fs.kind = "Program") : ∃ kind dynamic, kind.receives = true ∧
    kind ≠ .functionName ∧ ofNode fs = [.scope kind dynamic [.look .many .visit "body"]] := by
  simp only [ofNode, h]
  split
  · exact ⟨_, _, rfl, by decide, rfl⟩
  · exact ⟨_, _, rfl, by decide, rfl⟩

end Step

theorem Step.ofView_declaration {fs : Fields} (hk : fs.kind = "VariableDeclaration") {view : View}
    (hv : view.fits fs.kind = true) : Step.ofView fs view =
      [.look .many (.declarator ((fs.get "kind").text? == some "var")) "declarations"] := by
  rw [hk] at hv
  cases view with
  | visit => simp [Step.ofView, Step.ofNode, hk]
  | target b => simp [Step.ofView, Step.ofTarget, Step.ofNode, hk]
  | functionBody => simp [Step.ofView, Step.ofNode, hk]
  | _ => cases hv

theorem Item.mem_declaration {tag : Nat} {fs : Fields} (hk : fs.kind = "VariableDeclaration")
    {view : View} (hv : view.fits fs.kind = true) {ds : List Tree} {d : Tree}
    (hds : fs.get "declarations" = .list ds) (hd : d ∈ ds)
    (hid : (d.get "id").isKind "Identifier" = true) :
    .declare .variable ((fs.get "kind").text? == some "var") (d.get "id").name
      (some (d.get "id").tag) ∈ (Step.ofView fs view).flatMap (ofStepAt tag fs) := by
  rw [Step.ofView_declaration hk hv, List.flatMap_singleton, ofStepAt, ofStep, hds, ofLooked_list,
    if_neg (by decide)]
  refine List.mem_flatMap.mpr ⟨d, hd, ?_⟩
  cases d with
  | scalar a => cases hid
  | list ts => cases hid
  | object tag' gs =>
    rw [ofLooked_object, if_pos ⟨by decide, Bool.or_true _⟩, Step.ofView]
    refine List.mem_flatMap.mpr ⟨_, List.mem_cons_self, ?_⟩
    have hbound : ofStepAt tag' gs (.look .one (.target (.declare .variable
        ((fs.get "kind").text? == some "var"))) "id") = _ := ofLooked_target (eq_of_beq hid) _
    rw [hbound]
    exact List.mem_singleton_self _

namespace Scope

variable {root : Scope} {p : Path} {kind : ScopeKind} {block : Block} {is : List Item}

theorem Holds.exists_leaf (h : Holds root p kind block is) {tag : Nat} {fs : Fields} {s : Step}
    (hs : Item.ofStepAt tag fs s ⊆ is) {around a : Option ScopeKind} {l : Step}
    (hl : (a, l) ∈ s.leavesIn around) :
    ∃ p' kind' block' is', Holds root p' kind' block' is' ∧ Item.ofStepAt tag fs l ⊆ is' ∧
      (a = around ∧ p' = p ∧ kind' = kind ∧ block' = block ∨
        a = some kind' ∧ block'.tag = tag) := by
  induction s generalizing p kind block is around with
  | scope k dynamic ss ih =>
    rw [Item.ofStepAt_scope] at hs
    obtain ⟨i, hin⟩ := h.exists_inside (hs List.mem_cons_self)
    rw [Step.leavesIn_scope] at hl
    obtain ⟨s, hss, hl⟩ := List.mem_flatMap.mp hl
    have hsub : Item.ofStepAt tag fs s ⊆ ss.flatMap (Item.ofStepAt tag fs) :=
      fun i hi => List.mem_flatMap.mpr ⟨s, hss, hi⟩
    obtain ⟨p', kind', block', is', hheld, hitems, hcase⟩ := ih s hss hin hsub hl
    refine ⟨p', kind', block', is', hheld, hitems, Or.inr ?_⟩
    rcases hcase with ⟨rfl, -, rfl, rfl⟩ | hcase
    · exact ⟨rfl, rfl⟩
    · exact hcase
  | _ =>
    obtain ⟨rfl, rfl⟩ := Prod.mk.inj (List.mem_singleton.mp hl)
    exact ⟨p, kind, block, is, h, hs, Or.inl ⟨rfl, rfl, rfl, rfl⟩⟩

def enclosing (root : Scope) (way : List (Tree × String)) : List Path :=
  way.filterMap fun e => root.acquire? e.1.tag

theorem enclosing_cons (root : Scope) (e : Tree × String) (way : List (Tree × String)) :
    root.enclosing (e :: way) = (root.acquire? e.1.tag).toList ++ root.enclosing way := by
  rw [enclosing, List.filterMap_cons]
  split <;> rename_i h <;> rw [h] <;> rfl

theorem enclosing_append (root : Scope) (way above : List (Tree × String)) :
    root.enclosing (way ++ above) = root.enclosing way ++ root.enclosing above :=
  List.filterMap_append

structure Speaks (t : Tree) (way : List (Tree × String)) (u : Tree) (p : Path) (is : List Item)
    (view : View) : Prop where
  items : Item.ofLooked .one view u ⊆ is
  fits : view.fits u.fields.kind = true
  suits : view.suits u = true
  told : ∀ x ∈ u.tags,
    (x ∈ Item.told Item.blockTags .visit t ↔ x ∈ Item.told Item.blockTags view u)
  innermost : ((ofTree t).enclosing way).head? = some p ∨ u.fields.kind ∈ inlineKinds

open Legible.Tree

variable {t : Tree} {way : List (Tree × String)}

theorem Speaks.program {tag : Nat} {fs : Fields} (ht : (object tag fs).Numbered)
    (hprogram : (object tag fs).isKind "Program" = true) {key : String} {c : Tree} {s l : Step}
    {view : View} (hleads : Item.Leads tag fs .visit key c s l view) :
    ∃ p kind block is, (ofTree (object tag fs)).Holds p kind block is ∧
      Speaks (object tag fs) [(object tag fs, key)] c p is view := by
  have hkind : Fields.kind fs = "Program" := kind_fields (eq_of_beq hprogram)
  obtain ⟨kind, dynamic, hreceives, hname, hsteps⟩ := Step.ofNode_program hkind
  have hnode := Pattern.isNode_of_kind? (eq_of_beq hprogram)
  have hstep := hleads.step
  rw [Step.ofView, hsteps] at hstep
  obtain rfl := List.mem_singleton.mp hstep
  have hleaf := hleads.leaf
  rw [Step.leaves_scope, List.flatMap_singleton] at hleaf
  obtain rfl := List.mem_singleton.mp hleaf
  have hitems : Item.ofTree .visit (object tag fs) = [.scope kind ⟨tag, Fields.kind fs⟩ dynamic
      (Item.ofStepAt tag fs (.look .many .visit "body"))] := by
    rw [Item.ofTree_eq_ofLooked, Item.ofLooked_object, if_pos ⟨by decide, by rw [hnode]; rfl⟩,
      Step.ofView, hsteps, List.flatMap_singleton, Item.ofStepAt_scope, List.flatMap_singleton]
  have hnames : NamesArguments [.scope kind ⟨tag, Fields.kind fs⟩ dynamic
      (Item.ofStepAt tag fs (.look .many .visit "body"))] := by
    rw [← hitems, Item.ofTree_eq_ofLooked]
    exact Item.implicit_ofLooked
  have hheld := Holds.outermost (ofTree_program hprogram hitems) hreceives hnames.of_scope
  have howner : (ofTree (object tag fs)).acquire? tag = some [] :=
    (acquire?_eq_some_iff hprogram ht).mpr (hheld.mem_owners hname)
  refine ⟨[], kind, _, _, hheld, hleads.items, hleads.fits, hleads.suits,
    hleads.told _ Item.marks_blockTags, Or.inl ?_⟩
  rw [enclosing_cons]
  exact congrArg (fun o : Option Path => (o.toList ++ []).head?) howner

theorem Speaks.child (hprogram : t.isKind "Program" = true) (ht : t.Numbered) {tag : Nat}
    {fs : Fields} {p : Path} {kind : ScopeKind} {block : Block} {is : List Item} {view : View}
    (hheld : (ofTree t).Holds p kind block is)
    (h : Speaks t way (object tag fs) p is view) (hn : (object tag fs).Numbered)
    {slots : List (String × Contents)} (hs : slots? fs.kind = some slots) {e : String × Contents}
    (he : e ∈ slots) {c : Tree} (hsub : c.tags ⊆ (object tag fs).tags)
    (hkind : c.fields.kind ∈ e.2.kinds) {s l : Step} {view' : View}
    (hleads : Item.Leads tag fs view e.1 c s l view') :
    ∃ p' kind' block' is', (ofTree t).Holds p' kind' block' is' ∧
      Speaks t ((object tag fs, e.1) :: way) c p' is' view' := by
  have hnode := Pattern.isNode_of_kind? (Step.kind?_of_slots hs tag)
  have hitems : Item.ofStepAt tag fs s ⊆ is := by
    refine fun i hi => h.items ?_
    rw [Item.ofLooked_object, if_pos ⟨by decide, by rw [hnode]; rfl⟩]
    exact List.mem_flatMap.mpr ⟨s, hleads.step, hi⟩
  obtain ⟨a, ha⟩ := Step.exists_leavesIn none hleads.leaf
  obtain ⟨p', kind', block', is', hheld', hitems', hcase⟩ := hheld.exists_leaf hitems ha
  have hsettled := Step.settled_ofView hs view (a, l) (List.mem_flatMap.mpr ⟨s, hleads.step, ha⟩)
  refine ⟨p', kind', block', is', hheld', fun i hi => hitems' (hleads.items hi), hleads.fits,
    hleads.suits,
    fun x hx => (h.told x (hsub hx)).trans (hleads.told _ Item.marks_blockTags x hx), ?_⟩
  rw [enclosing_cons]
  rw [Step.settled, Bool.or_eq_true, Bool.or_eq_true, Bool.and_eq_true] at hsettled
  rcases hsettled with (hinside | ⟨hmakes, hnone⟩) | hinline
  · -- The leaf is inside the scope of the node.
    rcases hcase with ⟨rfl, -⟩ | ⟨rfl, rfl⟩
    · cases hinside
    · have howner : (ofTree t).acquire? (object block'.tag fs).tag = some p' :=
        (acquire?_eq_some_iff hprogram ht).mpr (hheld'.mem_owners (by simpa using hinside))
      exact Or.inl (by rw [howner]; rfl)
  · -- The node makes no scope.
    have hmakes := List.isEmpty_iff.mp hmakes
    have hself : tag ∈ (object tag fs).tags := tag_mem_tags hnode
    have howner : (ofTree t).acquire? (object tag fs).tag = none :=
      acquire?_eq_none hprogram hn h.suits (h.told tag hself) hmakes
    rcases hcase with ⟨-, rfl, -⟩ | ⟨rfl, -⟩
    · refine h.innermost.imp (fun hhead => ?_) fun hinline => ?_
      · rw [howner]
        exact hhead
      · have hplain : fs.kind ∉ scopedKinds := fun hscoped =>
          Step.makes_ne_nil hscoped h.fits hmakes
        exact inline_of_slots _ (mem_grammarTable hs) hinline hplain e he hkind
    · cases hnone
  · -- The leaf looks for an expression.
    have hkinds := List.all_eq_true.mp hinline e he
    rw [List.contains_iff_mem.mpr hleads.place] at hkinds
    exact Or.inr (List.contains_iff_mem.mp (List.all_eq_true.mp hkinds _ hkind))

end Scope

namespace Tree

open Legible.Scope

theorem Stands.exists_speaks {t u : Tree} {way : List (Tree × String)}
    (hprogram : t.isKind "Program" = true) (ht : t.Numbered) (hf : t.formed true = true)
    (h : Stands t way u) (hway : silenced way = false) (hne : way ≠ []) :
    ∃ p kind block is view, (ofTree t).Holds p kind block is ∧ Speaks t way u p is view := by
  induction h with
  | self => exact absurd rfl hne
  | @child way u key c hu hkey hc ih =>
    rw [silenced, List.any_cons, ← silenced, Bool.or_eq_false_iff] at hway
    have hn := hu.numbered ht
    obtain ⟨tag, fs, slots, rfl, hs, e, he, rfl, hheld, hadmits, -⟩ :=
      exists_slot (hu.formed hf) hkey hc
    have hsub : c.tags ⊆ (object tag fs).tags := List.map_subset _ (objects_childrenAt hc)
    obtain ⟨kind, hkind, hk⟩ := Contents.kind_of_admits hadmits hheld
    rw [← kind_fields hk] at hkind
    by_cases hnil : way = []
    · subst hnil
      cases hu
      have hv : View.visit.fits (Fields.kind fs) = true := by
        rw [show Fields.kind fs = "Program" from kind_fields (eq_of_beq hprogram)]
        rfl
      obtain ⟨s, l, view, hleads⟩ := Item.exists_leads hn hs rfl hheld hv he hadmits hway.1
      obtain ⟨p, kind, block, is, hchild⟩ := Speaks.program ht hprogram hleads
      exact ⟨p, kind, block, is, view, hchild⟩
    · obtain ⟨p, kind, block, is, view, hholds, hspeaks⟩ := ih hway.2 hnil
      obtain ⟨s, l, view', hleads⟩ :=
        Item.exists_leads hn hs hspeaks.suits hheld hspeaks.fits he hadmits hway.1
      obtain ⟨p', kind', block', is', hchild⟩ :=
        hspeaks.child hprogram ht hholds hn hs he hsub hkind hleads
      exact ⟨p', kind', block', is', view', hchild⟩

section

variable {t u : Tree} {way : List (Tree × String)} (hprogram : t.isKind "Program" = true)
  (ht : t.Numbered) (hf : t.formed true = true) (hs : ∀ o ∈ t.objects, o.2.spelled = true)
  (h : Stands t way u) (hu : u.isKind "VariableDeclaration" = true)

include hprogram ht hf hs h hu

theorem Stands.exists_speaks_of_declaration : ∃ p kind block is view,
    (ofTree t).Holds p kind block is ∧ Speaks t way u p is view ∧
      ((ofTree t).enclosing way).head? = some p := by
  have hkind : u.fields.kind = "VariableDeclaration" := kind_fields (eq_of_beq hu)
  have hloud := h.not_silenced hf hs (by rw [hkind]; decide)
  have hne : way ≠ [] := by
    rintro rfl
    cases h
    have hboth := (kind_fields (eq_of_beq hprogram)).symm.trans hkind
    exact absurd hboth (by decide)
  obtain ⟨p, kind, block, is, view, hheld, hspeaks⟩ := h.exists_speaks hprogram ht hf hloud hne
  exact ⟨p, kind, block, is, view, hheld, hspeaks,
    hspeaks.innermost.resolve_right (by rw [hkind]; decide)⟩

theorem Stands.acquire?_declaration : (ofTree t).acquire? u.tag = none := by
  obtain ⟨p, kind, block, is, view, -, hspeaks, -⟩ :=
    h.exists_speaks_of_declaration hprogram ht hf hs hu
  have hnode := Pattern.isNode_of_kind? (eq_of_beq hu)
  obtain ⟨tag, fs, rfl⟩ := eq_object_of_isNode hnode
  have hkind : Fields.kind fs = "VariableDeclaration" := kind_fields (eq_of_beq hu)
  refine acquire?_eq_none hprogram (h.numbered ht) hspeaks.suits
    (hspeaks.told tag (tag_mem_tags hnode)) ?_
  rw [Step.ofView_declaration hkind hspeaks.fits]
  rfl

theorem Stands.exists_variable {ds : List Tree} {d : Tree}
    (hds : u.get "declarations" = .list ds) (hd : d ∈ ds)
    (hid : (d.get "id").isKind "Identifier" = true) :
    ∃ q, ((ofTree t).enclosing way).head? = some q ∧
      ∃ c, (ofTree t).at? ((ofTree t).restOf u q) = some c ∧
        ∃ v ∈ c.declared, (d.get "id").tag ∈ v.identifiers := by
  obtain ⟨p, kind, block, is, view, hheld, hspeaks, hhead⟩ :=
    h.exists_speaks_of_declaration hprogram ht hf hs hu
  have hnode := Pattern.isNode_of_kind? (eq_of_beq hu)
  obtain ⟨tag, fs, rfl⟩ := eq_object_of_isNode hnode
  have hkind : Fields.kind fs = "VariableDeclaration" := kind_fields (eq_of_beq hu)
  have hsub := hspeaks.items
  rw [Item.ofLooked_object, if_pos ⟨by decide, by rw [hnode]; rfl⟩] at hsub
  exact ⟨p, hhead, hheld.declares (hsub (Item.mem_declaration hkind hspeaks.fits hds hd hid))⟩

end

end Tree

end Legible
