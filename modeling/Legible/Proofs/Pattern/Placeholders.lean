import Legible.Proofs.Pattern.Rendering
import Legible.Proofs.Pattern.Build
import Legible.Proofs.Pattern.RoundTrip
import Legible.Script

namespace Legible

inductive Stands : Tree → Placeholder → Prop
  | identifier {t : Tree} {b : Placeholder} {suffix : String} (kind : t.isKind "Identifier" = true)
      (spells : Spells t.name b suffix) : Stands t b
  | statement {t c : Tree} {b : Placeholder} (kind : t.isKind "ExpressionStatement" = true)
      (expression : t.field? "expression" = some c) (inner : Stands c b)
      (sort : b.isStatement = true) : Stands t b
  | declarator {t c : Tree} {b : Placeholder} (kind : t.isKind "VariableDeclarator" = true)
      (id : t.field? "id" = some c) (init : (t.get "init").isNull = true) (inner : Stands c b)
      (sort : b.isExpression = true) : Stands t b

theorem Stands.isNode {t : Tree} {b : Placeholder} (hs : Stands t b) : t.isNode = true := by
  cases hs with
  | identifier kind => exact Pattern.isNode_of_kind? (beq_iff_eq.mp kind)
  | statement kind => exact Pattern.isNode_of_kind? (beq_iff_eq.mp kind)
  | declarator kind => exact Pattern.isNode_of_kind? (beq_iff_eq.mp kind)

namespace Pattern

theorem isKind_of_ne {t : Tree} {kind kind' : String} (hk : t.isKind kind = true)
    (hne : kind ≠ kind') : t.isKind kind' = false := by
  rw [Tree.isKind, beq_iff_eq.mp hk]
  simpa using hne

/-! ### Nodes that become placeholders -/

section

variable {children : List (String × Pattern)} {h : Placeholder}

theorem carried?_expressionStatement : carried? "ExpressionStatement" children = some h ↔
    children.lookup "expression" = some (.hole h) ∧ h.isStatement = true := by
  rw [carried?]
  generalize children.lookup "expression" = expression
  constructor
  · intro hc
    rcases expression with _ | ⟨⟨name, _ | _ | _, optional, repeatable⟩⟩ | _ | _ | _ <;> cases hc
    exact ⟨rfl, rfl⟩
  · rintro ⟨rfl, hsort⟩
    obtain ⟨name, slot, optional, repeatable⟩ := h
    cases slot with
    | statement sort multiLine => rfl
    | expression sort orDeclaration declarator => cases hsort
    | text => cases hsort

theorem carried?_variableDeclarator : carried? "VariableDeclarator" children = some h ↔
    ∃ h', children.lookup "id" = some (.hole h') ∧ h'.isExpression = true ∧
      (children.lookup "init").getD (.scalar .null) = .scalar .null ∧ h'.declaring true = h := by
  rw [carried?]
  generalize children.lookup "id" = id
  generalize (children.lookup "init").getD (.scalar .null) = init
  constructor
  · intro hc
    rcases id with _ | ⟨⟨name, _ | _ | _, optional, repeatable⟩⟩ | _ | _ | _ <;>
      rcases init with _ | ⟨_ | _ | _ | _ | _⟩ | _ | _ <;> cases hc
    exact ⟨_, rfl, rfl, rfl, rfl⟩
  · rintro ⟨⟨name, slot, optional, repeatable⟩, rfl, hsort, rfl, rfl⟩
    cases slot with
    | expression sort orDeclaration declarator => rfl
    | statement sort multiLine => cases hsort
    | text => cases hsort

theorem kind_of_carried? {kind : String} (hc : carried? kind children = some h) :
    kind = "ExpressionStatement" ∨ kind = "VariableDeclarator" := by
  by_contra hkind
  rw [not_or] at hkind
  rw [carried?] at hc
  · cases hc
  · exact hkind.1
  · exact hkind.2

end

section

variable {known : Known} {t c v : Tree} {key kind : String} {h b : Placeholder}

theorem lookup_renderChildren (known : Known) (hkey : key ∈ t.childKeys) :
    (renderChildren known t).lookup key = some (renderContents known (t.get key)) := by
  rw [renderChildren]
  generalize t.childKeys = keys at hkey
  induction keys with
  | nil => cases hkey
  | cons k ks ih =>
    rw [List.map_cons, List.lookup_cons]
    by_cases hk : key = k
    · rw [hk, beq_self_eq_true]
    · rw [beq_false_of_ne hk]
      exact ih ((List.mem_cons.mp hkey).resolve_left hk)

theorem lookup_renderChildren_of_not_mem (known : Known) (hkey : key ∉ t.childKeys) :
    (renderChildren known t).lookup key = none := by
  rw [List.lookup_eq_none_iff]
  intro e he
  obtain ⟨k, hk, rfl⟩ := List.mem_map.mp he
  exact bne_iff_ne.mpr (ne_of_mem_of_not_mem hk hkey).symm

theorem renderNode_cases (known : Known) (t : Tree) (children : List (String × Pattern)) :
    (∃ h, renderNode known t children = .hole h) ∨
      renderNode known t children = plainNode t.fields children := by
  rw [renderNode]
  generalize (if t.kind = "Identifier" then known.placeholder? t.name
    else carried? t.kind children) = o
  cases o with
  | none => exact Or.inr rfl
  | some h => exact Or.inl ⟨h, rfl⟩

theorem isNode_of_render_eq_hole (hr : renderContents known v = .hole h) :
    v.isNode = true ∧ render known v = .hole h := by
  cases v with
  | scalar a => cases hr
  | list ts => cases hr
  | object tag fs =>
    rw [renderContents_object] at hr
    refine ⟨?_, hr⟩
    by_contra hn
    rw [render_of_not_isNode known (Bool.of_not_eq_true hn)] at hr
    cases hr

theorem render_object (known : Known) (tag : Nat) (fs : Fields) :
    (∃ h, render known (.object tag fs) = .hole h) ∨
      ∃ gs, render known (.object tag fs) = .object gs := by
  by_cases hn : (Tree.object tag fs).isNode = true
  · rw [render_of_isNode known hn]
    exact (renderNode_cases known _ _).imp_right fun hplain => ⟨_, hplain⟩
  · rw [render_of_not_isNode known (Bool.of_not_eq_true hn)]
    exact Or.inr ⟨_, rfl⟩

theorem renderContents_eq_scalar_iff {a : Scalar} :
    renderContents known v = .scalar a ↔ v = .scalar a := by
  cases v with
  | scalar b => simp [renderContents, render, ofTree]
  | list ts => simp [renderContents]
  | object tag fs =>
    rw [renderContents_object]
    rcases render_object known tag fs with ⟨h, hh⟩ | ⟨gs, hgs⟩
    · simp [hh]
    · simp [hgs]

theorem exists_of_renderContents_eq_list {qs : List Pattern}
    (h : renderContents known v = .list qs) : ∃ cs, v = .list cs ∧ cs.map (render known) = qs := by
  cases v with
  | scalar a => cases h
  | list cs => exact ⟨cs, rfl, Pattern.list.inj h⟩
  | object tag fs =>
    rw [renderContents_object] at h
    rcases render_object known tag fs with ⟨h', hh⟩ | ⟨gs, hgs⟩
    · cases hh.symm.trans h
    · cases hgs.symm.trans h

/-! ### Placeholders and where they stand -/

theorem identifierNames_subset (hn : t.isNode = true) (hkey : key ∈ t.childKeys)
    (hc : c ∈ t.childrenAt key) : c.identifierNames ⊆ t.identifierNames := by
  intro w hw
  rw [Tree.identifierNames_of_isNode hn]
  apply List.mem_append_left
  exact List.mem_flatMap.mpr ⟨key, hkey, List.mem_flatMap.mpr ⟨c, hc, hw⟩⟩

theorem childrenAt_of_field? (hc : t.field? key = some c) (hn : c.isNode = true) :
    c ∈ t.childrenAt key := by
  rw [Tree.childrenAt, Tree.get, hc, Option.getD_some]
  exact Tree.self_mem_heldNodes hn

theorem renderContents_of_isNode (known : Known) (hn : c.isNode = true) :
    renderContents known c = render known c := by
  obtain ⟨tag, fs, rfl⟩ := Tree.eq_object_of_isNode hn
  rfl

theorem some_of_getD_eq_hole {o : Option Placeholder} {fs : Fields}
    {children : List (String × Pattern)}
    (ho : (o.map .hole).getD (plainNode fs children) = .hole h) : o = some h := by
  cases o with
  | none => cases ho
  | some h' => exact congrArg some (Pattern.hole.inj ho)

theorem field?_of_isNode (hn : (t.get key).isNode = true) : t.field? key = some (t.get key) := by
  rw [Tree.get] at hn ⊢
  cases hf : t.field? key with
  | none =>
    rw [hf] at hn
    cases hn
  | some v => rfl

variable {ws : List String} (ht : Tabulates ws known)

include ht

theorem render_of_stands (hs : Stands t b) (hsub : t.identifierNames ⊆ ws) :
    ∃ first p, known.lookup b.name = some (first, p) ∧ b.Variant p ∧
      render known t = .hole (p.declaring (t.isKind "VariableDeclarator")) := by
  induction hs with
  | @identifier t b suffix kind spells =>
    have hn : t.isNode = true := isNode_of_kind? (beq_iff_eq.mp kind)
    have hmem : t.name ∈ ws := by
      apply hsub
      rw [Tree.identifierNames_of_isNode hn, if_pos kind]
      exact List.mem_append_right _ (List.mem_singleton_self _)
    obtain ⟨⟨first, p⟩, hl⟩ := ht.complete _ hmem b suffix spells
    obtain ⟨-, hp⟩ := ht.first_of_lookup spells hl
    have hfound : known.placeholder? t.name = some p := by
      rw [Known.placeholder?, spelledPlaceholder_eq_some_iff.mpr spells, Option.bind_some, hl]
      rfl
    refine ⟨first, p, hl, hp, ?_⟩
    rw [isKind_of_ne kind (by decide), hp.declaring_false spells.declaring_false,
      render_of_isNode known hn, renderNode, if_pos ((kind_eq_iff (by decide)).mpr kind), hfound]
    rfl
  | @statement t c b kind expression inner sort ih =>
    have hn : t.isNode = true := isNode_of_kind? (beq_iff_eq.mp kind)
    have hkey : "expression" ∈ t.childKeys := Tree.mem_childKeys_of_isKind kind rfl (by simp)
    have hc := childrenAt_of_field? expression inner.isNode
    obtain ⟨first, p, hl, hp, hr⟩ := ih (List.Subset.trans (identifierNames_subset hn hkey hc) hsub)
    have hstatement : p.isStatement = true := hp.isStatement.trans sort
    rw [Placeholder.declaring_of_isStatement hstatement] at hr
    have hq := lookup_renderChildren known hkey
    rw [Tree.get, expression, Option.getD_some, renderContents_of_isNode known inner.isNode, hr] at hq
    refine ⟨first, p, hl, hp, ?_⟩
    rw [Placeholder.declaring_of_isStatement hstatement, render_of_isNode known hn, renderNode,
      (kind_eq_iff (by decide)).mpr kind, if_neg (by decide),
      carried?_expressionStatement.mpr ⟨hq, hstatement⟩]
    rfl
  | @declarator t c b kind id init inner sort ih =>
    have hn : t.isNode = true := isNode_of_kind? (beq_iff_eq.mp kind)
    have hkey : "id" ∈ t.childKeys := Tree.mem_childKeys_of_isKind kind rfl (by simp)
    have hinit : "init" ∈ t.childKeys := Tree.mem_childKeys_of_isKind kind rfl (by simp)
    have hc := childrenAt_of_field? id inner.isNode
    obtain ⟨first, p, hl, hp, hr⟩ := ih (List.Subset.trans (identifierNames_subset hn hkey hc) hsub)
    have hq := lookup_renderChildren known hkey
    rw [Tree.get, id, Option.getD_some, renderContents_of_isNode known inner.isNode, hr] at hq
    have hi := lookup_renderChildren known hinit
    rw [Tree.eq_null_of_isNull init] at hi
    refine ⟨first, p, hl, hp, ?_⟩
    rw [kind, render_of_isNode known hn, renderNode, (kind_eq_iff (by decide)).mpr kind,
      if_neg (by decide), carried?_variableDeclarator.mpr ⟨_, hq, ?_, ?_, rfl⟩]
    · simp
    · simpa using hp.isExpression.trans sort
    · rw [hi]
      rfl

theorem stands_of_render (hn : t.isNode = true) (hr : render known t = .hole h) :
    ∃ b first p, Stands t b ∧ known.lookup b.name = some (first, p) ∧ b.Variant p ∧
      h = p.declaring (t.isKind "VariableDeclarator") := by
  induction t using Tree.children_induction generalizing h with
  | node t ih =>
    rw [render_of_isNode known hn, renderNode] at hr
    by_cases hid : t.isKind "Identifier" = true
    · rw [if_pos ((kind_eq_iff (by decide)).mpr hid)] at hr
      obtain ⟨⟨b, suffix⟩, hs, hl⟩ := Option.bind_eq_some_iff.mp (some_of_getD_eq_hole hr)
      obtain ⟨⟨first, p⟩, hfound, rfl⟩ := Option.map_eq_some_iff.mp hl
      have hspells := spelledPlaceholder_eq_some_iff.mp hs
      obtain ⟨-, hp⟩ := ht.first_of_lookup hspells hfound
      refine ⟨b, first, p, .identifier hid hspells, hfound, hp, ?_⟩
      rw [isKind_of_ne hid (by decide), hp.declaring_false hspells.declaring_false]
    · rw [if_neg fun hk => hid ((kind_eq_iff (by decide)).mp hk)] at hr
      have hr := some_of_getD_eq_hole hr
      have hchild : ∀ {key h'}, key ∈ t.childKeys →
          (renderChildren known t).lookup key = some (.hole h') → ∃ c b first p,
            t.field? key = some c ∧ Stands c b ∧ known.lookup b.name = some (first, p) ∧
            b.Variant p ∧ h' = p.declaring (c.isKind "VariableDeclarator") := by
        intro key h' hkey hl
        rw [lookup_renderChildren known hkey] at hl
        obtain ⟨hcn, hc⟩ := isNode_of_render_eq_hole (Option.some.inj hl)
        have hfield := field?_of_isNode hcn
        have hmem := Tree.mem_children.mpr ⟨key, hkey, childrenAt_of_field? hfield hcn⟩
        obtain ⟨b, first, p, hb, hl, hp, he⟩ := ih _ hmem hcn hc
        exact ⟨_, b, first, p, hfield, hb, hl, hp, he⟩
      rcases kind_of_carried? hr with hkind | hkind
      · rw [hkind, carried?_expressionStatement] at hr
        have hkind := (kind_eq_iff (by decide)).mp hkind
        obtain ⟨c, b, first, p, hc, hb, hl, hp, rfl⟩ :=
          hchild (Tree.mem_childKeys_of_isKind hkind rfl (by simp)) hr.1
        have hsort : p.isStatement = true := (p.isStatement_declaring _).symm.trans hr.2
        refine ⟨b, first, p, .statement hkind hc hb (hp.isStatement.symm.trans hsort), hl, hp, ?_⟩
        rw [Placeholder.declaring_of_isStatement hsort, Placeholder.declaring_of_isStatement hsort]
      · rw [hkind, carried?_variableDeclarator] at hr
        obtain ⟨h', hid, hsort, hinit, rfl⟩ := hr
        have hkind := (kind_eq_iff (by decide)).mp hkind
        obtain ⟨c, b, first, p, hc, hb, hl, hp, rfl⟩ :=
          hchild (Tree.mem_childKeys_of_isKind hkind rfl (by simp)) hid
        rw [Placeholder.isExpression_declaring] at hsort
        rw [lookup_renderChildren known (Tree.mem_childKeys_of_isKind hkind rfl (by simp)),
          Option.getD_some, renderContents_eq_scalar_iff] at hinit
        refine ⟨b, first, p, .declarator hkind hc (by rw [hinit]; rfl) hb
          (hp.isExpression.symm.trans hsort), hl, hp, ?_⟩
        rw [hkind, Placeholder.declaring_declaring]

end

/-! ### Places -/

/-- A place of a pattern that child fields lead to, and what stands there in the tree. -/
inductive Aligned (p : Pattern) (u : Tree) : Pattern → Tree → Prop
  | root : Aligned p u p u
  | field {q r : Pattern} {t c : Tree} {key : String} (parent : Aligned p u q t)
      (node : t.isNode = true) (child : key ∈ t.childKeys) (found : t.field? key = some c)
      (same : q.field? key = some r) : Aligned p u r c
  | item {q r : Pattern} {t c : Tree} {key : String} {qs : List Pattern} {cs : List Tree} {i : Nat}
      (parent : Aligned p u q t) (node : t.isNode = true) (child : key ∈ t.childKeys)
      (found : t.field? key = some (.list cs)) (same : q.field? key = some (.list qs))
      (foundItem : cs[i]? = some c) (sameItem : qs[i]? = some r) : Aligned p u r c

theorem Aligned.trans {p q r : Pattern} {t u c : Tree} (h : Aligned p t q u) (h' : Aligned q u r c) :
    Aligned p t r c := by
  induction h' with
  | root => exact h
  | field _ node child found same ih => exact .field ih node child found same
  | item _ node child found same foundItem sameItem ih =>
    exact .item ih node child found same foundItem sameItem

/-- What is right about a place where a node stands in the tree. -/
structure Placed (q : Pattern) (c : Tree) : Prop where
  stands : ∀ name, (∃ h, q = .hole h ∧ h.name = name) ↔ ∃ b, Stands c b ∧ b.name = name
  marked : ∀ name sort orDeclaration declarator optional repeatable,
    q = .hole ⟨name, .expression sort orDeclaration declarator, optional, repeatable⟩ →
      (declarator = true ↔ c.isKind "VariableDeclarator" = true)
  identifier : q.isKind "Identifier" = true → ∀ w, q.field? "name" = some (.scalar (.text w)) →
    ∀ b suffix, ¬ Spells w b suffix
  fields : ∀ gs, q = .object gs → gs.map (·.1) = c.fields.map (·.1)
  items : ∀ gs, q = .object gs → ∀ key ∈ c.childKeys, ∀ n : ℕ,
    (∃ qs, q.field? key = some (.list qs) ∧ qs.length = n) ↔
      ∃ cs, c.field? key = some (.list cs) ∧ cs.length = n
  texts : ∀ gs, q = .object gs → ∀ key s, c.field? key = some (.text s) →
    q.field? key = some (if isIgnored key = false ∧ isTextPlaceholder s = true then
      .hole ⟨s, .text, false, false⟩ else .scalar (.text s))

section

variable {known : Known} {t c v : Tree} {q : Pattern} {key : String}

theorem lookup_map_fields (fs : Fields) (key : String) (f : String → Tree → Pattern) :
    (fs.map fun g => (g.1, f g.1 g.2)).lookup key = (fs.lookup key).map (f key) := by
  induction fs with
  | nil => rfl
  | cons g fs ih =>
    rw [List.map_cons, List.lookup_cons, List.lookup_cons, ih]
    by_cases hk : key = g.1
    · simp [hk]
    · simp [beq_false_of_ne hk]

theorem field?_render (hn : t.isNode = true) {gs : List (String × Pattern)}
    (hr : render known t = .object gs) (key : String) :
    (Pattern.object gs).field? key = (t.field? key).map fun v =>
      ofText key (if key ∈ t.childKeys then renderContents known v else ofTree v) := by
  rw [render_of_isNode known hn] at hr
  rcases renderNode_cases known t (renderChildren known t) with ⟨h, hh⟩ | hplain
  · rw [hh] at hr
    cases hr
  · rw [← hr, hplain, plainNode, field?, lookup_map_fields t.fields key fun k v =>
      ofText k (((renderChildren known t).lookup k).getD (ofTree v)), Tree.field?]
    cases hv : t.fields.lookup key with
    | none => rfl
    | some v =>
      have hget : t.get key = v := by rw [Tree.get, Tree.field?, hv, Option.getD_some]
      rw [Option.map_some, Option.map_some]
      split
      · rename_i hkey
        rw [lookup_renderChildren known hkey, hget, Option.getD_some]
      · rename_i hkey
        rw [lookup_renderChildren_of_not_mem known hkey, Option.getD_none]

theorem fields_render (hn : t.isNode = true) {gs : List (String × Pattern)}
    (hr : render known t = .object gs) : gs.map (·.1) = t.fields.map (·.1) := by
  rw [render_of_isNode known hn] at hr
  rcases renderNode_cases known t (renderChildren known t) with ⟨h, hh⟩ | hplain
  · rw [hh] at hr
    cases hr
  · rw [hplain, plainNode] at hr
    rw [← Pattern.object.inj hr, List.map_map]
    rfl

theorem eq_of_ofText {p r : Pattern} (h : ofText key p = r) (hr : ∀ h, r ≠ .hole h) : p = r := by
  unfold ofText at h
  split at h
  · split at h
    · exact absurd h.symm (hr _)
    · exact h
  · exact h

theorem ofTree_eq_scalar {a : Scalar} (h : ofTree v = .scalar a) : v = .scalar a := by
  cases v with
  | scalar b => exact congrArg Tree.scalar (Pattern.scalar.inj h)
  | list ts => cases h
  | object tag fs => cases h

theorem exists_field?_of_render (hn : t.isNode = true)
    (hq : (render known t).field? key = some q) : ∃ v, t.field? key = some v ∧
      ofText key (if key ∈ t.childKeys then renderContents known v else ofTree v) = q := by
  cases hr : render known t with
  | object gs =>
    rw [hr, field?_render hn hr] at hq
    exact Option.map_eq_some_iff.mp hq
  | _ =>
    rw [hr] at hq
    cases hq

theorem text_of_render (hn : t.isNode = true) {s : String}
    (hf : (render known t).field? key = some (.scalar (.text s))) : t.field? key = some (.text s) := by
  obtain ⟨v, hv, he⟩ := exists_field?_of_render hn hf
  have hcontents := eq_of_ofText he nofun
  rw [hv]
  split at hcontents
  · rw [renderContents_eq_scalar_iff.mp hcontents]
  · rw [ofTree_eq_scalar hcontents]

theorem list_of_render (hn : t.isNode = true) (hkey : key ∈ t.childKeys) {qs : List Pattern}
    (hf : (render known t).field? key = some (.list qs)) :
    ∃ cs, t.field? key = some (.list cs) ∧ cs.map (render known) = qs := by
  obtain ⟨v, hv, he⟩ := exists_field?_of_render hn hf
  rw [if_pos hkey] at he
  obtain ⟨cs, rfl, hcs⟩ := exists_of_renderContents_eq_list (eq_of_ofText he nofun)
  exact ⟨cs, hv, hcs⟩

theorem ofText_render (hc : c.isNode = true) (key : String) :
    ofText key (renderContents known c) = render known c := by
  rw [renderContents_of_isNode known hc, render_of_isNode known hc]
  rcases renderNode_cases known c (renderChildren known c) with ⟨h, hh⟩ | hplain
  · rw [hh]
    rfl
  · rw [hplain]
    rfl

theorem aligned_render {u : Tree} (h : Aligned (render known u) u q c) (hc : c.isNode = true) :
    q = render known c ∧ c.identifierNames ⊆ u.identifierNames := by
  induction h with
  | root => exact ⟨rfl, List.Subset.refl _⟩
  | @field q r t c key parent node child found same ih =>
    obtain ⟨rfl, hsub⟩ := ih node
    have hmem := childrenAt_of_field? found hc
    refine ⟨?_, List.Subset.trans (identifierNames_subset node child hmem) hsub⟩
    obtain ⟨v, hv, he⟩ := exists_field?_of_render node same
    obtain rfl := Option.some.inj (found.symm.trans hv)
    rw [if_pos child, ofText_render hc] at he
    exact he.symm
  | @item q r t c key qs cs i parent node child found same foundItem sameItem ih =>
    obtain ⟨rfl, hsub⟩ := ih node
    have hmem : c ∈ t.childrenAt key := by
      rw [Tree.childrenAt, Tree.get, found, Option.getD_some]
      exact Tree.mem_heldNodes_of_list.mpr ⟨List.mem_of_getElem? foundItem, hc⟩
    refine ⟨?_, List.Subset.trans (identifierNames_subset node child hmem) hsub⟩
    obtain ⟨cs', hcs', rfl⟩ := list_of_render node child same
    obtain rfl := Tree.list.inj (Option.some.inj (found.symm.trans hcs'))
    rw [List.getElem?_map, foundItem] at sameItem
    exact (Option.some.inj sameItem).symm

theorem isNode_of_kind?_render (hk : (render known c).kind?.isSome = true) : c.isNode = true := by
  by_contra hn
  rw [render_of_not_isNode known (Bool.of_not_eq_true hn)] at hk
  cases c with
  | scalar a => cases hk
  | list ts => cases hk
  | object tag fs =>
    have hnone : (ofTree (.object tag fs)).field? "type" = none := by
      rw [ofTree, ofFields_eq, field?, lookup_map_fields fs "type" fun _ v => ofTree v]
      cases hl : fs.lookup "type" with
      | none => rfl
      | some v => exact absurd (congrArg Option.isSome hl) hn
    rw [kind?, hnone] at hk
    cases hk

theorem isNode_of_aligned {u : Tree} (h : Aligned (render known u) u q c)
    (hk : q.kind?.isSome = true) : c.isNode = true := by
  cases h with
  | root => exact isNode_of_kind?_render hk
  | @field q r t c key parent node child found same =>
    obtain ⟨rfl, -⟩ := aligned_render parent node
    obtain ⟨v, hv, he⟩ := exists_field?_of_render node same
    obtain rfl := Option.some.inj (found.symm.trans hv)
    rw [if_pos child] at he
    obtain rfl : renderContents known c = q := eq_of_ofText he (by rintro h rfl; cases hk)
    cases c with
    | object tag fs => exact isNode_of_kind?_render hk
    | scalar a => cases hk
    | list ts => cases hk
  | @item q r t c key qs cs i parent node child found same foundItem sameItem =>
    obtain ⟨rfl, -⟩ := aligned_render parent node
    obtain ⟨cs', hcs', rfl⟩ := list_of_render node child same
    obtain rfl := Tree.list.inj (Option.some.inj (found.symm.trans hcs'))
    rw [List.getElem?_map, foundItem] at sameItem
    obtain rfl := Option.some.inj sameItem
    exact isNode_of_kind?_render hk

theorem kind?_of_render (hn : t.isNode = true) {kind : String}
    (hk : (render known t).isKind kind = true) : t.isKind kind = true := by
  rw [isKind, kind?, beq_iff_eq] at hk
  split at hk
  · rename_i s hs
    cases hk
    rw [Tree.isKind, Tree.kind?, Tree.get, text_of_render hn hs]
    simp [Tree.text?]
  · cases hk

theorem placed_render {ws : List String} (ht : Tabulates ws known) (hn : t.isNode = true)
    (hsub : t.identifierNames ⊆ ws) : Placed (render known t) t := by
  have hstands : ∀ {b}, Stands t b → ∃ h, render known t = .hole h ∧ h.name = b.name := by
    intro b hb
    obtain ⟨-, p, -, hp, hr⟩ := render_of_stands ht hb hsub
    exact ⟨_, hr, (p.name_declaring _).trans hp.name⟩
  constructor
  · intro name
    constructor
    · rintro ⟨_, hr, rfl⟩
      obtain ⟨b, -, p, hb, -, hp, rfl⟩ := stands_of_render ht hn hr
      exact ⟨b, hb, hp.name.symm.trans (p.name_declaring _).symm⟩
    · rintro ⟨b, hb, rfl⟩
      exact hstands hb
  · intro name sort orDeclaration declarator optional repeatable hr
    obtain ⟨-, -, ⟨_, slot, _, _⟩, -, -, -, he⟩ := stands_of_render ht hn hr
    cases slot with
    | expression sort' orDeclaration' declarator' =>
      cases he
      exact Iff.rfl
    | statement sort' multiLine => cases he
    | text => cases he
  · intro hk w hw b suffix hs
    have hname : t.name = w := by
      rw [Tree.name, Tree.get, text_of_render hn hw]
      rfl
    obtain ⟨h, hr, -⟩ := hstands (.identifier (kind?_of_render hn hk) (hname ▸ hs))
    rw [hr] at hk
    cases hk
  · intro gs hr
    exact fields_render hn hr
  · intro gs hr key hkey n
    constructor
    · rintro ⟨qs, hqs, rfl⟩
      obtain ⟨cs, hcs, rfl⟩ := list_of_render hn hkey hqs
      exact ⟨cs, hcs, (List.length_map _).symm⟩
    · rintro ⟨cs, hcs, rfl⟩
      refine ⟨cs.map (render known), ?_, List.length_map _⟩
      rw [hr, field?_render hn hr, hcs, Option.map_some, if_pos hkey]
      rfl
  · intro gs hr key s hs
    have hcontents : (if key ∈ t.childKeys then renderContents known (.text s)
        else ofTree (.text s)) = .scalar (.text s) := by
      split <;> rfl
    rw [hr, field?_render hn hr, hs, Option.map_some, hcontents, ofText]
    congr 1
    simp

end

/-! ### All placeholders -/

inductive Drawn (known : Known) : Placeholder → Prop
  | text {s : String} (spells : isTextPlaceholder s = true) : Drawn known ⟨s, .text, false, false⟩
  | entry {first : String} {p : Placeholder} (declarator : Bool)
      (found : known.lookup p.name = some (first, p)) : Drawn known (p.declaring declarator)

theorem holes_of_ground {p : Pattern} (hp : p.ground = true) : p.holes = [] := by
  induction p with
  | hole h => cases hp
  | scalar a => rfl
  | list ps ih =>
    rw [ground, groundItems_iff] at hp
    rw [holes, holesItems_eq, List.flatMap_eq_nil_iff]
    exact fun q hq => ih q hq (hp q hq)
  | object fs ih =>
    rw [ground, groundFields_iff] at hp
    rw [holes, holesFields_eq, List.flatMap_eq_nil_iff]
    exact fun f hf => ih f hf (hp f hf)

theorem mem_holes_ofText {key : String} {p : Pattern} {h : Placeholder}
    (hh : h ∈ (ofText key p).holes) :
    h ∈ p.holes ∨ ∃ s, isTextPlaceholder s = true ∧ h = ⟨s, .text, false, false⟩ := by
  unfold ofText at hh
  split at hh
  · rename_i s
    split at hh
    · rename_i hs
      rw [Bool.and_eq_true] at hs
      exact Or.inr ⟨s, hs.2, List.mem_singleton.mp hh⟩
    · exact Or.inl hh
  · exact Or.inl hh

theorem exists_aligned_of_mem_holes {known : Known} {u t : Tree} {h : Placeholder}
    (ha : Aligned (render known u) u (render known t) t) (hh : h ∈ (render known t).holes) :
    (∃ s, isTextPlaceholder s = true ∧ h = ⟨s, .text, false, false⟩) ∨
      ∃ c, c.isNode = true ∧ Aligned (render known u) u (.hole h) c := by
  have hground : ∀ {c : Tree}, ¬ c.isNode = true → h ∉ (render known c).holes := by
    intro c hn
    rw [render_of_not_isNode known (Bool.of_not_eq_true hn), holes_of_ground (ground_ofTree _)]
    exact List.not_mem_nil
  induction t using Tree.children_induction with
  | node t ih =>
    by_cases hn : t.isNode = true
    · rcases renderNode_cases known t (renderChildren known t) with ⟨h', hr⟩ | hr <;>
        rw [← render_of_isNode known hn] at hr
      · rw [hr] at hh ha
        obtain rfl := List.mem_singleton.mp hh
        exact Or.inr ⟨t, hn, ha⟩
      · rw [hr, plainNode, holes, holesFields_eq, List.flatMap_map] at hh
        obtain ⟨f, hf, hh⟩ := List.mem_flatMap.mp hh
        rcases mem_holes_ofText hh with hh | htext
        · by_cases hkey : f.1 ∈ t.childKeys
          · rw [lookup_renderChildren known hkey, Option.getD_some, Tree.get] at hh
            cases hv : t.field? f.1 with
            | none =>
              rw [hv] at hh
              cases hh
            | some v =>
              have hsame : (render known t).field? f.1 =
                  some (ofText f.1 (renderContents known v)) := by
                rw [hr, plainNode, field?_render hn hr, hv, Option.map_some, if_pos hkey]
              rw [hv, Option.getD_some] at hh
              cases v with
              | scalar a => cases hh
              | list cs =>
                rw [renderContents, holes, holesItems_eq, List.flatMap_map] at hh
                obtain ⟨c, hc, hh⟩ := List.mem_flatMap.mp hh
                by_cases hcn : c.isNode = true
                · obtain ⟨i, hi⟩ := List.mem_iff_getElem?.mp hc
                  have hmem : c ∈ t.childrenAt f.1 := by
                    rw [Tree.childrenAt, Tree.get, hv, Option.getD_some]
                    exact Tree.mem_heldNodes_of_list.mpr ⟨hc, hcn⟩
                  refine ih c (Tree.mem_children.mpr ⟨_, hkey, hmem⟩) ?_ hh
                  exact .item ha hn hkey hv hsame hi (by rw [List.getElem?_map, hi]; rfl)
                · exact absurd hh (hground hcn)
              | object tag fs =>
                rw [renderContents_object] at hh
                by_cases hcn : (Tree.object tag fs).isNode = true
                · rw [ofText_render hcn] at hsame
                  have hmem := Tree.mem_children.mpr ⟨_, hkey, childrenAt_of_field? hv hcn⟩
                  exact ih _ hmem (.field ha hn hkey hv hsame) hh
                · exact absurd hh (hground hcn)
          · rw [lookup_renderChildren_of_not_mem known hkey, Option.getD_none,
              holes_of_ground (ground_ofTree _)] at hh
            cases hh
        · exact Or.inl htext
    · exact absurd hh (hground hn)

theorem drawn_of_mem_holes {ws : List String} {known : Known} (ht : Tabulates ws known) {t : Tree}
    {h : Placeholder} (hh : h ∈ (render known t).holes) : Drawn known h := by
  rcases exists_aligned_of_mem_holes .root hh with ⟨s, hs, rfl⟩ | ⟨c, hc, ha⟩
  · exact .text hs
  · obtain ⟨hr, -⟩ := aligned_render ha hc
    obtain ⟨b, first, p, -, hl, hp, rfl⟩ := stands_of_render ht hc hr.symm
    exact .entry _ (hp.name.symm ▸ hl)

theorem Drawn.made {ws : List String} {known : Known} (ht : Tabulates ws known) {h : Placeholder}
    (hh : Drawn known h) : h.slot = .text ∨
      ∃ b first after, First ws b first after ∧ b.Makes first (h.declaring false) := by
  cases hh with
  | text _ => exact Or.inl rfl
  | @entry first p d hl =>
    obtain ⟨b, after, -, hfirst, hmakes⟩ := ht.sound _ first p hl
    obtain ⟨w, -, hw⟩ := hfirst.exists_mem
    refine Or.inr ⟨b, first, after, hfirst, ?_⟩
    have hvariant := hmakes.variant hw.slot_ne_text
    rwa [Placeholder.declaring_declaring, hvariant.declaring_false hw.declaring_false]

theorem Drawn.declaring_eq {ws : List String} {known : Known} (ht : Tabulates ws known)
    {h h' : Placeholder} (hh : Drawn known h) (hh' : Drawn known h') (hname : h.name = h'.name) :
    h.declaring false = h'.declaring false := by
  -- No name from the table is one of a placeholder for text.
  have hstems : ∀ {s first p}, isTextPlaceholder s = true → known.lookup s = some (first, p) →
      False := by
    intro s first p hs hl
    obtain ⟨b, after, rfl, hfirst, -⟩ := ht.sound s first p hl
    obtain ⟨w, -, hw⟩ := hfirst.exists_mem
    exact hw.not_isTextPlaceholder hs
  cases hh with
  | text hs =>
    cases hh' with
    | text hs' =>
      simp only at hname
      rw [hname]
    | entry d hl =>
      rw [Placeholder.name_declaring] at hname
      exact (hstems hs (hname ▸ hl)).elim
  | entry d hl =>
    cases hh' with
    | text hs =>
      rw [Placeholder.name_declaring] at hname
      exact (hstems hs (hname ▸ hl)).elim
    | entry d' hl' =>
      rw [Placeholder.name_declaring, Placeholder.name_declaring] at hname
      rw [hname, hl'] at hl
      obtain ⟨-, rfl⟩ := Prod.mk.inj (Option.some.inj hl)
      rw [Placeholder.declaring_declaring, Placeholder.declaring_declaring]

/-! ### Compiled patterns -/

theorem kind?_isSome {p : Pattern} {kind : String} (hk : p.isKind kind = true) :
    p.kind?.isSome = true := by
  rw [isKind, beq_iff_eq] at hk
  rw [hk]
  rfl

section

variable {known : Known} {t : Tree} {q : Pattern}

theorem aligned_body (hk : (render known t).isKind "Program" = true)
    (hq : (render known t).field? "body" = some (.list [q])) :
    ∃ c, Aligned (render known t) t q c ∧ q = render known c := by
  have hn := isNode_of_kind?_render (kind?_isSome hk)
  have hchild : "body" ∈ t.childKeys :=
    Tree.mem_childKeys_of_isKind (kind?_of_render hn hk) rfl (by simp)
  obtain ⟨cs, hv, hcs⟩ := list_of_render hn hchild hq
  obtain ⟨c, rfl, rfl⟩ := List.map_eq_singleton_iff.mp hcs
  exact ⟨c, .item (i := 0) .root hn hchild hv hq rfl rfl, rfl⟩

theorem aligned_unwrap (source : String) (known : Known) (t : Tree) :
    ∃ u, Aligned (render known t) t (unwrap source (render known t)) u := by
  unfold unwrap
  extract_lets q
  have hbody : ∃ c, Aligned (render known t) t q c ∧ q = render known c := by
    simp only [q]
    split
    · rename_i hk hq
      exact aligned_body hk hq
    · exact ⟨t, .root, rfl⟩
  clear_value q
  obtain ⟨c, hq, rfl⟩ := hbody
  split
  · rename_i r hkind hr
    rw [Bool.and_eq_true] at hkind
    have hn := isNode_of_kind?_render (kind?_isSome hkind.1)
    obtain ⟨v, hv, -⟩ := exists_field?_of_render hn hr
    have hkey : "expression" ∈ c.childKeys :=
      Tree.mem_childKeys_of_isKind (kind?_of_render hn hkind.1) rfl (by simp)
    exact ⟨v, .field hq hn hkey hv hr⟩
  · exact ⟨c, hq⟩

end

theorem holes_subset_of_field? {p q : Pattern} {key : String} (h : p.field? key = some q) :
    q.holes ⊆ p.holes := by
  cases p with
  | object fs =>
    intro x hx
    rw [holes, holesFields_eq]
    exact List.mem_flatMap.mpr ⟨(key, q), mem_of_lookup_eq h, hx⟩
  | _ => cases h

theorem holes_unwrap_subset (source : String) (p : Pattern) : (unwrap source p).holes ⊆ p.holes := by
  unfold unwrap
  extract_lets q
  have hq : q.holes ⊆ p.holes := by
    simp only [q]
    split
    · rename_i r hr
      refine List.Subset.trans (fun x hx => ?_) (holes_subset_of_field? hr)
      rw [holes, holesItems_eq, List.flatMap_singleton]
      exact hx
    · exact List.Subset.refl _
  split
  · rename_i hr
    exact List.Subset.trans (holes_subset_of_field? hr) hq
  · exact hq

theorem ofScript_cases (source : String) {t : Tree} (hn : t.isNode = true) :
    (∃ known, ofScript source t = .ok (unwrap source (render known t)) ∧
      Tabulates t.identifierNames known ∧ ¬ Faulty t.identifierNames) ∨
    (∃ e, ofScript source t = .error e) ∧ Faulty t.identifierNames := by
  rw [ofScript]
  rcases compiles hn [] with ⟨e, hrun, hnote⟩ | ⟨k, hrun, hnote, -⟩
  · rcases noteAll_cases t.identifierNames with ⟨known, hknown, -⟩ | ⟨-, hfaulty⟩
    · rw [hnote] at hknown
      cases hknown
    · exact Or.inr ⟨⟨e, by rw [hrun]; rfl⟩, hfaulty⟩
  · rcases noteAll_cases t.identifierNames with ⟨known, hknown, htable⟩ | ⟨⟨e, he⟩, -⟩
    · obtain rfl := Except.ok.inj (hnote.symm.trans hknown)
      exact Or.inl ⟨k, by rw [hrun]; rfl, htable⟩
    · rw [hnote] at he
      cases he

theorem isNode_of_parse? {source : String} {t : Tree} (h : Script.parse? source = some t) :
    t.isNode = true := by
  obtain ⟨start, -, h⟩ := Option.bind_eq_some_iff.mp h
  obtain ⟨⟨u, _⟩, hrun, h⟩ := Option.bind_eq_some_iff.mp h
  obtain ⟨⟨prologue, s⟩, -, hrun⟩ := Option.bind_eq_some_iff.mp hrun
  obtain ⟨⟨rest, s'⟩, -, hrun⟩ := Option.bind_eq_some_iff.mp hrun
  cases hrun
  cases h
  rfl

theorem ofScript_places (source : String) {t : Tree} (hn : t.isNode = true) :
    ((∃ e, ofScript source t = .error e) ↔ Faulty t.identifierNames) ∧
    ∀ p, ofScript source t = .ok p →
      (∀ h ∈ p.holes, h.slot = .text ∨ ∃ b first after,
        First t.identifierNames b first after ∧ b.Makes first (h.declaring false)) ∧
      (∀ h ∈ p.holes, ∀ h' ∈ p.holes, h.name = h'.name →
        h.declaring false = h'.declaring false) ∧
      ∃ whole u, p = unwrap source whole ∧ Aligned whole t p u ∧
        (∀ q c, Aligned p u q c → Aligned whole t q c) ∧
        (∀ q c, Aligned whole t q c →
          (q.kind?.isSome = true → c.isNode = true) ∧ (c.isNode = true → Placed q c)) ∧
        ∀ h ∈ p.holes, h.slot = .text ∨ ∃ c, c.isNode = true ∧ Aligned whole t (.hole h) c := by
  rcases ofScript_cases source hn with ⟨known, hok, htable, hsound⟩ | ⟨⟨e, he⟩, hfaulty⟩
  · rw [hok]
    constructor
    · exact ⟨by rintro ⟨e, ⟨⟩⟩, fun h => absurd h hsound⟩
    · rintro _ ⟨⟩
      have hdrawn : ∀ h ∈ (unwrap source (render known t)).holes, Drawn known h := fun h hh =>
        drawn_of_mem_holes htable (holes_unwrap_subset source _ hh)
      obtain ⟨u, hu⟩ := aligned_unwrap source known t
      refine ⟨fun h hh => (hdrawn h hh).made htable,
        fun h hh h' hh' => (hdrawn h hh).declaring_eq htable (hdrawn h' hh'),
        render known t, u, rfl, hu, fun q c hq => hu.trans hq, ?_, ?_⟩
      · intro q c hq
        refine ⟨isNode_of_aligned hq, fun hc => ?_⟩
        obtain ⟨rfl, hsub⟩ := aligned_render hq hc
        exact placed_render htable hc hsub
      · intro h hh
        refine (exists_aligned_of_mem_holes .root (holes_unwrap_subset source _ hh)).imp_left ?_
        rintro ⟨s, -, rfl⟩
        rfl
  · rw [he]
    exact ⟨⟨fun _ => hfaulty, fun _ => ⟨e, rfl⟩⟩, nofun⟩

/-- Compiling a script that can be parsed fails just if the names of its identifiers are faulty, and
if not, each placeholder is fixed once and stands in its places. -/
theorem compile_places {parse : Parser} (source : String) {t : Tree} (ht : parse source = .ok t)
    (hn : t.isNode = true) :
    ((∃ e, compile parse source = .error e) ↔ Faulty t.identifierNames) ∧
    ∀ p, compile parse source = .ok p →
      (∀ h ∈ p.holes, h.slot = .text ∨ ∃ b first after,
        First t.identifierNames b first after ∧ b.Makes first (h.declaring false)) ∧
      (∀ h ∈ p.holes, ∀ h' ∈ p.holes, h.name = h'.name →
        h.declaring false = h'.declaring false) ∧
      ∃ whole u, p = unwrap source whole ∧ Aligned whole t p u ∧
        (∀ q c, Aligned p u q c → Aligned whole t q c) ∧
        (∀ q c, Aligned whole t q c →
          (q.kind?.isSome = true → c.isNode = true) ∧ (c.isNode = true → Placed q c)) ∧
        ∀ h ∈ p.holes, h.slot = .text ∨ ∃ c, c.isNode = true ∧ Aligned whole t (.hole h) c := by
  have hcompile : compile parse source = ofScript source t := by rw [compile, ht]
  rw [hcompile]
  exact ofScript_places source hn

theorem compile_places_declarators : ∃ t p,
    Script.parse "var expression1_literal, a = [expression1, placeholder1];" = .ok t ∧
      compile Script.parse "var expression1_literal, a = [expression1, placeholder1];" = .ok p ∧
      ¬ Faulty t.identifierNames ∧
      p.holes = [⟨"expression1", .expression .literal false true, false, false⟩,
        ⟨"expression1", .expression .literal false false, false, false⟩,
        ⟨"placeholder1", .text, false, false⟩] ∧
      ∃ whole u, Aligned whole t p u ∧
        (∀ q c, Aligned whole t q c →
          (q.kind?.isSome = true → c.isNode = true) ∧ (c.isNode = true → Placed q c)) ∧
        ∃ c, c.isKind "VariableDeclarator" = true ∧
          Aligned whole t (.hole ⟨"expression1", .expression .literal false true, false, false⟩) c := by
  have hparse : (Script.parse? "var expression1_literal, a = [expression1, placeholder1];").isSome =
      true := by
    decide +kernel
  have hholes : (compile Script.parse
      "var expression1_literal, a = [expression1, placeholder1];").toOption.map holes =
        some [⟨"expression1", .expression .literal false true, false, false⟩,
          ⟨"expression1", .expression .literal false false, false, false⟩,
          ⟨"placeholder1", .text, false, false⟩] := by
    decide +kernel
  obtain ⟨t, ht⟩ := Option.isSome_iff_exists.mp hparse
  obtain ⟨p, hp, hholes⟩ := Option.map_eq_some_iff.mp hholes
  have hok :
      compile Script.parse "var expression1_literal, a = [expression1, placeholder1];" = .ok p := by
    generalize compile Script.parse _ = r at hp
    cases r with
    | ok p' => exact congrArg Except.ok (Option.some.inj hp)
    | error e => cases hp
  have hscript : Script.parse "var expression1_literal, a = [expression1, placeholder1];" = .ok t := by
    rw [Script.parse, ht]
  obtain ⟨hfault, hall⟩ := compile_places _ hscript (isNode_of_parse? ht)
  obtain ⟨-, -, whole, u, -, hu, -, hplaced, hstands⟩ := hall p hok
  have hmem : ⟨"expression1", .expression .literal false true, false, false⟩ ∈ p.holes := by
    rw [hholes]
    exact List.mem_cons_self
  obtain ⟨c, hn, hc⟩ := (hstands _ hmem).resolve_left nofun
  have hmark := ((hplaced _ c hc).2 hn).marked _ _ _ _ _ _ rfl
  refine ⟨t, p, hscript, hok, fun hfaulty => ?_, hholes, whole, u, hu, hplaced, c, hmark.mp rfl, hc⟩
  obtain ⟨e, he⟩ := hfault.mpr hfaulty
  rw [hok] at he
  cases he

end Pattern

end Legible
