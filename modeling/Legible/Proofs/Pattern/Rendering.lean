import Legible.Proofs.Pattern.Known
import Legible.Proofs.Pattern.Compile
import Legible.Proofs.Tree.Total

namespace Legible

def Known.placeholder? (known : Known) (w : String) : Option Placeholder :=
  (spelledPlaceholder w).bind fun s => (known.lookup s.1.name).map (·.2)

def Renders {α : Type} (m : Compile α) (ws : List String) (r : Known → α) : Prop :=
  ∀ known, (∃ e, m.run known = .error e ∧ known.noteAll ws = .error e) ∨
    ∃ k, m.run known = .ok (r k, k) ∧ known.noteAll ws = .ok k ∧ ∀ k', k.Within k' → r k' = r k

namespace Renders

variable {α β : Type}

theorem pure (a : α) : Renders (Pure.pure a) [] fun _ => a :=
  fun known => Or.inr ⟨known, rfl, rfl, fun _ _ => rfl⟩

theorem bind {m : Compile α} {f : α → Compile β} {ws vs : List String} {r : Known → α}
    {q : α → Known → β} (hm : Renders m ws r) (hf : ∀ a, Renders (f a) vs (q a)) :
    Renders (m >>= f) (ws ++ vs) fun k => q (r k) k := by
  intro known
  rw [StateT.run_bind, Known.noteAll_append]
  rcases hm known with ⟨e, hrun, hnote⟩ | ⟨k, hrun, hnote, hr⟩
  · rw [hrun, hnote]
    exact Or.inl ⟨e, rfl, rfl⟩
  · rw [hrun, hnote]
    rcases hf (r k) k with ⟨e, hrun', hnote'⟩ | ⟨l, hrun', hnote', hr'⟩
    · exact Or.inl ⟨e, hrun', hnote'⟩
    · have hkl := Known.within_noteAll hnote'
      refine Or.inr ⟨l, ?_, hnote', fun k' hk' => ?_⟩
      · simp only [hr l hkl]
        exact hrun'
      · simp only [hr l hkl, hr k' (hkl.trans hk')]
        exact hr' k' hk'

theorem map {m : Compile α} {ws : List String} {r : Known → α} (hm : Renders m ws r) (g : α → β) :
    Renders (m >>= fun a => Pure.pure (g a)) ws fun k => g (r k) := by
  have h := hm.bind fun a => .pure (g a)
  rwa [List.append_nil] at h

theorem mapM {f : α → Compile β} {l : List α} {ws : α → List String} {r : α → Known → β}
    (h : ∀ a ∈ l, Renders (f a) (ws a) (r a)) :
    Renders (l.mapM f) (l.flatMap ws) fun k => l.map fun a => r a k := by
  induction l with
  | nil =>
    rw [List.mapM_nil]
    exact .pure []
  | cons a l ih =>
    rw [List.forall_mem_cons] at h
    rw [List.mapM_cons, List.flatMap_cons]
    exact h.1.bind (q := fun b k => b :: l.map fun a => r a k) fun b => (ih h.2).map (b :: ·)

end Renders

theorem renders_placeholderOf (w : String) :
    Renders (placeholderOf w) [w] fun k => k.placeholder? w := by
  intro known
  have hmeets := meets_placeholderOf known w
  have hnote : known.noteAll [w] = known.note w := bind_pure (known.note w)
  rw [hnote, Known.note]
  generalize (placeholderOf w).run known = r at hmeets
  have hfound : ∀ {b p suffix first} {k : Known}, Spells w b suffix →
      k.lookup b.name = some (first, p) → k.placeholder? w = some p := by
    intro b p suffix first k hs hl
    rw [Known.placeholder?, spelledPlaceholder_eq_some_iff.mpr hs, Option.bind_some, hl]
    rfl
  cases hmeets with
  | plain hplain =>
    have hnone : ∀ k : Known, k.placeholder? w = none := by
      intro k
      cases hs : spelledPlaceholder w with
      | none => rw [Known.placeholder?, hs, Option.bind_none]
      | some s => exact absurd (spelledPlaceholder_eq_some_iff.mp hs) (hplain s.1 s.2)
    exact Or.inr ⟨known, by simp only [hnone], rfl, fun k' _ => (hnone k').trans (hnone known).symm⟩
  | @again b p suffix first hs hl _ =>
    refine Or.inr ⟨known, by simp only [hfound hs hl], rfl, fun k' hk' => ?_⟩
    exact (hfound hs (hk' _ _ hl)).trans (hfound hs hl).symm
  | @fresh b p suffix hs hl _ _ =>
    have hself : ((b.name, suffix, p) :: known).lookup b.name = some (suffix, p) :=
      List.lookup_cons_self
    refine Or.inr ⟨(b.name, suffix, p) :: known, by simp only [hfound hs hself], rfl, fun k' hk' => ?_⟩
    exact (hfound hs (hk' _ _ hself)).trans (hfound hs hself).symm
  | @conflict b p suffix first e => exact Or.inl ⟨e, rfl, rfl⟩
  | @unknown b suffix m e => exact Or.inl ⟨e, rfl, rfl⟩

namespace Pattern

/-! ### Nodes -/

def carried? (kind : String) (children : List (String × Pattern)) : Option Placeholder :=
  match kind with
  | "ExpressionStatement" =>
    match children.lookup "expression" with
    | some (.hole ⟨name, .statement sort multiLine, optional, repeatable⟩) =>
      some ⟨name, .statement sort multiLine, optional, repeatable⟩
    | _ => none
  | "VariableDeclarator" =>
    match children.lookup "id", (children.lookup "init").getD (.scalar .null) with
    | some (.hole ⟨name, .expression sort orDeclaration _, optional, repeatable⟩), .scalar .null =>
      some ⟨name, .expression sort orDeclaration true, optional, repeatable⟩
    | _, _ => none
  | _ => none

def plainNode (fs : Fields) (children : List (String × Pattern)) : Pattern :=
  .object (fs.map fun f => (f.1, ofText f.1 ((children.lookup f.1).getD (ofTree f.2))))

theorem ofNode_eq (tag : Nat) (fs : Fields) (children : List (String × Pattern)) :
    ofNode fs children = do
      let h ← if (Tree.object tag fs).kind = "Identifier" then
        placeholderOf (Tree.object tag fs).name
        else pure (carried? (Tree.object tag fs).kind children)
      return (h.map .hole).getD (plainNode fs children) := by
  have hkind : ((fs.lookup "type").bind Tree.text?).getD "" = (Tree.object tag fs).kind := by
    rw [Tree.kind, Tree.kind?, Tree.get_object]
    cases fs.lookup "type" <;> rfl
  have hname : ((fs.lookup "name").bind Tree.text?).getD "" = (Tree.object tag fs).name := by
    rw [Tree.name, Tree.get_object]
    cases fs.lookup "name" <;> rfl
  rw [ofNode, hkind, hname]
  generalize (Tree.object tag fs).kind = kind
  split
  · rw [if_pos rfl]
    refine bind_congr fun h => ?_
    cases h <;> rfl
  · rw [if_neg (by decide), pure_bind, carried?]
    generalize children.lookup "expression" = expression
    rcases expression with _ | (⟨⟨_, _ | _ | _, _, _⟩⟩ | _ | _ | _) <;> rfl
  · rw [if_neg (by decide), pure_bind, carried?]
    generalize children.lookup "id" = id
    generalize (children.lookup "init").getD (.scalar .null) = init
    rcases id with _ | (⟨⟨_, _ | _ | _, _, _⟩⟩ | _ | _ | _) <;>
      rcases init with _ | ⟨_ | _ | _ | _ | _⟩ | _ | _ <;> rfl
  · rename_i hidentifier hstatement hdeclarator
    rw [if_neg hidentifier, pure_bind, carried?]
    · rfl
    · exact hstatement
    · exact hdeclarator

def renderNode (known : Known) (t : Tree) (children : List (String × Pattern)) : Pattern :=
  ((if t.kind = "Identifier" then known.placeholder? t.name else carried? t.kind children).map
    .hole).getD (plainNode t.fields children)

mutual

def render (known : Known) : Tree → Pattern
  | .object tag fs =>
    if (Tree.object tag fs).isNode then
      renderNode known (.object tag fs)
        ((Fields.childKeys fs).map fun key => (key, renderField known key fs))
    else ofTree (.object tag fs)
  | t => ofTree t
termination_by structural t => t

def renderField (known : Known) (key : String) : List (String × Tree) → Pattern
  | [] => .scalar .null
  | (k, v) :: fs =>
    if k = key then
      match v with
      | .list ts => .list (renderItems known ts)
      | v => render known v
    else renderField known key fs
termination_by structural fs => fs

def renderItems (known : Known) : List Tree → List Pattern
  | [] => []
  | t :: ts => render known t :: renderItems known ts
termination_by structural ts => ts

end

section

variable (known : Known)

theorem renderItems_eq (ts : List Tree) : renderItems known ts = ts.map (render known) := by
  induction ts with
  | nil => rfl
  | cons t ts ih => rw [renderItems, List.map_cons, ih]

def renderContents : Tree → Pattern
  | .list ts => .list (ts.map (render known))
  | t => render known t

theorem renderContents_object (tag : Nat) (fs : Fields) :
    renderContents known (.object tag fs) = render known (.object tag fs) :=
  rfl

theorem renderField_eq (tag : Nat) (fs : Fields) (key : String) :
    renderField known key fs = renderContents known ((Tree.object tag fs).get key) := by
  rw [Tree.get_object]
  induction fs with
  | nil => rfl
  | cons f fs ih =>
    obtain ⟨k, v⟩ := f
    by_cases hk : k = key
    · rw [hk, List.lookup_cons_self]
      cases v with
      | list ts => simp only [renderField, if_true, renderItems_eq, Option.getD_some, renderContents]
      | scalar a => simp only [renderField, if_true, Option.getD_some, renderContents]
      | object tag' gs => simp only [renderField, if_true, Option.getD_some, renderContents]
    · rw [List.lookup_cons, beq_false_of_ne (Ne.symm hk), ← ih]
      cases v <;> simp only [renderField, if_neg hk]

def renderChildren (t : Tree) : List (String × Pattern) :=
  t.childKeys.map fun key => (key, renderContents known (t.get key))

theorem render_of_isNode {t : Tree} (h : t.isNode = true) :
    render known t = renderNode known t (renderChildren known t) := by
  obtain ⟨tag, fs, rfl⟩ := Tree.eq_object_of_isNode h
  rw [render, if_pos h]
  congr 1
  apply List.map_congr_left
  intro key _
  rw [renderField_eq known tag]

theorem render_of_not_isNode {t : Tree} (h : t.isNode = false) : render known t = ofTree t := by
  cases t with
  | object tag fs =>
    rw [render, if_neg]
    simp [h]
  | scalar a => rfl
  | list ts => rfl

end

end Pattern

/-! ### Identifiers in the order in which they are left -/

def Visit.leftName? (v : Visit) : Option String :=
  if v.phase = .leave ∧ v.node.isKind "Identifier" then some v.node.name else none

namespace Tree

def identifierNames (t : Tree) : List String :=
  t.traverse.filterMap Visit.leftName?

theorem filterMap_leftName?_visits (parent : Option Tree) (t : Tree) :
    (t.visits parent).filterMap Visit.leftName? = t.identifierNames := by
  cases t with
  | scalar a => rfl
  | list ts => rfl
  | object tag fs =>
    simp only [identifierNames, traverse, visits, List.filterMap_append, List.filterMap_cons]
    rfl

theorem identifierNames_of_isNode {t : Tree} (h : t.isNode = true) : t.identifierNames =
    (t.childKeys.flatMap fun key => (t.childrenAt key).flatMap identifierNames) ++
      if t.isKind "Identifier" then [t.name] else [] := by
  obtain ⟨tag, fs, rfl⟩ := eq_object_of_isNode h
  have hfield : ∀ key, (fieldVisits (object tag fs) key fs).filterMap Visit.leftName? =
      ((object tag fs).childrenAt key).flatMap identifierNames := by
    intro key
    rw [fieldVisits_eq tag fs, List.filterMap_flatMap]
    exact List.flatMap_congr fun c _ => filterMap_leftName?_visits _ c
  have henter : Visit.leftName? ⟨.enter, object tag fs, none⟩ = none := if_neg nofun
  rw [identifierNames, traverse, visits, List.filterMap_append, List.filterMap_cons, henter]
  simp only [List.filterMap_flatMap, hfield]
  congr 1
  by_cases hk : (object tag fs).isKind "Identifier" = true <;> simp [Visit.leftName?, hk]

end Tree

/-! ### Compiling by the table -/

namespace Pattern

theorem ofSyntax_of_not_isNode {t : Tree} (h : t.isNode = false) : ofSyntax t = pure (ofTree t) := by
  cases t with
  | object tag fs =>
    rw [ofSyntax, if_neg]
    simp [h]
  | scalar a => rfl
  | list ts => rfl

theorem ofSyntaxItems_eq (ts : List Tree) : ofSyntaxItems ts = ts.mapM ofSyntax := by
  induction ts with
  | nil => rfl
  | cons t ts ih =>
    rw [List.mapM_cons, ← ih]
    cases t <;> rfl

def ofContents : Tree → Compile Pattern
  | .list ts => do return .list (← ts.mapM ofSyntax)
  | t => ofSyntax t

theorem ofField_eq (tag : Nat) (fs : Fields) (key : String) :
    ofField key fs = ofContents ((Tree.object tag fs).get key) := by
  rw [Tree.get_object]
  induction fs with
  | nil => rfl
  | cons f fs ih =>
    obtain ⟨k, v⟩ := f
    by_cases hk : k = key
    · rw [hk, List.lookup_cons_self]
      cases v with
      | list ts => simp only [ofField, if_true, ofSyntaxItems_eq, Option.getD_some, ofContents]
      | scalar a => simp only [ofField, if_true, Option.getD_some, ofContents]
      | object tag' gs => simp only [ofField, if_true, Option.getD_some, ofContents]
    · rw [List.lookup_cons, beq_false_of_ne (Ne.symm hk), ← ih]
      cases v <;> simp only [ofField, if_neg hk]

def Compiles (t : Tree) : Prop :=
  Renders (ofSyntax t) t.identifierNames fun known => render known t

theorem renders_ofSyntax {c : Tree} (hc : c.isNode = true → Compiles c) :
    Renders (ofSyntax c) (if c.isNode then c.identifierNames else []) fun known =>
      render known c := by
  by_cases hn : c.isNode = true
  · rw [if_pos hn]
    exact hc hn
  · have hn' := Bool.of_not_eq_true hn
    rw [if_neg hn, ofSyntax_of_not_isNode hn']
    simp only [render_of_not_isNode _ hn']
    exact .pure (ofTree c)

theorem renders_ofContents {v : Tree} (hv : ∀ c ∈ v.heldNodes, Compiles c) :
    Renders (ofContents v) (v.heldNodes.flatMap Tree.identifierNames) fun known =>
      renderContents known v := by
  cases v with
  | scalar a => exact .pure (Pattern.scalar a)
  | list ts =>
    have hnames : ts.flatMap (fun c => if c.isNode then c.identifierNames else []) =
        (Tree.list ts).heldNodes.flatMap Tree.identifierNames := by
      clear hv
      rw [Tree.heldNodes]
      induction ts with
      | nil => rfl
      | cons t ts ih =>
        rw [List.flatMap_cons, List.filter_cons, ih]
        split <;> rfl
    rw [← hnames]
    apply Renders.map
    apply Renders.mapM
    intro c hc
    exact renders_ofSyntax fun hn => hv c (Tree.mem_heldNodes_of_list.mpr ⟨hc, hn⟩)
  | object tag fs =>
    have hself := renders_ofSyntax (c := .object tag fs) fun hn =>
      hv _ (Tree.self_mem_heldNodes hn)
    rw [Tree.heldNodes]
    split
    · rename_i hn
      rw [if_pos hn] at hself
      rwa [List.flatMap_singleton]
    · rename_i hn
      rwa [if_neg hn] at hself

theorem kind_eq_iff {t : Tree} {kind : String} (h : kind ≠ "") :
    t.kind = kind ↔ t.isKind kind = true := by
  rw [Tree.kind, Tree.isKind, beq_iff_eq]
  cases t.kind? with
  | none => simpa using h.symm
  | some k => simp

theorem compiles {t : Tree} (hn : t.isNode = true) : Compiles t := by
  induction t using Tree.children_induction with
  | node t ih =>
    obtain ⟨tag, fs, rfl⟩ := Tree.eq_object_of_isNode hn
    have hchildren : Renders
        ((Fields.childKeys fs).mapM fun key => do return (key, ← ofField key fs))
        ((Fields.childKeys fs).flatMap fun key =>
          ((Tree.object tag fs).childrenAt key).flatMap Tree.identifierNames)
        fun known => renderChildren known (.object tag fs) := by
      apply Renders.mapM
      intro key hkey
      rw [ofField_eq tag]
      refine Renders.map (renders_ofContents fun c hc => ?_) (key, ·)
      exact ih c (Tree.mem_children.mpr ⟨key, hkey, hc⟩) (Tree.isNode_of_mem_heldNodes hc)
    have hnode : ∀ children : List (String × Pattern), Renders (ofNode fs children)
        (if (Tree.object tag fs).isKind "Identifier" then [(Tree.object tag fs).name] else [])
        fun known => renderNode known (.object tag fs) children := by
      intro children
      rw [ofNode_eq tag]
      have hkind := kind_eq_iff (t := .object tag fs) (show "Identifier" ≠ "" by decide)
      simp only [renderNode, hkind]
      let result (h : Option Placeholder) : Pattern := (h.map .hole).getD (plainNode fs children)
      split
      · exact Renders.map (renders_placeholderOf _) result
      · exact Renders.map (.pure _) result
    rw [Compiles, Tree.identifierNames_of_isNode hn, ofSyntax, if_pos hn]
    simp only [render_of_isNode _ hn]
    exact hchildren.bind hnode

end Pattern

end Legible
