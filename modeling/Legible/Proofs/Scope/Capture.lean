import Legible.Form
import Legible.Proofs.Scope.Renaming
import Legible.Proofs.Scope.Uses

namespace Legible

namespace Scope

def uses (s : Scope) (v : Variable) : List Nat :=
  v.references ++ (s.reaching v.name).map (·.tag)

/-- Nothing is in the way of a new name for a variable of a scope: no use gets past a scope with the
new name, nothing with the new name gets past the scope, and no other variable has a use. -/
structure Clear (root s : Scope) (v : Variable) (new : String) : Prop where
  inside : ∀ c ∈ root.scopes, c.dynamic = false → c.declares new = true →
    ∀ o ∈ c.through, o.tag ∉ s.uses v
  outside : s.dynamic = false → ∀ o ∈ s.through, o.name ≠ new
  others : ∀ c ∈ root.scopes, ∀ u ∈ c.declared, u ≠ v → ∀ tag ∈ u.references, tag ∉ s.uses v

section

variable {t : Tree} (ht : t.Numbered) {s : Scope} (hs : s ∈ (ofTree t).scopes) {v : Variable}
  (hv : v ∈ s.declared)

include hs hv

theorem exists_of_mem_uses {tag : Nat} (h : tag ∈ s.uses v) :
    ∃ o ∈ s.incoming, o.tag = tag ∧ o.name = v.name := by
  have hfresh := fresh_ofTree t s hs
  rcases List.mem_append.mp h with h | h
  · obtain ⟨-, o, ho, hn, ht⟩ := (hfresh.references v hv tag).mp h
    exact ⟨o, ho, ht, hn⟩
  · obtain ⟨o, ho, ht⟩ := List.mem_map.mp h
    obtain ⟨hin, hn⟩ := mem_incoming_of_reaching ho
    exact ⟨o, hin, ht, hn⟩

theorem mem_uses_iff (hd : s.dynamic = false) {tag : Nat} : tag ∈ s.uses v ↔ tag ∈ v.references := by
  refine ⟨fun h => ?_, List.mem_append_left _⟩
  obtain ⟨o, ho, ht, hn⟩ := exists_of_mem_uses hs hv h
  exact ((fresh_ofTree t s hs).references v hv tag).mpr ⟨hd, o, ho, hn, ht⟩

include ht

theorem mem_identifiers_of_moved {tag : Nat} (h : tag ∈ v.identifiers ++ s.uses v) :
    ⟨tag, v.name⟩ ∈ t.identifiers := by
  rcases List.mem_append.mp h with h | h
  · exact mem_identifiers_of_tags ht hs hv (List.mem_append_left _ h)
  · obtain ⟨o, ho, rfl, hn⟩ := exists_of_mem_uses hs hv h
    rw [← hn]
    exact mem_identifiers_of_incoming ht hs ho

theorem clear_of_lexical {w : String} (hd : s.dynamic = false)
    (hi : ∀ c ∈ (ofTree t).scopes, c.dynamic = false → c.declares w = true →
      ∀ o ∈ c.through, o.tag ∉ s.uses v)
    (ho : ∀ o ∈ s.through, o.name ≠ w) : Clear (ofTree t) s v w := by
  refine ⟨hi, fun _ => ho, fun c hc u hu hne tag htag hm => hne ?_⟩
  have hm := (mem_uses_iff hs hv hd).mp hm
  exact (owner_unique ht hc hu hs hv (List.mem_append_right _ htag)
    (List.mem_append_right _ hm)).2

theorem notMem_moved {w : String} (h : Clear (ofTree t) s v w) {c : Scope} (hc : c ∈ (ofTree t).scopes)
    {u : Variable} (hu : u ∈ c.declared) (hne : u ≠ v) :
    ∀ tag ∈ u.tags, tag ∉ v.identifiers ++ s.uses v := by
  intro tag htag hm
  rcases List.mem_append.mp hm with hm | hm
  · exact hne (owner_unique ht hc hu hs hv htag (List.mem_append_left _ hm)).2
  · rcases List.mem_append.mp htag with htag | htag
    · obtain ⟨o, ho, hto, -⟩ := exists_of_mem_uses hs hv hm
      exact identifier_not_incoming ht hc hu htag hs ho hto
    · exact h.others c hc u hu hne tag htag hm

variable (ha : v.name ≠ "arguments") {w : String} (hw : w ≠ "arguments")
  (hfree : s.declares w = false) {names : Names}
  (hnames : ∀ tag : Nat, names[tag]? = if tag ∈ v.identifiers ++ s.uses v then some w else none)

include hnames

theorem suits_moved : names.Suits t := by
  refine suits_of_identifiers ht fun tag hn => ?_
  rw [hnames] at hn
  split at hn
  · rename_i hm
    exact ⟨_, mem_identifiers_of_moved ht hs hv hm, rfl⟩
  · exact absurd rfl hn

omit ht hs hv in
theorem current_moved (o : Occurrence) :
    names.current o = if o.tag ∈ v.identifiers ++ s.uses v then w else o.name := by
  rw [Names.current_eq, hnames]
  split <;> rfl

theorem name_of_mentioned {o : Occurrence} (ho : o ∈ mentioned (names.apply t)) {name : String}
    (hi : ⟨o.tag, name⟩ ∈ t.identifiers) :
    o.name = if o.tag ∈ v.identifiers ++ s.uses v then w else name := by
  obtain ⟨o', ho', rfl⟩ := exists_of_mem_mentioned (suits_moved ht hs hv hnames) ho
  have hn : o'.name = name := ht.name_eq ((subperm_mentioned ht).subset ho') hi rfl
  rw [← hn]
  exact current_moved hnames o'

theorem newName_of_ne (h : Clear (ofTree t) s v w) {c : Scope} (hc : c ∈ (ofTree t).scopes)
    {u : Variable} (hu : u ∈ c.declared) (hne : u ≠ v) : u.newName names = u.name := by
  have hno := notMem_moved ht hs hv h hc hu hne
  refine Variable.newName_eq (fun tag ht => ?_) fun _ => rfl
  exact (current_moved hnames ⟨tag, u.name⟩).trans (if_neg (hno tag (List.mem_append_left _ ht)))

include ha

omit ht in
theorem newName_moved : v.newName names = w := by
  have hid := (fresh_ofTree t s hs).identified v hv ha
  refine Variable.newName_eq (fun tag ht => ?_) fun hi => absurd hi hid
  exact (current_moved hnames ⟨tag, v.name⟩).trans (if_pos (List.mem_append_left _ ht))

include hfree

theorem keeps_of_clear (h : Clear (ofTree t) s v w) :
    ∀ c ∈ (ofTree t).scopes, c.Keeps names := by
  intro c hc
  have hfresh := fresh_ofTree t c hc
  have hself := newName_moved hs hv ha hnames
  have hother : ∀ u ∈ c.declared, u ≠ v → u.newName names = u.name := fun u hu =>
    newName_of_ne ht hs hv hnames h hc hu
  -- The variable is in one scope only, which has no other variable with the new name.
  have hunique : v ∈ c.declared → c = s := by
    intro hvc
    obtain ⟨tag, htag⟩ := List.exists_mem_of_ne_nil _ (hfresh.identified v hvc ha)
    have htag : tag ∈ v.tags := List.mem_append_left _ htag
    exact (owner_unique ht hc hvc hs hv htag htag).1
  have hw' : ∀ u ∈ c.declared, v ∈ c.declared → u.name ≠ w := by
    intro u hu hvc hn
    obtain rfl := hunique hvc
    have hd := (fresh_ofTree t c hc).declares_iff.mpr ⟨u, hu, hn⟩
    rw [hfree] at hd
    cases hd
  apply keeps_of_newName hfresh
  · intro u hu hn
    exact (hother u hu fun huv => ha (huv ▸ hn)).trans hn
  · intro u hu tag htag
    rw [current_moved hnames]
    by_cases huv : u = v
    · subst huv
      rw [hself, if_pos]
      exact List.mem_append.mpr ((List.mem_append.mp htag).imp_right (List.mem_append_left _))
    · rw [hother u hu huv]
      exact if_neg (notMem_moved ht hs hv h hc hu huv tag htag)
  · intro x hx y hy hxy
    by_cases hxv : x = v <;> by_cases hyv : y = v
    · rw [hxv, hyv]
    · subst hxv
      rw [hself, hother y hy hyv] at hxy
      exact absurd hxy.symm (hw' y hy hx)
    · subst hyv
      rw [hself, hother x hx hxv] at hxy
      exact absurd hxy (hw' x hx hy)
    · rwa [hother x hx hxv, hother y hy hyv] at hxy
  · intro hdyn o ho u hu
    have hin := (hfresh.through o).mp ho
    rw [current_moved hnames]
    by_cases huv : u = v
    · -- The variable itself: its uses do not get out, and nothing with its new name does.
      subst huv
      obtain rfl := hunique hu
      rw [hself]
      intro he
      split at he
      · rename_i hm
        rcases List.mem_append.mp hm with hm | hm
        · exact identifier_not_incoming ht hs hv hm hs hin.1 rfl
        · obtain ⟨o', ho', hto, hn'⟩ := exists_of_mem_uses hs hv hm
          have hn := ht.name_eq (mem_identifiers_of_incoming ht hs ho')
            (mem_identifiers_of_incoming ht hs hin.1) hto
          exact hin.2 hdyn u hu (hn'.symm.trans hn)
      · exact h.outside hdyn o ho he
    · rw [hother u hu huv]
      intro he
      split at he
      · rename_i hm
        rcases List.mem_append.mp hm with hm | hm
        · exact identifier_not_incoming ht hs hv hm hc hin.1 rfl
        · exact h.inside c hc hdyn (hfresh.declares_iff.mpr ⟨u, hu, he.symm⟩) o ho hm
      · exact hin.2 hdyn u hu he.symm

include hw

theorem clear_of_unnamed_eq (h : (ofTree (names.apply t)).unnamed = (ofTree t).unnamed) :
    Clear (ofTree t) s v w := by
  have hname : ∀ {o : Occurrence}, o ∈ mentioned (names.apply t) → ∀ {n : String},
      ⟨o.tag, n⟩ ∈ t.identifiers → o.name = if o.tag ∈ v.identifiers ++ s.uses v then w else n :=
    fun ho _ hi => name_of_mentioned ht hs hv hnames ho hi
  -- A variable with the new name and an occurrence with it do not get past each other.
  have hclash : ∀ c ∈ (ofTree t).scopes, c.dynamic = false → ∀ u ∈ c.declared,
      ∀ tag ∈ u.identifiers, (u.name = w ∨ tag ∈ v.identifiers ++ s.uses v) → ∀ o ∈ c.through,
        ¬ (o.name = w ∨ o.tag ∈ v.identifiers ++ s.uses v) := by
    intro c hc hdyn u hu tag htag hut o ho hot
    obtain ⟨c', hc', hdyn', hthrough, hdeclared⟩ := exists_of_unnamed_eq h hc
    obtain ⟨u', hu', hids, -⟩ := hdeclared u hu
    have ho' : o.tag ∈ c'.through.map (·.tag) := hthrough ▸ List.mem_map_of_mem ho
    obtain ⟨o', ho', hto⟩ := List.mem_map.mp ho'
    have hfresh' := fresh_ofTree (names.apply t) c' hc'
    obtain ⟨hin', hno⟩ := (hfresh'.through o').mp ho'
    refine hno (hdyn'.trans hdyn) u' hu' ?_
    have htag' : tag ∈ u'.tags := List.mem_append_left _ (hids ▸ htag)
    have hu'name := hname (mem_mentioned_of_tags hc' hu' htag')
      (mem_identifiers_of_tags ht hc hu (List.mem_append_left _ htag))
    have hin := ((fresh_ofTree t c hc).through o).mp ho
    have ho'name := hname (mem_mentioned_of_incoming hc' hin') (n := o.name)
      (by rw [hto]; exact mem_identifiers_of_incoming ht hc hin.1)
    rw [hto] at ho'name
    have hu'w : u'.name = w := by
      refine hu'name.trans ?_
      split
      · rfl
      · rename_i hm
        exact hut.resolve_right hm
    have ho'w : o'.name = w := by
      refine ho'name.trans ?_
      split
      · rfl
      · rename_i hm
        exact hot.resolve_right hm
    rw [hu'w, ho'w]
  refine ⟨fun c hc hdyn hdecl o ho hm => ?_, fun hdyn o ho hn => ?_,
    fun c hc u hu hne tag htag hm => ?_⟩
  · obtain ⟨u, hu, hun⟩ := (fresh_ofTree t c hc).declares_iff.mp hdecl
    obtain ⟨tag, htag⟩ := List.exists_mem_of_ne_nil _
      ((fresh_ofTree t c hc).identified u hu (hun ▸ hw))
    exact hclash c hc hdyn u hu tag htag (Or.inl hun) o ho (Or.inr (List.mem_append_right _ hm))
  · obtain ⟨tag, htag⟩ := List.exists_mem_of_ne_nil _ ((fresh_ofTree t s hs).identified v hv ha)
    exact hclash s hs hdyn v hv tag htag (Or.inr (List.mem_append_left _ htag)) o ho (Or.inl hn)
  · -- The other variable would have both its old name and the new one.
    obtain ⟨o, ho, rfl, hon⟩ := exists_of_mem_uses hs hv hm
    have hun : u.name = v.name := by
      have hi := mem_identifiers_of_tags ht hc hu (List.mem_append_right _ htag)
      exact (ht.name_eq hi (mem_identifiers_of_incoming ht hs ho) rfl).trans hon
    obtain ⟨tag, hid⟩ := List.exists_mem_of_ne_nil _
      ((fresh_ofTree t c hc).identified u hu (hun ▸ ha))
    obtain ⟨c', hc', -, -, hdeclared⟩ := exists_of_unnamed_eq h hc
    obtain ⟨u', hu', hids, hrefs⟩ := hdeclared u hu
    have hnew := hname
      (mem_mentioned_of_tags hc' hu' (List.mem_append_right _ (hrefs ▸ htag)))
      (mem_identifiers_of_tags ht hc hu (List.mem_append_right _ htag))
    have hold := hname
      (mem_mentioned_of_tags hc' hu' (List.mem_append_left _ (hids ▸ hid)))
      (mem_identifiers_of_tags ht hc hu (List.mem_append_left _ hid))
    rw [if_pos (List.mem_append_right _ hm)] at hnew
    rw [if_neg] at hold
    · have hd := (fresh_ofTree t s hs).declares_iff.mpr
        ⟨v, hv, hun.symm.trans (hold.symm.trans hnew)⟩
      rw [hfree] at hd
      cases hd
    · intro hmoved
      rcases List.mem_append.mp hmoved with hmoved | hmoved
      · exact hne (owner_unique ht hc hu hs hv (List.mem_append_left _ hid)
          (List.mem_append_left _ hmoved)).2
      · obtain ⟨o', ho', ht', -⟩ := exists_of_mem_uses hs hv hmoved
        exact identifier_not_incoming ht hc hu hid hs ho' ht'

theorem unnamed_apply_iff :
    (ofTree (names.apply t)).unnamed = (ofTree t).unnamed ↔ Clear (ofTree t) s v w := by
  refine ⟨clear_of_unnamed_eq ht hs hv ha hw hfree hnames, fun h => ?_⟩
  rw [ofTree_apply (suits_moved ht hs hv hnames) (keeps_of_clear ht hs hv ha hfree hnames h)]
  exact unnamed_renamed names (fresh_ofTree t)

end

theorem rename_eq {root s : Scope} {p : Path} {i : Nat} {v : Variable} (hs : root.at? p = some s)
    (hv : s.declared[i]? = some v) (new : String) (names : Names) :
    (root.rename p i new names).2 = renamedNames s v new names := by
  simp only [rename, hs, hv]

theorem getElem?_rename {t : Tree} {p : Path} {s : Scope} {i : Nat} {v : Variable}
    (hs : (ofTree t).at? p = some s) (hv : s.declared[i]? = some v) (w : String) (tag : Nat) :
    ((ofTree t).rename p i w ∅).2[tag]? =
      if tag ∈ v.identifiers ++ s.uses v then some w else none := by
  have hfresh : ∀ c ∈ s.children, ∀ d ∈ c.scopes, d.Fresh := fun c hc d hd =>
    fresh_ofTree t d (mem_scopes_trans (at?_mem_scopes hs) (mem_scopes_of_child hc hd))
  rw [rename_eq hs hv, getElem?_renamedNames hfresh (.empty v.name w)]
  simp [Variable.tags, uses, or_assoc]

/-- A variable that gets a unique name has this name at its declaring identifiers and uses, which
are its references wherever names are resolved, and no scope around declares it. The scopes of the
tree stay as they are iff nothing is in the way of the name: inner scopes are not looked at. -/
theorem rename_uniqueName_iff_clear {t : Tree} {p : Path} {s : Scope} {i : Nat} {v : Variable}
    (ht : t.wellFormed = true) (hs : (ofTree t.numbered).at? p = some s)
    (hv : s.declared[i]? = some v) (ha : v.name ≠ "arguments") (candidate : String) :
    let root := ofTree t.numbered
    let w := root.uniqueName p candidate
    let names := (root.rename p i w ∅).2
    (w ∉ reservedWords ∧ ∀ c ∈ root.along p, c.declares w = false) ∧
      (∀ tag : Nat, names[tag]? = if tag ∈ v.identifiers ++ s.uses v then some w else none) ∧
      (s.dynamic = false → ∀ tag, tag ∈ s.uses v ↔ tag ∈ v.references) ∧
      ((ofTree (names.apply t.numbered)).unnamed = root.unnamed ↔ Clear root s v w) := by
  intro root w names
  obtain ⟨hreserved, hfree⟩ := uniqueName_free root p candidate
  have hmem := at?_mem_scopes hs
  have hvs := List.mem_of_getElem? hv
  have hdecl : s.declares w = false := hfree s (mem_along hs)
  have hwa : w ≠ "arguments" := fun he => hreserved (show w ∈ reservedWords by rw [he]; decide)
  have hnames := getElem?_rename hs hv w
  exact ⟨⟨hreserved, hfree⟩, hnames, fun hd tag => mem_uses_iff hmem hvs hd,
    unnamed_apply_iff (Tree.wellFormed.numbered ht) hmem hvs ha hwa hdecl hnames⟩

def nestedFunctions : Tree :=
  Form.program [Form.functionDeclaration (Form.identifier "f") [Form.identifier "a"]
    (Form.blockStatement [Form.returnStatement (Form.functionExpression Form.null
      [Form.identifier "b"] (Form.blockStatement [Form.returnStatement (Form.identifier "a")]))])]

def outerFunction : Scope :=
  ((ofTree nestedFunctions.numbered).at? [0]).getD default

def outerParameter : Variable :=
  outerFunction.declared.getD 1 default

theorem at?_outerFunction : (ofTree nestedFunctions.numbered).at? [0] = some outerFunction :=
  (Option.getD_of_ne_none (by
    rw [← Option.isSome_iff_ne_none]
    decide) default).symm

theorem declared_outerFunction : outerFunction.declared[1]? = some outerParameter := by
  rw [outerParameter, List.getD_eq_getElem?_getD]
  exact (Option.getD_of_ne_none (by
    rw [← Option.isSome_iff_ne_none]
    decide) default).symm

theorem rename_uniqueName_nestedFunctions :
    let root := ofTree nestedFunctions.numbered
    let names := (root.rename [0] 1 (root.uniqueName [0] "c") ∅).2
    (nestedFunctions.wellFormed = true ∧ root.at? [0] = some outerFunction ∧
      outerFunction.declared[1]? = some outerParameter ∧ outerParameter.name ≠ "arguments") ∧
      (ofTree (names.apply nestedFunctions.numbered)).unnamed = root.unnamed := by
  have ht : nestedFunctions.wellFormed = true := by decide
  have ha : outerParameter.name ≠ "arguments" := by decide
  refine ⟨⟨ht, at?_outerFunction, declared_outerFunction, ha⟩, ?_⟩
  refine (rename_uniqueName_iff_clear ht at?_outerFunction declared_outerFunction ha
    "c").2.2.2.mpr ?_
  refine clear_of_lexical (Tree.wellFormed.numbered ht) (at?_mem_scopes at?_outerFunction)
    (List.mem_of_getElem? declared_outerFunction) (by decide) (fun c hc _ hd => ?_)
    (by decide)
  have hnone : ∀ c ∈ (ofTree nestedFunctions.numbered).scopes,
      c.declares ((ofTree nestedFunctions.numbered).uniqueName [0] "c") = false := by
    decide
  rw [hnone c hc] at hd
  cases hd

def innerFunction : Scope :=
  ((ofTree nestedFunctions.numbered).at? [0, 0]).getD default

theorem rename_uniqueName_captures :
    let root := ofTree nestedFunctions.numbered
    let names := (root.rename [0] 1 (root.uniqueName [0] "b") ∅).2
    (nestedFunctions.wellFormed = true ∧ root.at? [0] = some outerFunction ∧
      outerFunction.declared[1]? = some outerParameter ∧ outerParameter.name ≠ "arguments") ∧
      (ofTree (names.apply nestedFunctions.numbered)).unnamed ≠ root.unnamed := by
  have ht : nestedFunctions.wellFormed = true := by decide
  have ha : outerParameter.name ≠ "arguments" := by decide
  have hw : (ofTree nestedFunctions.numbered).uniqueName [0] "b" = "b" := by decide
  refine ⟨⟨ht, at?_outerFunction, declared_outerFunction, ha⟩, fun h => ?_⟩
  have hnames := getElem?_rename at?_outerFunction declared_outerFunction "b"
  rw [hw] at h
  have hclear := (unnamed_apply_iff (Tree.wellFormed.numbered ht) (at?_mem_scopes at?_outerFunction)
    (List.mem_of_getElem? declared_outerFunction) ha (by decide) (by decide) hnames).mp h
  have hi : (ofTree nestedFunctions.numbered).at? [0, 0] = some innerFunction :=
    (Option.getD_of_ne_none (by
      rw [← Option.isSome_iff_ne_none]
      decide) default).symm
  have hpast : ∃ o ∈ innerFunction.through, o.tag ∈ outerFunction.uses outerParameter := by
    decide +kernel
  obtain ⟨o, ho, hu⟩ := hpast
  exact hclear.inside innerFunction (at?_mem_scopes hi) (by decide) (by decide) o ho hu

end Scope

end Legible
