import Legible.Proofs.Scope.With

namespace Legible

namespace Tree

mutual

def nameless : Tree → Tree
  | .scalar a => .scalar a
  | .list ts => .list (namelessItems ts)
  | .object tag fs =>
    let gs := namelessFields fs
    .object tag (if Fields.kind fs = "Identifier" then Fields.set "name" .null gs else gs)
termination_by structural t => t

def namelessItems : List Tree → List Tree
  | [] => []
  | t :: ts => t.nameless :: namelessItems ts
termination_by structural ts => ts

def namelessFields : List (String × Tree) → Fields
  | [] => []
  | (k, v) :: fs => (k, v.nameless) :: namelessFields fs
termination_by structural fs => fs

end

theorem namelessItems_eq (ts : List Tree) : namelessItems ts = ts.map nameless := by
  induction ts with
  | nil => rfl
  | cons t ts ih => rw [namelessItems, List.map_cons, ih]

theorem namelessFields_eq (fs : Fields) : namelessFields fs = fs.map fun f => (f.1, f.2.nameless) := by
  induction fs with
  | nil => rfl
  | cons f fs ih => rw [namelessFields, List.map_cons, ih]

theorem set_namelessFields_set (k : String) (u v : Tree) (fs : Fields) :
    Fields.set k u (namelessFields (Fields.set k v fs)) = Fields.set k u (namelessFields fs) := by
  induction fs with
  | nil => simp [Fields.set, namelessFields]
  | cons f fs ih =>
    by_cases hk : f.1 = k
    · simp [Fields.set, namelessFields, hk]
    · simp [Fields.set, namelessFields, hk, ih]

theorem nameless_apply {names : Names} {t : Tree} (h : names.Suits t) :
    (names.apply t).nameless = t.nameless := by
  induction t with
  | scalar a => rfl
  | list ts ih =>
    rw [Names.apply_list, nameless, nameless, namelessItems_eq, namelessItems_eq, List.map_map]
    refine congrArg list (List.map_congr_left fun t ht => ih t ht ⟨h.zero, fun o ho => ?_⟩)
    refine h.others o ?_
    rw [objects_list]
    exact List.mem_flatMap.mpr ⟨t, ht, ho⟩
  | object tag fs ih =>
    have hobjects := h.others
    rw [objects_object, List.forall_mem_cons] at hobjects
    have hfields : namelessFields (names.applyFields fs) = namelessFields fs := by
      rw [Names.applyFields_eq, namelessFields_eq, namelessFields_eq, List.map_map]
      refine List.map_congr_left fun f hf => Prod.ext rfl (ih f hf ⟨h.zero, fun o ho => ?_⟩)
      exact hobjects.2 o (List.mem_flatMap.mpr ⟨f, hf, ho⟩)
    rw [Names.apply_object, nameless, nameless]
    simp only [Names.kind_newFields]
    congr 1
    by_cases hk : Fields.kind fs = "Identifier"
    · rw [if_pos hk, if_pos hk, Names.newFields]
      split
      · rw [set_namelessFields_set, hfields]
      · rw [hfields]
    · rw [if_neg hk, if_neg hk, Names.newFields, hobjects.1 hk]
      exact hfields

end Tree

namespace Scope

def unresolved (root : Scope) (name : String) : List (Path × Reference) :=
  root.recorded.filter fun m => m.2.name == name && (root.binder? m.1 name).isNone

def hides (root : Scope) (name : String) (p : Path) : Bool :=
  p.inits.tail.any fun q => (root.at? q).any (·.declares name)

def affected (root s : Scope) (v : Variable) (hidden : Path → Bool) : List Nat :=
  v.tags ++ if s.dynamic then
    ((root.unresolved v.name).filter fun m => !hidden m.1).map (·.2.tag) else []

/-- What renaming is meant to change: nothing below a scope that declares the name as well. -/
def intended (root s : Scope) (v : Variable) : List Nat :=
  root.affected s v (root.hides v.name)

/-- What renaming changes: of the scopes on the way to a reference only the outermost one below the
variable is asked. -/
def changed (root s : Scope) (v : Variable) : List Nat :=
  root.affected s v fun p => root.hides v.name (p.take 1)

variable {root : Scope} {name : String}

theorem hides_singleton (root : Scope) (name : String) (i : Nat) :
    root.hides name [i] = (root.children[i]?).any (·.declares name) := by
  have hinits : [i].inits.tail = [[i]] := rfl
  rw [hides, hinits, List.any_cons, List.any_nil, Bool.or_false, at?]
  cases root.children[i]? <;> rfl

theorem hides_of_take {p : Path} (h : root.hides name (p.take 1) = true) :
    root.hides name p = true := by
  cases p with
  | nil => exact h
  | cons i p =>
    rw [List.take_succ_cons, List.take_zero, hides_singleton] at h
    rw [hides, List.inits_cons, List.tail_cons, List.any_map, List.any_eq_true]
    refine ⟨[], (List.mem_inits [] p).mpr List.nil_prefix, ?_⟩
    rw [Function.comp_apply, at?]
    cases hc : root.children[i]? with
    | none => rw [hc] at h; cases h
    | some c => rwa [hc] at h

theorem mem_unresolved {m : Path × Reference} : m ∈ root.unresolved name ↔
    m ∈ root.recorded ∧ m.2.name = name ∧ root.binder? m.1 name = none := by
  rw [unresolved, List.mem_filter, Bool.and_eq_true, beq_iff_eq, Option.isNone_iff_eq_none]

theorem mem_through_child_iff {t : Tree} (hd : (ofTree t).dynamic = true) {i : Nat} {c : Scope}
    (hc : (ofTree t).children[i]? = some c) {o : Occurrence} :
    o ∈ c.through ↔ ∃ m ∈ (ofTree t).unresolved o.name, [i] <+: m.1 ∧ m.2.occurrence = o := by
  have hat : (ofTree t).at? [i] = some c := by rw [at?, hc]; rfl
  rw [((lexical_ofTree t).through [i] c hat).mem_iff, List.mem_map]
  simp only [mem_unresolved, List.mem_filter, passes, Bool.and_eq_true,
    List.isPrefixOf_iff_prefix]
  constructor
  · rintro ⟨m, ⟨hm, hi, hpass⟩, rfl⟩
    refine ⟨m, ⟨hm, rfl, ?_⟩, hi, rfl⟩
    rw [Option.eq_none_iff_forall_ne_some]
    intro q hq
    rw [show m.2.occurrence.name = m.2.name from rfl] at hq
    rw [hq, Option.all_some, decide_eq_true_iff, List.length_singleton, Nat.lt_one_iff,
      List.length_eq_zero_iff] at hpass
    -- The outermost scope resolves nothing.
    have hroot := List.find?_some hq
    rw [hpass, at?, Option.any_some, resolves, hd] at hroot
    cases hroot
  · rintro ⟨m, ⟨hm, hn, hnone⟩, hi, rfl⟩
    refine ⟨m, ⟨hm, hi, ?_⟩, rfl⟩
    rw [hn, hnone]
    rfl

theorem mem_reaching_iff {t : Tree} (hd : (ofTree t).dynamic = true) {tag : Nat} :
    tag ∈ ((ofTree t).reaching name).map (·.tag) ↔ ∃ m ∈ (ofTree t).unresolved name,
      (ofTree t).hides name (m.1.take 1) = false ∧ m.2.tag = tag := by
  constructor
  · intro h
    obtain ⟨o, ho, rfl⟩ := List.mem_map.mp h
    obtain ⟨ho, hn⟩ := List.mem_filter.mp ho
    obtain rfl := eq_of_beq hn
    rcases List.mem_append.mp ho with ho | ho
    · obtain ⟨r, hr, rfl⟩ := List.mem_map.mp ho
      refine ⟨([], r), mem_unresolved.mpr ⟨mem_recorded rfl hr, rfl, ?_⟩, rfl, rfl⟩
      rw [binder?_nil, resolves, hd]
      rfl
    · obtain ⟨c, hc, ho⟩ := List.mem_flatMap.mp ho
      obtain ⟨hc, hdecl⟩ := List.mem_filter.mp hc
      obtain ⟨i, hi⟩ := List.mem_iff_getElem?.mp hc
      obtain ⟨m, hm, ⟨p, hp⟩, rfl⟩ := (mem_through_child_iff hd hi).mp ho
      refine ⟨m, hm, ?_, rfl⟩
      rw [← hp, List.singleton_append, List.take_succ_cons, List.take_zero, hides_singleton, hi]
      exact Bool.not_eq_true' _ ▸ hdecl
  · rintro ⟨⟨p, r⟩, hm, hhides, rfl⟩
    obtain ⟨hrecorded, hn, -⟩ := mem_unresolved.mp hm
    obtain rfl : r.occurrence.name = name := hn
    refine List.mem_map.mpr ⟨r.occurrence, List.mem_filter.mpr ⟨?_, beq_self_eq_true _⟩, rfl⟩
    obtain ⟨s, hs, hr⟩ := exists_of_mem_recorded hrecorded
    cases p with
    | nil =>
      obtain rfl := Option.some.inj hs
      exact List.mem_append_left _ (List.mem_map_of_mem hr)
    | cons i p =>
      obtain ⟨c, hc, -⟩ := Option.bind_eq_some_iff.mp hs
      rw [List.take_succ_cons, List.take_zero, hides_singleton, hc, Option.any_some] at hhides
      refine List.mem_append_right _ (List.mem_flatMap.mpr ⟨c, List.mem_filter.mpr ?_, ?_⟩)
      · exact ⟨List.mem_of_getElem? hc, by rw [hhides]; rfl⟩
      · exact (mem_through_child_iff hd hc).mpr ⟨(i :: p, r), hm, List.prefix_append [i] p, rfl⟩

theorem changed_of_not_dynamic {s : Scope} (hd : s.dynamic = false) (v : Variable) :
    root.changed s v = v.tags ∧ root.intended s v = v.tags := by
  have haffected : ∀ hidden, root.affected s v hidden = v.tags := fun hidden => by
    rw [affected, hd, if_neg Bool.false_ne_true, List.append_nil]
  exact ⟨haffected _, haffected _⟩

theorem mem_affected {s : Scope} (hd : s.dynamic = true) {v : Variable} {hidden : Path → Bool}
    {tag : Nat} : tag ∈ root.affected s v hidden ↔
      tag ∈ v.tags ∨ ∃ m ∈ root.unresolved v.name, hidden m.1 = false ∧ m.2.tag = tag := by
  rw [affected, hd, if_pos rfl, List.mem_append, List.mem_map]
  simp only [List.mem_filter, Bool.not_eq_true', and_assoc]

theorem mem_changed_iff {t : Tree} {p : Path} {s : Scope} (hs : (ofTree t).at? p = some s)
    (hd : s.dynamic = false ∨ p = []) {v : Variable} (hv : v ∈ s.declared) {tag : Nat} :
    tag ∈ v.identifiers ++ s.uses v ↔ tag ∈ (ofTree t).changed s v := by
  cases hdyn : s.dynamic with
  | false =>
    rw [(changed_of_not_dynamic hdyn v).1, List.mem_append, mem_uses_iff (at?_mem_scopes hs) hv hdyn,
      ← List.mem_append, Variable.tags]
  | true =>
    obtain rfl := hd.resolve_left (by rw [hdyn]; exact Bool.noConfusion)
    obtain rfl := Option.some.inj hs
    rw [changed, mem_affected hdyn, ← mem_reaching_iff hdyn, uses, ← List.append_assoc,
      List.mem_append, Variable.tags]

theorem changed_eq_intended_iff {t : Tree} (ht : t.Numbered) {s : Scope}
    (hs : s ∈ (ofTree t).scopes) {v : Variable} (hv : v ∈ s.declared) :
    (∀ tag, tag ∈ (ofTree t).changed s v ↔ tag ∈ (ofTree t).intended s v) ↔
      (s.dynamic = true → ∀ m ∈ (ofTree t).unresolved v.name,
        (ofTree t).hides v.name m.1 = true → (ofTree t).hides v.name (m.1.take 1) = true) := by
  cases hdyn : s.dynamic with
  | false => simp [changed_of_not_dynamic hdyn]
  | true =>
    constructor
    · intro h _ m hm hhides
      by_contra hno
      have hchanged : m.2.tag ∈ (ofTree t).changed s v :=
        (mem_affected hdyn).mpr (Or.inr ⟨m, hm, Bool.eq_false_iff.mpr hno, rfl⟩)
      obtain ⟨hrecorded, hn, hnone⟩ := mem_unresolved.mp hm
      obtain ⟨c, hc, hr⟩ := exists_of_mem_recorded hrecorded
      rcases (mem_affected hdyn).mp ((h m.2.tag).mp hchanged) with htag | ⟨m', hm', hhides', htag⟩
      · -- A reference without a variable gets out of all scopes.
        have hthrough : m.2.occurrence ∈ (ofTree t).through :=
          mem_through_of_unresolved hc hr (hn ▸ hnone) List.nil_prefix rfl
        exact through_notMem_tags ht hs hv hthrough htag
      · have hsame := List.inj_on_of_nodup_map (nodup_recorded ht) (mem_unresolved.mp hm').1
          hrecorded htag
        rw [hsame, hhides] at hhides'
        cases hhides'
    · intro h tag
      rw [changed, intended, mem_affected hdyn, mem_affected hdyn]
      refine or_congr_right (exists_congr fun m => and_congr_right fun hm => and_congr_left' ?_)
      rw [← Bool.not_eq_true, ← Bool.not_eq_true, not_iff_not]
      exact ⟨hides_of_take, h rfl m hm⟩

theorem notMem_changed {t : Tree} (ht : t.Numbered) {s : Scope} (hs : s ∈ (ofTree t).scopes)
    {v : Variable} (hv : v ∈ s.declared) {c : Scope} (hc : c ∈ (ofTree t).scopes) {u : Variable}
    (hu : u ∈ c.declared) (hne : u ≠ v) {tag : Nat} (htag : tag ∈ u.tags) :
    tag ∉ (ofTree t).changed s v := by
  intro h
  rw [changed, affected, List.mem_append] at h
  rcases h with h | h
  · exact hne (owner_unique ht hc hu hs hv htag h).2
  · split at h
    · obtain ⟨m, hm, rfl⟩ := List.mem_map.mp h
      obtain ⟨hrecorded, hn, hnone⟩ := mem_unresolved.mp (List.mem_filter.mp hm).1
      obtain ⟨d, hd, hr⟩ := exists_of_mem_recorded hrecorded
      have hthrough : m.2.occurrence ∈ (ofTree t).through :=
        mem_through_of_unresolved hd hr (hn ▸ hnone) List.nil_prefix rfl
      exact through_notMem_tags ht hc hu hthrough htag
    · cases h

/-- Renaming a variable of a scope that resolves names, or of the outermost one, changes the names
of its identifiers and references and, in the outermost scope of a script, those of the references
without a variable that the scopes right below let through; nothing else in the tree changes, and no
other variable is touched. The scopes further inside hide the variable as well iff no reference is
hidden there for the first time. -/
theorem rename_exact {t : Tree} (ht : t.wellFormed = true) {p : Path} {s : Scope} {i : Nat}
    {v : Variable} (hs : (ofTree t.numbered).at? p = some s) (hv : s.declared[i]? = some v)
    (hd : s.dynamic = false ∨ p = []) (new : String) :
    let root := ofTree t.numbered
    let names := (root.rename p i new ∅).2
    (∀ tag : Nat, names[tag]? = if tag ∈ root.changed s v then some new else none) ∧
      (∀ tag ∈ root.changed s v, ⟨tag, v.name⟩ ∈ t.numbered.identifiers) ∧
      (names.apply t.numbered).nameless = t.numbered.nameless ∧
      (∀ c ∈ root.scopes, ∀ u ∈ c.declared, u ≠ v → ∀ tag ∈ u.tags, names[tag]? = none) ∧
      ((∀ tag : Nat, names[tag]? = if tag ∈ root.intended s v then some new else none) ↔
        (s.dynamic = true → ∀ m ∈ root.unresolved v.name,
          root.hides v.name m.1 = true → root.hides v.name (m.1.take 1) = true)) := by
  intro root names
  have hn := Tree.wellFormed.numbered ht
  have hmem := at?_mem_scopes hs
  have hvs := List.mem_of_getElem? hv
  have hmoved := getElem?_rename hs hv new
  have hnames : ∀ tag : Nat, names[tag]? = if tag ∈ root.changed s v then some new else none :=
    fun tag => (hmoved tag).trans (if_congr (mem_changed_iff hs hd hvs) rfl rfl)
  refine ⟨hnames, fun tag htag => ?_, Tree.nameless_apply (suits_moved hn hmem hvs hmoved),
    fun c hc u hu hne tag htag => ?_, ?_⟩
  · exact mem_identifiers_of_moved hn hmem hvs ((mem_changed_iff hs hd hvs).mpr htag)
  · rw [hnames, if_neg (notMem_changed hn hmem hvs hc hu hne htag)]
  · rw [← changed_eq_intended_iff hn hmem hvs]
    refine forall_congr' fun tag => ?_
    change _ ↔ (tag ∈ root.changed s v ↔ tag ∈ root.intended s v)
    rw [hnames]
    by_cases hc : tag ∈ root.changed s v <;> by_cases hi : tag ∈ root.intended s v <;> simp [hc, hi]

def globalUse : Tree :=
  Form.program [
    Form.variableDeclaration "var" [Form.variableDeclarator (Form.identifier "f") Form.null],
    Form.functionDeclaration (Form.identifier "g") [Form.identifier "f"]
      (Form.blockStatement [Form.returnStatement (Form.identifier "f")]),
    Form.functionDeclaration (Form.identifier "h") []
      (Form.blockStatement [Form.withStatement (Form.identifier "o")
        (Form.expressionStatement (Form.identifier "f"))])]

def globalVariable (t : Tree) : Variable :=
  (ofTree t.numbered).declared.getD 0 default

theorem rename_exact_globalUse :
    let root := ofTree globalUse.numbered
    let names := (root.rename [] 0 "y" ∅).2
    (globalUse.wellFormed = true ∧ root.at? [] = some root ∧
      root.declared[0]? = some (globalVariable globalUse)) ∧
      (∀ tag : Nat, names[tag]? = if tag ∈ [4, 17] then some "y" else none) ∧
      globalUse.numbered.identifiers.map (fun o => (o.tag, o.name)) =
        [(4, "f"), (6, "g"), (7, "f"), (10, "f"), (12, "h"), (15, "o"), (17, "f")] := by
  have ht : globalUse.wellFormed = true := by decide
  have hv : (ofTree globalUse.numbered).declared[0]? = some (globalVariable globalUse) := rfl
  refine ⟨⟨ht, rfl, hv⟩, fun tag => ?_, by decide⟩
  have hchanged : (ofTree globalUse.numbered).changed (ofTree globalUse.numbered)
      (globalVariable globalUse) = [4, 17] := by
    decide
  rw [(rename_exact ht rfl hv (Or.inr rfl) "y").1, hchanged]

def hiddenUse : Tree :=
  Form.program [
    Form.variableDeclaration "var" [Form.variableDeclarator (Form.identifier "f") Form.null],
    Form.functionDeclaration (Form.identifier "g") []
      (Form.blockStatement [Form.withStatement (Form.identifier "o")
        (Form.ifStatement (Form.identifier "a")
          (Form.functionDeclaration (Form.identifier "f") [] (Form.blockStatement []))
          (Form.expressionStatement (Form.callExpression (Form.identifier "f") [])))])]

theorem rename_reaches_hidden :
    let root := ofTree hiddenUse.numbered
    let names := (root.rename [] 0 "y" ∅).2
    (hiddenUse.wellFormed = true ∧ hiddenUse.isKind "Program" = true ∧
      (∀ x ∈ hiddenUse.objects, x.2.kind = "WithStatement" →
        (x.2.get "body").isKind "IfStatement" = true) ∧
      root.declared[0]? = some (globalVariable hiddenUse) ∧
      (root.unresolved "f").map (fun m => (m.1, m.2.tag)) = [([0, 0], 17)]) ∧
      (root.at? [0, 0]).map (·.declares "f") = some true ∧
      17 ∉ root.intended root (globalVariable hiddenUse) ∧ names[17]? = some "y" := by
  have hv : (ofTree hiddenUse.numbered).declared[0]? = some (globalVariable hiddenUse) := rfl
  refine ⟨⟨by decide, by decide, by decide, hv, by decide +kernel⟩, by decide, by decide, ?_⟩
  exact (getElem?_rename rfl hv "y" 17).trans (if_pos (by decide))

end Scope

end Legible
