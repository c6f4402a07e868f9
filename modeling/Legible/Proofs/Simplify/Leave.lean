import Legible.Proofs.Simplify.Termination

namespace Legible

namespace Fields

theorem lookup_erase_of_ne {key other : String} (h : other ≠ key) (fs : Fields) :
    (erase key fs).lookup other = fs.lookup other := by
  induction fs with
  | nil => rfl
  | cons f fs ih =>
    obtain ⟨k, v⟩ := f
    rw [erase] at ih ⊢
    by_cases hk : k = key
    · have ho : (other == key) = false := beq_false_of_ne h
      simp [hk, List.lookup_cons, ih, ho]
    · simp [hk, List.lookup_cons, ih]

end Fields

namespace Tree

theorem field?_erase_of_ne {key other : String} (h : other ≠ key) (t : Tree) :
    (t.erase key).field? other = t.field? other := by
  cases t with
  | scalar a => rfl
  | list ts => rfl
  | object tag fs => exact Fields.lookup_erase_of_ne h fs

theorem get_erase_of_ne {key other : String} (h : other ≠ key) (t : Tree) :
    (t.erase key).get other = t.get other := by
  rw [get, field?_erase_of_ne h, get]

theorem tag_erase (t : Tree) (key : String) : (t.erase key).tag = t.tag := by
  cases t <;> rfl

theorem distinct_erase {t : Tree} (h : t.distinct = true) (key : String) :
    (t.erase key).distinct = true := by
  cases t with
  | scalar a => rfl
  | list ts => exact h
  | object tag fs =>
    rw [distinct_object] at h
    have hsub : (Fields.erase key fs).Sublist fs := List.filter_sublist
    exact distinct_object.mpr ⟨h.1.sublist (hsub.map _), fun f hf => h.2 f (hsub.subset hf)⟩

theorem isKind_iff {t : Tree} {kind : String} : t.isKind kind = true ↔ t.kind? = some kind :=
  beq_iff_eq

theorem kind_of_kind? {t : Tree} {kind : String} (h : t.kind? = some kind) : t.kind = kind := by
  rw [Tree.kind, h]
  rfl

theorem kind?_of_kind {t : Tree} {kind : String} (h : t.kind = kind) (hk : kind ≠ "") :
    t.kind? = some kind := by
  rw [Tree.kind] at h
  cases hx : t.kind? with
  | none => rw [hx] at h; exact absurd h.symm hk
  | some x => rw [hx] at h; exact congrArg some h

theorem isKind_of_not_isNode {t : Tree} (h : t.isNode = false) (kind : String) :
    t.isKind kind = false := by
  rw [← Bool.not_eq_true, isKind_iff]
  intro hk
  rw [Pattern.isNode_of_kind? hk] at h
  cases h

theorem mem_items_of_mem_childrenAt {t c : Tree} {key : String} {ts : List Tree}
    (h : t.get key = .list ts) : c ∈ t.childrenAt key ↔ c ∈ ts ∧ c.isNode = true := by
  rw [childrenAt, h]
  exact mem_heldNodes_of_list

theorem distinct_of_mem_items {t c : Tree} (h : t.distinct = true) (hc : c ∈ t.items) :
    c.distinct = true := by
  cases t with
  | scalar a => cases hc
  | object tag fs => cases hc
  | list ts => exact distinct_list.mp h c hc

theorem mem_childrenAt_of_mem_items {t c : Tree} {key : String} (hc : c ∈ (t.get key).items)
    (hn : c.isNode = true) : c ∈ t.childrenAt key := by
  rw [childrenAt]
  cases hv : t.get key with
  | scalar a => rw [hv] at hc; cases hc
  | object tag fs => rw [hv] at hc; cases hc
  | list ts =>
    rw [hv] at hc
    exact mem_heldNodes_of_list.mpr ⟨hc, hn⟩

end Tree

namespace Simplify

theorem flattenedItems_eq (ts : List Tree) : flattenedItems ts = ts.flatMap flattened := by
  induction ts with
  | nil => rfl
  | cons t ts ih => rw [flattenedItems, ih, List.flatMap_cons]

theorem flattenedField_eq (fs : Fields) : flattenedField fs =
    ((fs.lookup "body").getD .null).items.flatMap flattened := by
  induction fs with
  | nil => rfl
  | cons f fs ih =>
    obtain ⟨k, v⟩ := f
    by_cases hk : k = "body"
    · subst hk
      rw [List.lookup_cons_self, Option.getD_some]
      cases v with
      | list ts => simp only [flattenedField, if_true, Tree.items, flattenedItems_eq]
      | scalar a => simp [flattenedField, Tree.items]
      | object tag gs => simp [flattenedField, Tree.items]
    · have hb : ("body" == k) = false := beq_false_of_ne (Ne.symm hk)
      rw [List.lookup_cons, hb, ← ih]
      cases v <;> simp only [flattenedField, hk, if_false]

theorem flattened_eq (t : Tree) : flattened t =
    if t.isKind "Program" then (t.get "body").items.flatMap flattened else [t] := by
  cases t with
  | scalar a => rfl
  | list ts => rfl
  | object tag fs => rw [flattened, flattenedField_eq, Tree.get_object]

theorem mem_childKeys_program {t : Tree} (hk : t.isKind "Program" = true) :
    "body" ∈ t.childKeys := by
  rw [Tree.childKeys_of_kind? (Tree.isKind_iff.mp hk) rfl]
  exact List.mem_singleton_self _

@[elab_as_elim]
theorem statements_induction {motive : Tree → Prop}
    (list : ∀ t, t.isKind "Program" = true → (∀ c ∈ (t.get "body").items, motive c) → motive t)
    (other : ∀ t, t.isKind "Program" = false → motive t) (t : Tree) : motive t := by
  induction t using Tree.children_induction with
  | node t ih =>
    cases hk : t.isKind "Program" with
    | false => exact other t hk
    | true =>
      refine list t hk fun c hc => ?_
      cases hn : c.isNode with
      | false => exact other c (Tree.isKind_of_not_isNode hn _)
      | true =>
        have hm := Tree.mem_childrenAt_of_mem_items hc hn
        exact ih c (Tree.mem_children.mpr ⟨"body", mem_childKeys_program hk, hm⟩)

theorem flattened_list {t : Tree} (hk : t.isKind "Program" = true) :
    flattened t = (t.get "body").items.flatMap flattened := by
  rw [flattened_eq, if_pos hk]

theorem flattened_other {t : Tree} (hk : t.isKind "Program" = false) : flattened t = [t] := by
  rw [flattened_eq, if_neg (Bool.eq_false_iff.mp hk)]

theorem isNode_of_mem_flattened {d x : Tree} (h : x ∈ flattened d) (hx : x.isNode = true) :
    d.isNode = true := by
  by_contra hd
  rw [flattened_other (Tree.isKind_of_not_isNode (Bool.of_not_eq_true hd) _)] at h
  rw [List.mem_singleton.mp h] at hx
  exact hd hx

theorem isKind_of_mem_flattened {d x : Tree} (h : x ∈ flattened d) : x.isKind "Program" = false := by
  induction d using statements_induction with
  | list d hk ih =>
    rw [flattened_list hk] at h
    obtain ⟨e, he, hm⟩ := List.mem_flatMap.mp h
    exact ih e he hm
  | other d hk =>
    rw [flattened_other hk] at h
    rwa [List.mem_singleton.mp h]

theorem distinct_of_mem_flattened {d x : Tree} (hd : d.distinct = true) (h : x ∈ flattened d) :
    x.distinct = true := by
  induction d using statements_induction with
  | list d hk ih =>
    rw [flattened_list hk] at h
    obtain ⟨e, he, hm⟩ := List.mem_flatMap.mp h
    exact ih e he (Tree.distinct_of_mem_items (Tree.distinct_get hd "body") he) hm
  | other d hk =>
    rw [flattened_other hk] at h
    rwa [List.mem_singleton.mp h]

def Level (place : Place) (t : Tree) : Prop :=
  (t.isKind "Program" = true →
      ∀ parent, place.parent = some parent → statementField? parent.kind = place.key) ∧
    ∀ field, statementField? t.kind = some field → ∀ c ∈ (t.get field).items,
      c.isKind "Program" = false

theorem statementField?_cases {kind field : String} (h : statementField? kind = some field) :
    kind = "Program" ∧ field = "body" ∨ kind = "BlockStatement" ∧ field = "body" ∨
      kind = "SwitchCase" ∧ field = "consequent" := by
  unfold statementField? at h
  split at h <;> simp_all

theorem asBlock_cases (t : Tree) (place : Place) :
    asBlock t place = t ∧ (t.isKind "Program" = true →
        ∀ parent, place.parent = some parent → statementField? parent.kind = place.key) ∨
      asBlock t place = (t.set "type" (.text "BlockStatement")).erase "sourceType" ∧
        t.isKind "Program" = true ∧
          ∃ parent, place.parent = some parent ∧ statementField? parent.kind ≠ place.key := by
  unfold asBlock
  cases hp : place.parent with
  | none => exact Or.inl ⟨rfl, fun _ _ h => by cases h⟩
  | some parent =>
    dsimp only
    split
    · rename_i h
      rw [Bool.and_eq_true, bne_iff_ne] at h
      exact Or.inr ⟨rfl, h.1, parent, rfl, h.2⟩
    · rename_i h
      refine Or.inl ⟨rfl, fun hk q hq => ?_⟩
      rw [← Option.some.inj hq]
      simpa [hk] using h

theorem kind?_block {t : Tree} (h : t.isNode = true) :
    ((t.set "type" (.text "BlockStatement")).erase "sourceType").kind? = some "BlockStatement" := by
  rw [Tree.kind?, Tree.get_erase_of_ne (by decide), Tree.get_set h]
  rfl

theorem flattenStatements_cases (t : Tree) :
    flattenStatements t = t ∧ (∀ field, statementField? t.kind = some field →
        ∀ c ∈ (t.get field).items, c.isKind "Program" = false) ∨
      ∃ field, flattenStatements t = t.set field (.list ((t.get field).items.flatMap flattened)) ∧
        statementField? t.kind = some field ∧
          ∃ c ∈ (t.get field).items, c.isKind "Program" = true := by
  unfold flattenStatements
  cases hf : statementField? t.kind with
  | none => exact Or.inl ⟨rfl, fun _ h => by cases h⟩
  | some field =>
    dsimp only
    split
    · rename_i h
      exact Or.inr ⟨field, by rw [flattenedItems_eq], rfl, List.any_eq_true.mp h⟩
    · rename_i h
      refine Or.inl ⟨rfl, fun f hf' c hc => ?_⟩
      rw [← Option.some.inj hf'] at hc
      simpa using fun hk => h (List.any_eq_true.mpr ⟨c, hc, hk⟩)

def left (t : Tree) (place : Place) : Tree :=
  flattenStatements (asBlock t place)

theorem leave_eq {t : Tree} (h : t.isNode = true) (place : Place) (s : State) :
    leave t place s = (some (left t place), s) :=
  if_pos h

theorem leave_state (t : Tree) (place : Place) (s : State) :
    leave t place s = ((leave t place s).1, s) := by
  unfold leave
  split <;> rfl

theorem left_of_level {t : Tree} {place : Place} (h : Level place t) : left t place = t := by
  rw [left]
  rcases asBlock_cases t place with ⟨hb, -⟩ | ⟨-, hk, parent, hp, hne⟩
  · rw [hb]
    rcases flattenStatements_cases t with ⟨hf, -⟩ | ⟨field, -, hf, c, hc, hk⟩
    · exact hf
    · rw [h.2 field hf c hc] at hk
      cases hk
  · exact absurd (h.1 hk parent hp) hne

structure Leaves (place : Place) (t u : Tree) : Prop where
  node : u.isNode = true
  distinct : u.distinct = true
  tag : u.tag = t.tag
  level : Level place u
  kind : u.kind? = t.kind? ∨
    place.parent ≠ none ∧ t.kind? = some "Program" ∧ u.kind? = some "BlockStatement"
  list : u = t ∨ ∃ field, statementField? u.kind = some field
  below : ∀ key ∈ u.childKeys, ∀ x ∈ u.childrenAt key, key ∈ t.childKeys ∧ (x ∈ t.childrenAt key ∨
    statementField? u.kind = some key ∧ ∃ d ∈ t.childrenAt key, x ∈ flattened d)

theorem leaves_asBlock {t : Tree} (hn : t.isNode = true) (hd : t.distinct = true) (place : Place) :
    (asBlock t place).isNode = true ∧ (asBlock t place).distinct = true ∧
      (asBlock t place).tag = t.tag ∧
      ((asBlock t place).isKind "Program" = true →
        ∀ parent, place.parent = some parent → statementField? parent.kind = place.key) ∧
      (asBlock t place = t ∨ place.parent ≠ none ∧ t.kind? = some "Program" ∧
        (asBlock t place).kind? = some "BlockStatement") ∧
      ∀ key ∈ (asBlock t place).childKeys,
        key ∈ t.childKeys ∧ (asBlock t place).get key = t.get key := by
  rcases asBlock_cases t place with ⟨hb, hl⟩ | ⟨hb, hk, parent, hp, -⟩
  · rw [hb]
    exact ⟨hn, hd, rfl, hl, Or.inl rfl, fun key hkey => ⟨hkey, rfl⟩⟩
  · rw [Tree.isKind_iff] at hk
    rw [hb, Tree.isKind_iff]
    have hkind := kind?_block hn
    have hparent : place.parent ≠ none := by
      rw [hp]
      exact Option.some_ne_none _
    refine ⟨Pattern.isNode_of_kind? hkind, ?_, (Tree.tag_erase ..).trans (Tree.tag_set ..), ?_,
      Or.inr ⟨hparent, hk, hkind⟩, fun key hkey => ?_⟩
    · exact Tree.distinct_erase (Tree.distinct_set hd (v := .text _) rfl _) _
    · rw [hkind]
      exact fun h => absurd h (by decide)
    · rw [Tree.childKeys_of_kind? hkind rfl, List.mem_singleton] at hkey
      subst hkey
      rw [Tree.childKeys_of_kind? hk rfl, Tree.get_erase_of_ne (by decide),
        Tree.get_set_of_ne (by decide)]
      exact ⟨List.mem_singleton_self _, rfl⟩

theorem leaves_flattenStatements {t : Tree} (hn : t.isNode = true) (hd : t.distinct = true) :
    (flattenStatements t).isNode = true ∧ (flattenStatements t).distinct = true ∧
      (flattenStatements t).tag = t.tag ∧ (flattenStatements t).kind? = t.kind? ∧
      (∀ field, statementField? t.kind = some field →
        ∀ c ∈ ((flattenStatements t).get field).items, c.isKind "Program" = false) ∧
      (flattenStatements t = t ∨ ∃ field, statementField? t.kind = some field) ∧
      ∀ key ∈ (flattenStatements t).childKeys, ∀ x ∈ (flattenStatements t).childrenAt key,
        key ∈ t.childKeys ∧ (x ∈ t.childrenAt key ∨
          statementField? t.kind = some key ∧ ∃ d ∈ t.childrenAt key, x ∈ flattened d) := by
  rcases flattenStatements_cases t with ⟨hf, hl⟩ | ⟨field, hf, hfield, -⟩
  · rw [hf]
    exact ⟨hn, hd, rfl, rfl, hl, Or.inl rfl, fun key hk x hx => ⟨hk, Or.inl hx⟩⟩
  · have htype : "type" ≠ field := by
      rcases statementField?_cases hfield with ⟨-, rfl⟩ | ⟨-, rfl⟩ | ⟨-, rfl⟩ <;> decide
    have hkind : (flattenStatements t).kind? = t.kind? := by
      rw [hf, Tree.kind?, Tree.get_set_of_ne htype, Tree.kind?]
    rw [hf] at hkind ⊢
    have hlist : ∀ x ∈ (t.get field).items.flatMap flattened, x.distinct = true := by
      intro x hx
      obtain ⟨d, hd', hm⟩ := List.mem_flatMap.mp hx
      exact distinct_of_mem_flattened (Tree.distinct_of_mem_items (Tree.distinct_get hd field) hd') hm
    have hkeys : ∀ u : Tree, u.kind? = t.kind? → u.childKeys = t.childKeys := by
      intro u hu
      have ht : ∀ kind, t.kind = kind → kind ≠ "" → t.kind? = some kind := fun _ => Tree.kind?_of_kind
      rcases statementField?_cases hfield with ⟨hk, -⟩ | ⟨hk, -⟩ | ⟨hk, -⟩ <;>
        rw [ht _ hk (by decide)] at hu <;>
        rw [Tree.childKeys_of_kind? hu rfl, Tree.childKeys_of_kind? (ht _ hk (by decide)) rfl]
    refine ⟨Tree.isNode_set hn .., Tree.distinct_set hd (Tree.distinct_list.mpr hlist) _,
      Tree.tag_set .., hkind, fun f hf' c hc => ?_, Or.inr ⟨field, hfield⟩, fun key hk x hx => ?_⟩
    · obtain rfl := Option.some.inj (hfield.symm.trans hf')
      rw [Tree.get_set hn] at hc
      obtain ⟨d, -, hm⟩ := List.mem_flatMap.mp hc
      exact isKind_of_mem_flattened hm
    · rw [hkeys _ hkind] at hk
      refine ⟨hk, ?_⟩
      by_cases he : key = field
      · subst he
        rw [Tree.childrenAt, Tree.get_set hn] at hx
        obtain ⟨hx, hxn⟩ := Tree.mem_heldNodes_of_list.mp hx
        obtain ⟨d, hd', hm⟩ := List.mem_flatMap.mp hx
        have hdn := isNode_of_mem_flattened hm hxn
        exact Or.inr ⟨hfield, d, Tree.mem_childrenAt_of_mem_items hd' hdn, hm⟩
      · rw [Tree.childrenAt, Tree.get_set_of_ne he] at hx
        exact Or.inl hx

theorem leaves_left {t : Tree} (hn : t.isNode = true) (hd : t.distinct = true) (place : Place) :
    Leaves place t (left t place) := by
  obtain ⟨hn', hd', htag, hprogram, hkind, hget⟩ := leaves_asBlock hn hd place
  obtain ⟨hn'', hd'', htag', hkind', hitems, hlist, hbelow⟩ := leaves_flattenStatements hn' hd'
  have hk : (left t place).kind = (asBlock t place).kind := by
    rw [Tree.kind, left, hkind', Tree.kind]
  have hp : (left t place).isKind "Program" = (asBlock t place).isKind "Program" := by
    rw [Tree.isKind, left, hkind', Tree.isKind]
  refine ⟨hn'', hd'', htag'.trans htag, ⟨?_, ?_⟩, ?_, ?_, fun key hkey x hx => ?_⟩
  · rw [hp]
    exact hprogram
  · rw [hk]
    exact hitems
  · rw [left, hkind']
    exact hkind.imp_left fun h => by rw [h]
  · rw [hk]
    rcases hkind with hb | ⟨-, -, hb⟩
    · exact hlist.imp_left fun h => h.trans hb
    · exact Or.inr ⟨"body", by rw [Tree.kind_of_kind? hb]; rfl⟩
  · obtain ⟨hkey', hx'⟩ := hbelow key hkey x hx
    obtain ⟨hkey'', hg⟩ := hget key hkey'
    rw [Tree.childrenAt, hg] at hx'
    rw [hk]
    exact ⟨hkey'', hx'⟩

theorem walk_sure {σ : Type} {enter' leave' : Replacer σ} (state : σ → State)
    (R : Place → Tree → Tree → Prop) (Pre : Place → Tree → Prop) {Inv : σ → Prop}
    (henter : ∀ t place s, (enter' t place s).1 = (enter t place (state s)).1)
    (hleave : ∀ t place s, leave' t place s = ((leave t place (state s)).1, s))
    (hR : ∀ place c d, R place c d → d.isNode = true ∧ d.distinct = true)
    (hpre : ∀ t place s, t.isNode = true → t.distinct = true → Pre place t → Inv s →
      (∀ p : Tree, p.kind? = (entered t place (state s)).kind? →
        ∀ key ∈ (entered t place (state s)).childKeys,
          ∀ c ∈ (entered t place (state s)).childrenAt key, Pre ⟨some p, some key⟩ c) ∧
        Inv (enter' t place s).2)
    (hleft : ∀ t place s, t.isNode = true → t.distinct = true → Pre place t → Inv s → ∀ v,
      Tree.Walked R (entered t place (state s)).childKeys (entered t place (state s)) v →
        R place t (left v place))
    {t : Tree} (hn : t.isNode = true) (hd : t.distinct = true) {place : Place} (hp : Pre place t) :
    Sure Inv (Tree.replace? enter' leave' (t.weight + 1) place t) (R place t) := by
  refine Tree.replace?_sure hR Tree.weight Pre ?_ ?_ (Nat.lt_succ_self _) hn hd hp
  · intro t place s hn hd hp hs
    rw [henter]
    obtain ⟨hpre, hinv⟩ := hpre t place s hn hd hp hs
    exact ⟨isNode_entered hn place _, distinct_entered hd place _,
      fun c hc => weight_lt_of_mem_entered hc, hpre, hinv⟩
  · intro t place s hn hd hp hs v hv s' hs'
    rw [henter] at hv
    rw [hleave, leave_eq hv.node]
    exact ⟨hleft t place s hn hd hp hs v hv, hs'⟩

end Simplify

end Legible
