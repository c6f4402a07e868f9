import Legible.Proofs.Simplify.Grammar
import Legible.Script

namespace Legible.Simplify

open Pattern

variable {place : Place} {c : Contents} {t u : Tree}

/-! ### Lists of statements -/

def pieces (place : Place) (t : Tree) : List Tree :=
  if isListed place then flattened t else [t]

/-- The tree is formed, and of a kind that may stand at its place. -/
def Stands (place : Place) (t : Tree) : Prop :=
  t.formed true = true ∧ ∀ c, contentsAt? place = some c → Suits c t

structure Kept (place : Place) (t u : Tree) : Prop where
  node : u.isNode = true
  distinct : u.distinct = true
  stands : (∀ x ∈ pieces place u, Stands place x) ↔
    t.formed false = true ∧ ¬ (isExported place = true ∧ t.declaresSeveral = true)

theorem kept_of_kind? {p q : Tree} (h : p.kind? = q.kind?) {key : String}
    (hk : Kept ⟨some p, some key⟩ t u) : Kept ⟨some q, some key⟩ t u := by
  have hcontents : contentsAt? ⟨some p, some key⟩ = contentsAt? ⟨some q, some key⟩ := by
    simp only [contentsAt?, Option.bind_some, h]
  have hlisted : isListed ⟨some p, some key⟩ = isListed ⟨some q, some key⟩ := by
    simp only [isListed, Option.any_some, Tree.kind, h]
  have hexported : isExported ⟨some p, some key⟩ = isExported ⟨some q, some key⟩ := by
    simp only [isExported, Option.any_some, Tree.isKind, h]
  refine ⟨hk.node, hk.distinct, ?_⟩
  have hstands := hk.stands
  simp only [pieces, Stands] at hstands ⊢
  rwa [hcontents, hlisted, hexported] at hstands

theorem pieces_of_not_program (h : t.isKind "Program" = false) (place : Place) :
    pieces place t = [t] := by
  rw [pieces, flattened_other h, ite_self]

theorem isListed_iff {p : Tree} {key : String} :
    isListed ⟨some p, some key⟩ = true ↔ statementField? p.kind = some key :=
  beq_iff_eq

theorem flatMap_pieces {ts : List Tree} (h : ∀ t ∈ ts, pieces place t = [t]) :
    ts.flatMap (pieces place) = ts := by
  rw [List.flatMap_congr h, List.flatMap_singleton']

theorem get_flattenStatements {p : Tree} (hn : t.isNode = true)
    (hp : statementField? p.kind = statementField? t.kind) {key : String} {ts : List Tree}
    (hts : t.get key = .list ts) :
    (flattenStatements t).get key = .list (ts.flatMap (pieces ⟨some p, some key⟩)) := by
  have hitems : (t.get key).items = ts := by rw [hts]; rfl
  have hpieces : isListed ⟨some p, some key⟩ = true ↔ statementField? t.kind = some key := by
    rw [isListed_iff, hp]
  rcases flattenStatements_cases t with ⟨hf, hno⟩ | ⟨field, hf, hfield, -⟩
  · rw [hf, hts, flatMap_pieces fun x hx => ?_]
    by_cases hl : isListed ⟨some p, some key⟩ = true
    · exact pieces_of_not_program (hno key (hpieces.mp hl) x (hitems ▸ hx)) _
    · rw [pieces, if_neg hl]
  · by_cases hkey : key = field
    · subst hkey
      have hspliced : pieces ⟨some p, some key⟩ = flattened := by
        funext x
        rw [pieces, if_pos (hpieces.mpr hfield)]
      rw [hf, Tree.get_set hn, hitems, hspliced]
    · rw [hf, Tree.get_set_of_ne hkey, hts, flatMap_pieces fun x _ => ?_]
      rw [pieces, if_neg fun hl => hkey ?_]
      exact Option.some.inj ((hpieces.mp hl).symm.trans hfield)

theorem get_flattenStatements_of_ne {key : String} (h : statementField? t.kind ≠ some key) :
    (flattenStatements t).get key = t.get key := by
  rcases flattenStatements_cases t with ⟨hf, -⟩ | ⟨field, hf, hfield, -⟩
  · rw [hf]
  · have hne : key ≠ field := fun he => h (he ▸ hfield)
    rw [hf, Tree.get_set_of_ne hne]

theorem kind?_flattenStatements (t : Tree) : (flattenStatements t).kind? = t.kind? := by
  rw [Tree.kind?, get_flattenStatements_of_ne, Tree.kind?]
  intro h
  rcases statementField?_cases h with ⟨-, h⟩ | ⟨-, h⟩ | ⟨-, h⟩ <;> exact absurd h (by decide)

/-! ### Leaving a node -/

theorem holds_iff_suits (hc : c.list = false) (ht : t ≠ .null ∨ c.optional = false) :
    c.holds true t ↔ t.formed true = true ∧ Suits c t := by
  rw [Contents.holds_iff hc, Contents.takes_iff]
  constructor
  · rintro ⟨⟨ho, rfl⟩ | ⟨kind, hm, hk⟩, hformed⟩
    · rcases ht with ht | ht
      · exact absurd rfl ht
      · rw [ho] at ht
        cases ht
    · exact ⟨hformed (isNode_of_kind? hk), kind, hm, hk⟩
  · exact fun ⟨hformed, hsuits⟩ => ⟨Or.inr hsuits, fun _ => hformed⟩

theorem ne_null_of_isNode (h : t.isNode = true) : t ≠ .null := by
  rintro rfl
  cases h

theorem stands_iff (hc : contentsAt? place = some c) :
    Stands place t ↔ t.formed true = true ∧ Suits c t := by
  refine and_congr_right fun _ => ⟨fun h => h c hc, fun h c' hc' => ?_⟩
  rwa [← Option.some.inj (hc.symm.trans hc')]

theorem holds_pieces (hc : contentsAt? place = some c) (hcd : Kept place t u) :
    (∀ x ∈ pieces place u, c.item.holds true x) ↔
      t.formed false = true ∧ ¬ (isExported place = true ∧ t.declaresSeveral = true) := by
  rw [← hcd.stands]
  refine forall₂_congr fun x hx => ?_
  rw [stands_iff hc]
  refine holds_iff_suits (c := c.item) rfl ?_
  rw [pieces] at hx
  split at hx
  · rename_i hl
    rw [contents_listed hc hl]
    exact Or.inr rfl
  · rw [List.mem_singleton.mp hx]
    exact Or.inl (ne_null_of_isNode hcd.node)

theorem exists_of_grown_list {R : Tree → Tree → Prop} {ts : List Tree} {d : Tree}
    (h : Tree.Grown R (.list ts) d) : ∃ ds, d = .list ds ∧ List.Forall₂ (Tree.Held R) ts ds := by
  cases h with
  | node hn _ => cases hn
  | list h => exact ⟨_, rfl, h⟩
  | other h =>
    refine ⟨ts, rfl, List.forall₂_same.mpr fun t ht => ?_⟩
    rw [Tree.holdsNode, List.any_eq_false] at h
    rw [Tree.Held, if_neg (h t ht)]

theorem holds_flattenStatements {e v p : Tree} {key : String} (hn : v.isNode = true)
    (hp : statementField? p.kind = statementField? v.kind)
    (hc : contentsAt? ⟨some p, some key⟩ = some c) (he : c.holds true (e.get key))
    (hg : Tree.Grown (Kept ⟨some p, some key⟩) (e.get key) (v.get key)) :
    c.holds true ((flattenStatements v).get key) ↔ ∀ x ∈ e.childrenAt key, x.formed false = true ∧
      ¬ (isExported ⟨some p, some key⟩ = true ∧ x.declaresSeveral = true) := by
  cases hlist : c.list with
  | false =>
    have hl : isListed ⟨some p, some key⟩ = false := by
      rw [← Bool.not_eq_true]
      intro hl
      rw [contents_listed hc hl] at hlist
      cases hlist
    have hfield : statementField? v.kind ≠ some key := by
      rw [← hp, Ne, ← isListed_iff, hl]
      exact Bool.false_ne_true
    rw [get_flattenStatements_of_ne hfield, Tree.childrenAt]
    rcases Contents.cases_of_holds hlist he with ⟨hnull, ho⟩ | ⟨kind, hm, hk, -⟩
    · rw [hnull] at hg ⊢
      generalize v.get key = d at hg ⊢
      cases hg with
      | node hnode _ => cases hnode
      | other _ =>
        refine iff_of_true (Contents.holds_null.mpr ⟨hlist, ho⟩) fun x hx => ?_
        exact absurd hx List.not_mem_nil
    · have hnode := isNode_of_kind? hk
      have hheld := Tree.heldNodes_of_isNode hnode
      generalize v.get key = d at hg ⊢
      generalize e.get key = a at hg hnode hheld ⊢
      cases hg with
      | list _ => cases hnode
      | other h =>
        rw [Tree.holdsNode_of_isNode hnode] at h
        cases h
      | node _ hcd =>
        rw [hheld, List.forall_mem_singleton, ← holds_pieces hc hcd, pieces, hl,
          if_neg Bool.false_ne_true, List.forall_mem_singleton, Contents.item, ← hlist]
  | true =>
    obtain ⟨ts, hts⟩ := Contents.exists_list_of_holds hlist he
    rw [hts] at hg he
    obtain ⟨ds, hds, hheld⟩ := exists_of_grown_list hg
    have hitems := (Contents.holds_list.mp he).2
    rw [get_flattenStatements hn hp hds, Contents.holds_list, hlist, and_iff_right rfl,
      Tree.childrenAt, hts, List.forall_mem_flatMap]
    simp only [Tree.mem_heldNodes_of_list, and_imp]
    refine Tree.forall_mem_iff_of_forall₂ hheld fun a ha {d} hd => ?_
    rw [Tree.Held] at hd
    split at hd
    · rename_i hnode
      rw [holds_pieces hc hd]
      exact ⟨fun h _ => h, fun h => h hnode⟩
    · rename_i hnode
      subst hd
      rw [pieces_of_not_program (Tree.isKind_of_not_isNode (Bool.of_not_eq_true hnode) _),
        List.forall_mem_singleton]
      exact iff_of_true (hitems d ha) fun h => absurd h hnode

theorem isExported_iff {p : Tree} {kind : String} (hp : p.kind? = some kind) {key : String} :
    isExported ⟨some p, some key⟩ = true ↔ kind = "ExportNamedDeclaration" ∧ key = "declaration" := by
  rw [isExported, Option.any_some, Bool.and_eq_true, beq_iff_eq, Tree.isKind_iff, hp, Option.some.injEq,
    Option.some.injEq]

theorem exportsSeveral_iff {kind : String} {slots : List (String × Contents)}
    (hk : t.kind? = some kind) (hs : slots? kind = some slots)
    (ht : ∀ e ∈ slots, e.2.holds true (t.get e.1)) : t.exportsSeveral = false ↔
      ∀ e ∈ slots, ∀ x ∈ t.childrenAt e.1, ¬ ((kind = "ExportNamedDeclaration" ∧
        e.1 = "declaration") ∧ x.declaresSeveral = true) := by
  rw [← Bool.not_eq_true, Tree.exportsSeveral, Bool.and_eq_true, Tree.isKind_iff, hk, Option.some.injEq]
  constructor
  · rintro h e he x hx ⟨hplace, hseveral⟩
    refine h ⟨hplace.1, ?_⟩
    have hc := contents_exported (contentsAt?_of_mem hk hs he) ((isExported_iff hk).mpr hplace)
    have hholds := ht e he
    rw [hplace.2, hc] at hholds
    rw [hplace.2, Tree.childrenAt] at hx
    rcases Contents.cases_of_holds rfl hholds with ⟨hnull, -⟩ | ⟨_, -, hnode, -⟩
    · rw [hnull] at hx
      cases hx
    · rw [Tree.heldNodes_of_isNode (isNode_of_kind? hnode)] at hx
      rwa [← List.mem_singleton.mp hx]
  · rintro h ⟨rfl, hseveral⟩
    obtain rfl := Option.some.inj hs
    have hnode := isNode_of_kind? (kind?_of_declaresSeveral hseveral)
    have hx : t.get "declaration" ∈ t.childrenAt "declaration" := Tree.self_mem_heldNodes hnode
    exact h _ List.mem_cons_self _ hx ⟨⟨rfl, rfl⟩, hseveral⟩

theorem formed_flattenStatements {e v : Tree} {kind kind' : String}
    {slots : List (String × Contents)} (hk : e.kind? = some kind) (hs : slots? kind = some slots)
    (hk' : v.kind? = some kind') (hs' : slots? kind' = some slots)
    (hfield : statementField? kind' = statementField? kind) (hw : v.worded = e.worded)
    (he : e.formed true = true)
    (hg : ∀ s ∈ slots, Tree.Grown (Kept ⟨some e, some s.1⟩) (e.get s.1) (v.get s.1)) :
    (flattenStatements v).formed true = true ↔ e.formed false = true := by
  have hworded : (flattenStatements v).worded = v.worded := by
    rw [Tree.worded, Tree.isKind, kind?_flattenStatements, get_flattenStatements_of_ne, Tree.worded,
      Tree.isKind]
    intro h
    rcases statementField?_cases h with ⟨-, h⟩ | ⟨-, h⟩ | ⟨-, h⟩ <;> exact absurd h (by decide)
  have hholds := ((Tree.formed_iff hk hs).mp he).2.2
  have hslots : ∀ s ∈ slots, (s.2.holds true ((flattenStatements v).get s.1) ↔
      s.2.holds false (e.get s.1) ∧ ∀ x ∈ e.childrenAt s.1, ¬ ((kind = "ExportNamedDeclaration" ∧
        s.1 = "declaration") ∧ x.declaresSeveral = true)) := by
    intro s hs'
    have hstatement : statementField? e.kind = statementField? v.kind := by
      rw [Tree.kind_of_kind? hk, Tree.kind_of_kind? hk', hfield]
    rw [holds_flattenStatements (isNode_of_kind? hk') hstatement (contentsAt?_of_mem hk hs hs')
      (hholds s hs') (hg s hs'), isExported_iff hk, forall₂_and, Contents.holds,
      and_iff_right (hholds s hs').1]
    rfl
  rw [Tree.formed_iff ((kind?_flattenStatements v).trans hk') hs', hworded, hw, Tree.formed_iff hk hs,
    exportsSeveral_iff hk hs hholds, forall₂_congr hslots, forall₂_and]
  tauto

theorem asBlock_of_not_program (h : t.isKind "Program" = false) (place : Place) :
    asBlock t place = t := by
  rcases asBlock_cases t place with ⟨hb, -⟩ | ⟨-, hk, -⟩
  · exact hb
  · rw [h] at hk
    cases hk

theorem asBlock_of_listed (h : isListed place = true) (t : Tree) : asBlock t place = t := by
  rcases asBlock_cases t place with ⟨hb, -⟩ | ⟨-, -, p, hp, hne⟩
  · exact hb
  · rw [isListed, hp, Option.any_some, beq_iff_eq] at h
    exact absurd h hne

theorem asBlock_of_not_listed {p : Tree} (hp : place.parent = some p) (h : isListed place = false)
    (ht : t.isKind "Program" = true) :
    asBlock t place = (t.set "type" (.text "BlockStatement")).erase "sourceType" := by
  rcases asBlock_cases t place with ⟨-, hl⟩ | ⟨hb, -⟩
  · rw [isListed, hp, Option.any_some, hl ht p hp, BEq.rfl] at h
    cases h
  · exact hb

section

variable {e v : Tree} (hd : e.distinct = true) (hv : Tree.Walked Kept e.childKeys e v)

include hd hv

theorem kind?_kept : v.kind? = e.kind? :=
  hv.kind? (fun _ _ _ h => ⟨h.node, h.distinct⟩) hd (List.Subset.refl _)

theorem formed_left (hn : e.isNode = true) (he : e.formed true = true) (place : Place) :
    (left v place).formed true = true ↔ e.formed false = true := by
  obtain ⟨kind, slots, hk, hs⟩ := Tree.exists_slots hn he
  have hkeys : e.childKeys = slots.map (·.1) :=
    Tree.childKeys_of_kind? hk (by rw [lookup_childTable, hs, Option.map_some])
  have hvk := (kind?_kept hd hv).trans hk
  have hg : ∀ s ∈ slots, Tree.Grown (Kept ⟨some e, some s.1⟩) (e.get s.1) (v.get s.1) := by
    intro s hs'
    refine (hv.child s.1 (hkeys ▸ List.mem_map_of_mem hs')).imp ?_
    rintro c d ⟨p, hp, hkept⟩
    exact kept_of_kind? hp hkept
  rcases asBlock_cases v place with ⟨hb, -⟩ | ⟨hb, hprogram, -⟩
  · have hword : v.get "kind" = e.get "kind" := by
      refine hv.other "kind" fun hm => ?_
      rw [hkeys] at hm
      obtain ⟨s, hs', hkey⟩ := List.mem_map.mp hm
      exact (slots_spec _ (mem_grammarTable hs) s hs').2.2.2.1 hkey
    have hworded : v.worded = e.worded := by
      rw [Tree.worded, Tree.isKind, hvk, hword, Tree.worded, Tree.isKind, hk]
    rw [left, hb]
    exact formed_flattenStatements hk hs hvk hs rfl hworded he hg
  · rw [Tree.isKind_iff, hvk] at hprogram
    obtain rfl := Option.some.inj hprogram
    have hblock := kind?_block hv.node
    rw [left, hb]
    refine formed_flattenStatements hk hs hblock hs rfl ?_ he fun s hs' => ?_
    · rw [Tree.worded, Tree.isKind, hblock, Tree.worded, Tree.isKind, hk]
      rfl
    · obtain rfl := Option.some.inj hs
      obtain rfl := List.mem_singleton.mp hs'
      rw [Tree.get_erase_of_ne (by decide), Tree.get_set_of_ne (by decide)]
      exact hg _ hs'

end

theorem not_isExported_of_block (hc : contentsAt? place = some c) (h : "BlockStatement" ∈ c.kinds) :
    isExported place = false := by
  rw [← Bool.not_eq_true]
  intro hx
  rw [contents_exported hc hx] at h
  exact absurd h (by decide)

theorem stands_flattened (hc : contentsAt? place = some c) (hl : isListed place = true)
    (ht : t.kind? = some "Program") (hlevel : ∀ x ∈ (t.get "body").items, x.isKind "Program" = false)
    {ts : List Tree} (hts : t.get "body" = .list ts) :
    (∀ x ∈ flattened t, Stands place x) ↔ t.formed true = true := by
  have hworded : t.worded = true := by
    rw [Tree.worded, Tree.isKind, ht]
    rfl
  have hsame : ts.flatMap flattened = ts := by
    rw [List.flatMap_congr fun x hx => flattened_other (hlevel x (by rwa [hts])),
      List.flatMap_singleton']
  have hformed : t.formed true = true ↔ ∀ x ∈ ts, (Contents.many itemKinds).item.holds true x := by
    rw [Tree.formed_iff ht rfl, and_iff_right hworded, and_iff_right (Or.inl rfl),
      List.forall_mem_singleton, hts, Contents.holds_list]
    exact and_iff_right rfl
  obtain rfl := contents_listed hc hl
  rw [flattened_list (Tree.isKind_iff.mpr ht), hts, Tree.items, hsame, hformed]
  refine forall₂_congr fun x _ => ?_
  rw [stands_iff hc, holds_iff_suits rfl (Or.inr rfl)]
  rfl

structure Fit (place : Place) (t : Tree) : Prop where
  formed : t.formed true = true
  suits : place.parent = none ∧ t.kind? = some "Program" ∨ ∃ c, contentsAt? place = some c ∧ Suits c t

section

variable {v : Tree} {s : State} (hn : t.isNode = true) (hd : t.distinct = true)
  (hf : t.formed true = true)
  (hv : Tree.Walked Kept (entered t place s).childKeys (entered t place s) v)

include hn hd hf hv

theorem formed_left_entered : (left v place).formed true = true ↔ t.formed false = true := by
  have hu := formed_left (distinct_entered hd place s) hv (isNode_entered hn place s)
    ((formed_entered hf place s).mpr hf) place
  exact hu.trans (formed_entered hf place s)

theorem stands_of_suits (hc : contentsAt? place = some c) (he : Suits c (entered t place s)) :
    (∀ x ∈ pieces place (left v place), Stands place x) ↔ t.formed false = true := by
  obtain ⟨kind, hm, hk⟩ := he
  have hvk := (kind?_kept (distinct_entered hd place s) hv).trans hk
  have hne : kind ≠ "Program" := fun h => program_not_mem hc (h ▸ hm)
  have hprogram : ∀ u : Tree, u.kind? = some kind → u.isKind "Program" = false := by
    intro u hu
    rw [← Bool.not_eq_true, Tree.isKind_iff, hu]
    exact fun h => hne (Option.some.inj h)
  have hleft : (left v place).kind? = some kind := by
    rw [left, kind?_flattenStatements, asBlock_of_not_program (hprogram v hvk), hvk]
  rw [pieces_of_not_program (hprogram _ hleft), List.forall_mem_singleton, stands_iff hc,
    formed_left_entered hn hd hf hv]
  exact and_iff_left ⟨kind, hm, hleft⟩

theorem stands_of_listed (hc : contentsAt? place = some c) (hl : isListed place = true)
    (he : (entered t place s).kind? = some "Program") :
    (∀ x ∈ pieces place (left v place), Stands place x) ↔ t.formed false = true := by
  have hud := distinct_entered hd place s
  have hun := isNode_entered hn place s
  have hvk := (kind?_kept hud hv).trans he
  have hvd := hv.distinct (fun _ _ _ h => ⟨h.node, h.distinct⟩) hun hud
  have hleft : left v place = flattenStatements v := by rw [left, asBlock_of_listed hl]
  have hk : (left v place).kind? = some "Program" := by rw [hleft, kind?_flattenStatements, hvk]
  have hlevel := (leaves_left hv.node hvd place).level.2 "body" (by rw [Tree.kind_of_kind? hk]; rfl)
  obtain ⟨-, -, hslots⟩ :=
    (Tree.formed_iff he rfl).mp ((formed_entered hf place s).mpr hf)
  obtain ⟨ts, hts⟩ := Contents.exists_list_of_holds rfl (hslots _ List.mem_cons_self)
  have hg := hv.child "body" (mem_childKeys_program (Tree.isKind_iff.mpr he))
  rw [hts] at hg
  obtain ⟨ds, hds, -⟩ := exists_of_grown_list hg
  have hbody := get_flattenStatements (p := v) hv.node rfl hds
  rw [pieces, if_pos hl, stands_flattened hc hl hk hlevel (hleft ▸ hbody),
    formed_left_entered hn hd hf hv]

theorem stands_of_block (hc : contentsAt? place = some c) (hl : isListed place = false)
    (he : (entered t place s).kind? = some "Program") :
    (∀ x ∈ pieces place (left v place), Stands place x) ↔
      t.formed false = true ∧ "BlockStatement" ∈ c.kinds := by
  have hvk := (kind?_kept (distinct_entered hd place s) hv).trans he
  obtain ⟨p, kind, key, slots, rfl, -⟩ := exists_slot hc
  have hk : (left v ⟨some p, some key⟩).kind? = some "BlockStatement" := by
    rw [left, kind?_flattenStatements, asBlock_of_not_listed rfl hl (Tree.isKind_iff.mpr hvk),
      kind?_block hv.node]
  have hprogram : (left v ⟨some p, some key⟩).isKind "Program" = false := by
    rw [Tree.isKind, hk]
    rfl
  rw [pieces_of_not_program hprogram, List.forall_mem_singleton, stands_iff hc,
    formed_left_entered hn hd hf hv, Suits, hk]
  simp

end

theorem kept_left (hn : t.isNode = true) (hd : t.distinct = true) (ht : Fit place t) {s : State}
    {v : Tree} (hv : Tree.Walked Kept (entered t place s).childKeys (entered t place s) v) :
    Kept place t (left v place) := by
  have hvd := hv.distinct (fun _ _ _ h => ⟨h.node, h.distinct⟩) (isNode_entered hn place s)
    (distinct_entered hd place s)
  have hleaves := leaves_left hv.node hvd place
  refine ⟨hleaves.node, hleaves.distinct, ?_⟩
  rcases ht.suits with ⟨hroot, -⟩ | ⟨c, hc, hsuits⟩
  · have hnone : contentsAt? place = none := by rw [contentsAt?, hroot]; rfl
    have hlisted : isListed place = false := by rw [isListed, hroot]; rfl
    have hexported : isExported place = false := by rw [isExported, hroot]; rfl
    rw [pieces, hlisted, if_neg Bool.false_ne_true, List.forall_mem_singleton, Stands, hnone,
      formed_left_entered hn hd ht.formed hv, hexported]
    simp
  rcases kinds_entered hc ht.formed hsuits s with ⟨he, hno⟩ | ⟨he, hwhy⟩
  · rw [stands_of_suits hn hd ht.formed hv hc he]
    exact (and_iff_left hno).symm
  cases hl : isListed place with
  | true =>
    have hblock : "BlockStatement" ∈ c.kinds := by
      rw [contents_listed hc hl]
      decide
    rw [stands_of_listed hn hd ht.formed hv hc hl he, not_isExported_of_block hc hblock]
    simp
  | false =>
    rw [stands_of_block hn hd ht.formed hv hc hl he]
    refine and_congr_right fun _ => ?_
    rcases hwhy with hblock | hbroken
    · rw [not_isExported_of_block hc hblock]
      exact iff_of_true hblock fun h => Bool.false_ne_true h.1
    · refine iff_of_false (fun h => ?_) fun h => h hbroken
      rw [not_isExported_of_block hc h] at hbroken
      exact Bool.false_ne_true hbroken.1

/-! ### The walk -/

theorem suits_of_holds (h : c.holds true t) (hu : u ∈ t.heldNodes) : Suits c u := by
  have hnull : u ≠ .null := ne_null_of_isNode (Tree.isNode_of_mem_heldNodes hu)
  have htakes : c.takes u = true := by
    cases t with
    | scalar a => cases hu
    | list ts =>
      exact List.all_eq_true.mp (Bool.and_eq_true_iff.mp h.1).2 u (Tree.mem_heldNodes_of_list.mp hu).1
    | object tag fs =>
      rw [Tree.heldNodes] at hu
      split at hu
      · rw [List.mem_singleton.mp hu]
        exact (Bool.and_eq_true_iff.mp h.1).2
      · cases hu
  exact (Contents.takes_iff.mp htakes).resolve_left fun h => hnull h.2

theorem fit_child {e p : Tree} (hn : e.isNode = true) (he : e.formed true = true)
    (hp : p.kind? = e.kind?) {key : String} (hkey : key ∈ e.childKeys) (hu : u ∈ e.childrenAt key) :
    Fit ⟨some p, some key⟩ u := by
  obtain ⟨kind, slots, hk, hs⟩ := Tree.exists_slots hn he
  have hkeys : e.childKeys = slots.map (·.1) :=
    Tree.childKeys_of_kind? hk (by rw [lookup_childTable, hs, Option.map_some])
  rw [hkeys] at hkey
  obtain ⟨s, hs', rfl⟩ := List.mem_map.mp hkey
  have hholds := ((Tree.formed_iff hk hs).mp he).2.2 s hs'
  exact ⟨hholds.2 u hu, Or.inr ⟨s.2, contentsAt?_of_mem (hp.trans hk) hs hs', suits_of_holds hholds hu⟩⟩

theorem kept_walk (hn : t.isNode = true) (hd : t.distinct = true) (ht : Fit place t) :
    Sure (fun _ : State => True) (Tree.replace? enter leave (t.weight + 1) place t) (Kept place t) := by
  refine walk_sure id Kept Fit (fun _ _ _ => rfl) leave_state (fun _ _ _ h => ⟨h.node, h.distinct⟩)
    (fun t place s hn _ ht _ => ⟨fun p hp key hkey c hc => ?_, trivial⟩)
    (fun t place s hn hd ht _ v hv => kept_left hn hd ht hv) hn hd ht
  exact fit_child (isNode_entered hn place s) ((formed_entered ht.formed place s).mpr ht.formed) hp hkey hc

theorem formed_simplify (hk : t.kind? = some "Program") (hd : t.distinct = true)
    (hf : t.formed true = true) :
    (simplify t).1.formed true = true ↔ t.formed false = true := by
  have hlike : ∀ several, t.numbered.formed several = true ↔ t.formed several = true :=
    fun several => Tree.likeness_numbered.formed several (Tree.untagged_numbered t)
  have hnk := (kind?_numbered t).trans hk
  have hfit : Fit ⟨none, none⟩ t.numbered := ⟨(hlike true).mpr hf, Or.inl ⟨rfl, hnk⟩⟩
  obtain ⟨u, s, hwalk, hsimplify, -⟩ := exists_walk hk hd
  obtain ⟨u', s', hwalk', hkept, -⟩ :=
    kept_walk (isNode_of_kind? hnk) (distinct_numbered hd) hfit ⟨Scope.ofTree t.numbered, ∅, 0⟩ trivial
  obtain ⟨rfl, rfl⟩ := Prod.mk.inj (Option.some.inj (hwalk'.symm.trans hwalk))
  rw [hsimplify, (Tree.likeness_apply s'.names).formed true rfl]
  have hstands := hkept.stands
  rw [hlike, pieces, isListed] at hstands
  simpa [Stands, contentsAt?, isExported] using hstands

theorem formed_false_iff (ht : t.formed true = true) :
    t.formed false = true ↔ ∀ c ∈ t.nodes, c.exportsSeveral = false := by
  simp only [Tree.formed, List.all_eq_true, Bool.and_eq_true] at ht ⊢
  simp only [Bool.false_or, Bool.not_eq_true']
  exact ⟨fun h c hc => (h c hc).2, fun h c hc => ⟨(ht c hc).1, h c hc⟩⟩

/-- A grammatical program is grammatical when it has been simplified, just if it exports no declaration
of several variables. -/
theorem grammatical_simplify_iff (ht : t.grammatical = true) :
    (simplify t).1.grammatical = true ↔ ∀ c ∈ t.nodes, c.exportsSeveral = false := by
  simp only [Tree.grammatical, Bool.and_eq_true, Tree.isKind_iff] at ht ⊢
  obtain ⟨⟨hk, hd⟩, hf⟩ := ht
  obtain ⟨hk', hd', -⟩ := exhausted_simplify hk hd
  rw [and_iff_right ⟨hk', hd'⟩, formed_simplify hk hd hf, formed_false_iff hf]

def loopVariables : Tree :=
  let declaration (names : List String) : Tree := Form.variableDeclaration "var"
    (names.map fun name => Form.variableDeclarator (Form.identifier name) Form.null)
  Form.program [Form.forStatement (declaration ["a", "b"]) Form.null Form.null
    (Form.ifStatement (Form.identifier "a") (declaration ["c", "d"]) Form.null)]

theorem grammatical_simplify_loopVariables :
    loopVariables.grammatical = true ∧ (simplify loopVariables).1.grammatical = true := by
  have h : loopVariables.grammatical = true := by decide
  exact ⟨h, (grammatical_simplify_iff h).mpr (by decide)⟩

theorem not_grammatical_simplify : ∃ t, Script.parse? "export var a = 1, b = 2;" = some t ∧
    t.grammatical = true ∧ (simplify t).1.grammatical = false := by
  have h : (Script.parse? "export var a = 1, b = 2;").any (fun t =>
      t.grammatical && !t.formed false) = true := by decide +kernel
  rw [Option.any_eq_true] at h
  obtain ⟨t, ht, h⟩ := h
  rw [Bool.and_eq_true, Bool.not_eq_true'] at h
  refine ⟨t, ht, h.1, ?_⟩
  obtain ⟨⟨hk, hd⟩, hf⟩ : (t.kind? = some "Program" ∧ t.distinct = true) ∧ t.formed true = true := by
    simpa [Tree.grammatical, Tree.isKind_iff] using h.1
  rw [← Bool.not_eq_true, Tree.grammatical, Bool.and_eq_true, formed_simplify hk hd hf, h.2]
  exact fun h => Bool.false_ne_true h.2

end Legible.Simplify
