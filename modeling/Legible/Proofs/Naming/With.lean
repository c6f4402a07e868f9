import Legible.Proofs.Naming.Generate
import Legible.Proofs.Scope.With

namespace Legible

open Scope

theorem Scope.RemainsIn.modifyAt {t : Tree} {root : Scope} (h : RemainsIn t root) (q : Path)
    (i : Nat) (v : Variable) (new : String) :
    RemainsIn t (root.modifyAt (fun s => renamedScope s i v new) q) := by
  intro q' d hd
  have hcases := at?_modifyAt_cases (f := fun s => renamedScope s i v new) (fun _ => rfl) hd
  rcases hcases with ⟨rfl, e, he, rfl⟩ | ⟨-, e, cs, he, rfl⟩
  · obtain ⟨c, hc, hremains⟩ := h q e he
    refine ⟨c, hc, hremains.block, hremains.references, hremains.through, fun j u hu => ?_⟩
    rw [renamedScope, List.getElem?_set] at hu
    split_ifs at hu
    · obtain rfl := Option.some.inj hu
      exact Or.inl rfl
    · exact hremains.declared j u hu
  · obtain ⟨c, hc, hremains⟩ := h q' e he
    exact ⟨c, hc, hremains.block, hremains.references, hremains.through, hremains.declared⟩

namespace Naming

/-! ### References that keep their names -/

structure Spares (t : Tree) (tag : Nat) (g : Generation) : Prop where
  names : g.names[tag]? = none
  root : RemainsIn t g.root

section

variable {t : Tree} (ht : t.Numbered) {p : Path} {s : Scope} (hs : (ofTree t).at? p = some s)
  {r : Reference} (hr : r ∈ s.references) (hn : (ofTree t).binder? p r.name = none)
  {g : Generation} (h : Spares t r.tag g)

include ht hs hr hn h

theorem Spares.nameVariable {q : Path} {c : Scope} (hc : (ofTree t).at? q = some c)
    (hk : c.block.kind ≠ "Program") (hno : q <+: p → ∀ v ∈ c.nameable, v.name ≠ r.name) (i : Nat) :
    Spares t r.tag (g.nameVariable q i) := by
  rcases nameVariable_cases g q i with heq | ⟨d, v, w, hd, hv, hkeep, ha, hroot, hnames⟩
  · rw [heq]
    exact h
  · obtain ⟨c', hc', hremains⟩ := h.root q d hd
    obtain rfl := Option.some.inj (hc'.symm.trans hc)
    have hvc : v ∈ c'.declared := by
      rcases hremains.declared i v hv with hkept | hv
      · rw [hkeep] at hkept
        cases hkept
      · exact List.mem_of_getElem? hv
    constructor
    · rw [hnames]
      exact getElem?_renamedNames_of_unresolved ht h.root hs hr hn hc hvc hd
        (fun hq => hno hq v (mem_nameable.mpr ⟨hk, hvc, ha⟩)) h.names w
    · rw [hroot]
      exact h.root.modifyAt q i v w

variable (hfree : ∀ q c, q <+: p → (ofTree t).at? q = some c → ∀ v ∈ c.nameable, v.name ≠ r.name)

include hfree

theorem Spares.nameScope (q : Path) : Spares t r.tag (g.nameScope q) := by
  rw [Generation.nameScope]
  split
  · exact h
  · rename_i d hd
    split
    · exact h
    · rename_i hk
      obtain ⟨c, hc, hremains⟩ := h.root q d hd
      rw [hremains.block] at hk
      apply List.foldlRecOn (motive := Spares t r.tag)
      · exact h
      · exact fun g hg i _ => hg.nameVariable ht hs hr hn hc hk (fun hq => hfree q c hq hc) i

theorem Spares.run (start : Path) : Spares t r.tag (g.run start) := by
  rw [Generation.run]
  split
  · exact h
  · apply List.foldlRecOn (motive := Spares t r.tag)
    · exact h
    · exact fun g hg q _ => hg.nameScope ht hs hr hn hfree q

end

/-! ### Identifiers that get names -/

section

variable {tag : Nat} {g : Generation}

theorem mem_nameVariable (h : tag ∈ g.names) (q : Path) (i : Nat) :
    tag ∈ (g.nameVariable q i).names := by
  rcases nameVariable_cases g q i with heq | ⟨d, v, w, -, -, -, -, -, hnames⟩
  · rwa [heq]
  · rw [hnames]
    exact mem_renamedNames (Or.inl h)

theorem mem_nameVariables (h : tag ∈ g.names) (q : Path) (is : List Nat) :
    tag ∈ (is.foldl (Generation.nameVariable q) g).names :=
  List.foldlRecOn (motive := fun g : Generation => tag ∈ g.names) is _ h
    fun _ hg i _ => mem_nameVariable hg q i

theorem mem_nameScopes (h : tag ∈ g.names) (qs : List Path) :
    tag ∈ (qs.foldl Generation.nameScope g).names := by
  apply List.foldlRecOn (motive := fun g : Generation => tag ∈ g.names)
  · exact h
  · intro g hg q _
    rw [Generation.nameScope]
    split
    · exact hg
    · split
      · exact hg
      · exact mem_nameVariables hg q _

variable {t : Tree} {c : Scope} (hc : c ∈ (ofTree t).scopes) {v : Variable} (hv : v ∈ c.nameable)
  (htag : tag ∈ v.tags)

include hc hv htag

theorem mem_nameVariables_of_tags {q : Path} {d : Scope} {i : Nat} {is : List Nat}
    (his : is.Nodup) (hd : g.root.at? q = some d) (hu : Untouched c is d) (hi : i ∈ is)
    (hvi : c.declared[i]? = some v) : tag ∈ (is.foldl (Generation.nameVariable q) g).names := by
  obtain ⟨-, hvc, ha⟩ := mem_nameable.mp hv
  have hkeep := (fresh_ofTree t c hc).unkept v hvc
  induction is generalizing g d with
  | nil => cases hi
  | cons j is ih =>
    rw [List.nodup_cons] at his
    rw [List.foldl_cons]
    have hrest : Untouched c is d :=
      ⟨fun k hk => hu.declared k (List.mem_cons_of_mem _ hk), hu.references, hu.children⟩
    rcases List.mem_cons.mp hi with rfl | hi
    · apply mem_nameVariables
      rw [nameVariable_eq hd ((hu.declared i List.mem_cons_self).trans hvi) hkeep ha]
      exact mem_renamedNames (Or.inr htag)
    -- Naming another variable of the scope leaves the one at this position to be named.
    · rcases nameVariable_cases g q j with heq | ⟨e, u, w, -, -, -, -, hroot, -⟩
      · rw [heq]
        exact ih his.2 hd hrest hi
      · refine ih his.2 ?_ (hu.renamedScope his.1 u w) hi
        rw [hroot, at?_modifyAt_self, hd, Option.map_some]

theorem mem_nameScope_of_tags {q : Path} (hd : g.root.at? q = some c) :
    tag ∈ (g.nameScope q).names := by
  obtain ⟨hk, hvc, -⟩ := mem_nameable.mp hv
  obtain ⟨i, hi⟩ := List.mem_iff_getElem?.mp hvc
  obtain ⟨hlt, -⟩ := List.getElem?_eq_some_iff.mp hi
  rw [Generation.nameScope, hd]
  simp only [if_neg hk]
  exact mem_nameVariables_of_tags hc hv htag List.nodup_range hd ⟨fun _ _ => rfl, rfl, rfl⟩
    (List.mem_range.mpr hlt) hi

theorem mem_nameScopes_of_tags {q : Path} {qs : List Path}
    (hqs : qs.Pairwise fun p q => ¬ q <+: p) (hq : q ∈ qs) (hd : g.root.at? q = some c) :
    tag ∈ (qs.foldl Generation.nameScope g).names := by
  induction qs generalizing g with
  | nil => cases hq
  | cons p ps ih =>
    rw [List.pairwise_cons] at hqs
    rw [List.foldl_cons]
    rcases List.mem_cons.mp hq with rfl | hq
    · exact mem_nameScopes (mem_nameScope_of_tags hc hv htag hd) ps
    -- No scope comes after one inside it, so this one is still untouched.
    · exact ih hqs.2 hq ((at?_nameScope g (hqs.1 q hq)).trans hd)

end

def newNames (t : Tree) (start : Path) (src : Source) : Names :=
  (Generation.run ⟨ofTree t.numbered, ∅, src, 0⟩ start).names

theorem generate_eq (t : Tree) (src : Source) :
    (generate t src).1 = (newNames t (startOf t.numbered).2 src).apply t.numbered :=
  rfl

theorem getElem?_newNames {t : Tree} (ht : t.wellFormed = true) {p : Path} {s : Scope}
    (hs : (ofTree t.numbered).at? p = some s) {r : Reference} (hr : r ∈ s.references)
    (hn : (ofTree t.numbered).binder? p r.name = none)
    (hwith : ∀ q c, q <+: p → (ofTree t.numbered).at? q = some c → c.kind = .withBody →
      ∀ v ∈ c.nameable, v.name ≠ r.name) (start : Path) (src : Source) :
    (newNames t start src)[r.tag]? = none := by
  have hnumbered := Tree.wellFormed.numbered ht
  have hstart : Spares t.numbered r.tag ⟨ofTree t.numbered, ∅, src, 0⟩ :=
    ⟨by simp, .refl t.numbered⟩
  refine (hstart.run hnumbered hs hr hn (fun q c hq hc v hv => ?_) start).names
  obtain ⟨hk, hvc, -⟩ := mem_nameable.mp hv
  have hmem := at?_mem_scopes hc
  cases hd : c.dynamic with
  | true => exact hwith q c hq hc ((kind_of_dynamic hmem hd).resolve_right hk) v hv
  | false => exact (fresh_ofTree _ c hmem).name_ne (declares_of_unresolved hn hq hc hd) hvc

theorem mem_newNames {t : Tree} {start q : Path} {c : Scope}
    (hc : (ofTree t.numbered).at? q = some c) (hq : start <+: q) {v : Variable}
    (hv : v ∈ c.nameable) {tag : Nat} (htag : tag ∈ v.tags) (src : Source) :
    tag ∈ newNames t start src := by
  obtain ⟨q', rfl⟩ := hq
  have hat := hc
  rw [at?_append] at hat
  obtain ⟨d, hd, hq'⟩ := Option.bind_eq_some_iff.mp hat
  rw [newNames, Generation.run, hd]
  refine mem_nameScopes_of_tags (at?_mem_scopes hc) hv htag ?_ (List.mem_map_of_mem (mem_paths hq'))
    hc
  refine List.pairwise_map.mpr ((pairwise_paths d).imp fun hpq hp => hpq ?_)
  exact (List.prefix_append_right_inj _).mp hp

/-- A reference without a variable: it passes through all scopes around, and keeps its name when
a variable around the body of the `with` gets another one. -/
structure Unbound (root : Scope) (w p : Path) (r : Reference) : Prop where
  resolved : r.resolved = none
  through : ∀ q c, q <+: p → root.at? q = some c → r.occurrence ∈ c.through
  rename : ∀ q c, q <+: w → root.at? q = some c → c.dynamic = false → ∀ (i : Nat) v,
    c.declared[i]? = some v → ∀ new, (root.rename q i new ∅).2[r.tag]? = none

/-- A reference that belongs to a variable around the body of the `with`, and gets another name with
it. -/
structure Bound (t : Tree) (w p : Path) (r : Reference) (q : Path) (i : Nat) : Prop where
  outside : q <+: w ∧ q ≠ w
  resolved : r.resolved = some (p.length - q.length)
  declared : ∃ c v, (ofTree t.numbered).at? q = some c ∧ c.dynamic = false ∧
    c.declared[i]? = some v ∧ v.name = r.name ∧
    (v ∈ c.nameable → ∀ start src, start <+: q → r.tag ∈ newNames t start src)
  rename : ∀ new, new ≠ r.name → ((ofTree t.numbered).rename q i new ∅).2[r.tag]? = some new

section

variable {t : Tree} (ht : t.wellFormed = true) {w p : Path} {r : Reference}
  (h : Supplied (ofTree t.numbered) w p r)

include h

theorem exists_bound {q : Path} (hq : (ofTree t.numbered).binder? p r.name = some q) :
    ∃ i, Bound t w p r q i := by
  obtain ⟨s, hs, hr⟩ := h.made
  have hlexical := lexical_ofTree t.numbered
  obtain ⟨c, i, v, hc, hv, hname, hmeaning⟩ := hlexical.meaning p r.name q hq
  have htag : r.tag ∈ v.references := by
    rw [(hlexical.references q c hc i v hv).mem_iff]
    refine List.mem_map.mpr ⟨(p, r), List.mem_filter.mpr ⟨mem_recorded hs hr, ?_⟩, rfl⟩
    exact decide_eq_true hmeaning
  have hvc := List.mem_of_getElem? hv
  have hd := (((fresh_ofTree _ c (at?_mem_scopes hc)).references v hvc r.tag).mp htag).1
  refine ⟨i, h.outside hq, ?_, ⟨c, v, hc, hd, hv, hname, fun hvn start src hstart => ?_⟩,
    fun new _ => ?_⟩
  · rw [h.resolved, hq]
    rfl
  · exact mem_newNames hc hstart hvn (List.mem_append_right _ htag) src
  · rw [getElem?_rename hc hv, if_pos]
    exact List.mem_append_right _ (List.mem_append_left _ htag)

include ht

theorem unbound_of_sheltered (hsheltered : Sheltered (ofTree t.numbered) w r.name) :
    Unbound (ofTree t.numbered) w p r := by
  obtain ⟨s, hs, hr⟩ := h.made
  have hn := h.sheltered_iff.mp hsheltered
  constructor
  · rw [h.resolved, hn]
    rfl
  · exact fun q c hq hc => mem_through_of_unresolved hs hr hn hq hc
  · intro q c hq hc hd i v hv new
    have hvc := List.mem_of_getElem? hv
    rw [rename_eq hc hv]
    refine getElem?_renamedNames_of_unresolved (Tree.wellFormed.numbered ht) (.refl _) hs hr hn hc
      hvc hc (fun _ => ?_) (by simp) new
    exact (fresh_ofTree _ c (at?_mem_scopes hc)).name_ne (hsheltered q c hq hc hd) hvc

/-- A reference in the body of a `with` stays without a variable iff no scope around the body that
resolves names declares its name. Then made-up names leave it alone, unless a `with` around it has a
variable of this name. Otherwise it belongs to a variable outside and is renamed with it. -/
theorem unbound_iff :
    (Unbound (ofTree t.numbered) w p r ↔ Sheltered (ofTree t.numbered) w r.name) ∧
      (Sheltered (ofTree t.numbered) w r.name →
        (∀ q c, q <+: p → (ofTree t.numbered).at? q = some c → c.kind = .withBody →
          ∀ v ∈ c.nameable, v.name ≠ r.name) →
        (∀ start src, (newNames t start src)[r.tag]? = none) ∧
          ∀ src, ∃ names : Names,
            (generate t src).1 = names.apply t.numbered ∧ names[r.tag]? = none) ∧
      (¬ Sheltered (ofTree t.numbered) w r.name → ∃ q i, Bound t w p r q i) := by
  obtain ⟨s, hs, hr⟩ := h.made
  refine ⟨⟨fun hu => ?_, unbound_of_sheltered ht h⟩, fun hsheltered hwith => ?_, fun hno => ?_⟩
  · have hresolved := h.resolved
    rw [hu.resolved] at hresolved
    exact h.sheltered_iff.mpr (Option.map_eq_none_iff.mp hresolved.symm)
  · have hnone := getElem?_newNames ht hs hr (h.sheltered_iff.mp hsheltered) hwith
    exact ⟨hnone, fun src => ⟨_, generate_eq t src, hnone _ src⟩⟩
  · rw [h.sheltered_iff] at hno
    obtain ⟨q, hq⟩ := Option.ne_none_iff_exists'.mp hno
    exact ⟨q, exists_bound h hq⟩

end

def shadowedUse : Tree :=
  Form.program [Form.functionDeclaration (Form.identifier "f")
    [Form.identifier "o", Form.identifier "x"]
    (Form.blockStatement [Form.withStatement (Form.identifier "o")
      (Form.expressionStatement (Form.identifier "x"))])]

def shadowedReference : Reference :=
  ⟨⟨10, "x"⟩, some 1⟩

theorem supplied_shadowedUse :
    Supplied (ofTree shadowedUse.numbered) [0, 0] [0, 0] shadowedReference := by
  refine ⟨by decide, List.prefix_refl _, ⟨_, rfl, .head _⟩, fun n hn => ?_⟩
  obtain rfl := Option.some.inj hn
  decide

theorem unbound_iff_shadowedUse :
    let root := ofTree shadowedUse.numbered
    (shadowedUse.wellFormed = true ∧ Supplied root [0, 0] [0, 0] shadowedReference) ∧
      ¬ Sheltered root [0, 0] shadowedReference.name ∧
      ∃ q i, Bound shadowedUse [0, 0] [0, 0] shadowedReference q i := by
  intro root
  have ht : shadowedUse.wellFormed = true := by decide
  have hno : ¬ Sheltered root [0, 0] shadowedReference.name := by
    intro h
    have hfunction := h [0] _ (by decide) rfl rfl
    revert hfunction
    decide
  exact ⟨⟨ht, supplied_shadowedUse⟩, hno, (unbound_iff ht supplied_shadowedUse).2.2 hno⟩

theorem supplied_not_unbound :
    ¬ ∀ (t : Tree) (w p : Path) (r : Reference), t.wellFormed = true →
      Supplied (ofTree t.numbered) w p r → Unbound (ofTree t.numbered) w p r := by
  intro h
  exact Option.some_ne_none 1 (h _ _ _ _ (by decide) supplied_shadowedUse).resolved

end Naming

end Legible
