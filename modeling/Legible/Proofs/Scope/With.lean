import Legible.Proofs.Scope.Capture
import Legible.Proofs.Scope.Resolution

namespace Legible

/-! ### Identifiers that get new names -/

theorem Names.mem_replaceName {names : Names} {old new : String} {tag : Nat} (h : tag ∈ names)
    (os : List Occurrence) : tag ∈ names.replaceName os old new := by
  apply List.foldlRecOn (motive := fun names => tag ∈ names)
  · exact h
  · intro names hn o _
    split
    · exact Std.HashMap.mem_insert.mpr (Or.inr hn)
    · exact hn

namespace Scope

section

variable {old new : String} {tag : Nat}

theorem mem_renameThrough {s : Scope} {names : Names} (h : tag ∈ names) :
    tag ∈ renameThrough old new names s := by
  induction s using induction generalizing names with
  | node s ih =>
    rw [renameThrough_eq]
    split
    · exact h
    · apply List.foldlRecOn (motive := fun names => tag ∈ names)
      · exact Names.mem_replaceName h s.through
      · exact fun names hn c hc => ih c hc hn

theorem mem_renamedNames {s : Scope} {v : Variable} {names : Names}
    (h : tag ∈ names ∨ tag ∈ v.tags) : tag ∈ renamedNames s v new names := by
  rw [renamedNames, renameChildren_eq]
  apply List.foldlRecOn (motive := fun names => tag ∈ names)
  · apply Names.mem_replaceName
    rw [Std.HashMap.mem_iff_isSome_getElem?, Names.getElem?_setAll]
    split
    · rfl
    · rename_i hv
      exact Std.HashMap.mem_iff_isSome_getElem?.mp (h.resolve_right hv)
  · exact fun names hn c _ => mem_renameThrough hn

end

theorem declares_of_unresolved {root c : Scope} {p q : Path} {name : String}
    (hn : root.binder? p name = none) (hq : q <+: p) (hc : root.at? q = some c)
    (hd : c.dynamic = false) : c.declares name = false := by
  rw [binder?, List.find?_eq_none] at hn
  have hno := hn q (List.mem_reverse.mpr ((List.mem_inits q p).mpr hq))
  rw [hc, Option.any_some, resolves, hd] at hno
  simpa using hno

theorem Fresh.name_ne {s : Scope} (h : s.Fresh) {name : String} (hd : s.declares name = false)
    {v : Variable} (hv : v ∈ s.declared) : v.name ≠ name := by
  intro he
  rw [h.declares_iff.mpr ⟨v, hv, he⟩] at hd
  cases hd

/-! ### References that the object of a `with` may supply -/

structure Supplied (root : Scope) (w p : Path) (r : Reference) : Prop where
  isWith : (root.at? w).map (·.kind) = some .withBody
  inside : w <+: p
  made : ∃ s, root.at? p = some s ∧ r ∈ s.references
  unresolved : ∀ n, r.resolved = some n → p.length - w.length < n

def Sheltered (root : Scope) (w : Path) (name : String) : Prop :=
  ∀ q c, q <+: w → root.at? q = some c → c.dynamic = false → c.declares name = false

section

variable {t : Tree} {w p : Path} {r : Reference} (h : Supplied (ofTree t) w p r)

include h

theorem Supplied.resolved : r.resolved =
    ((ofTree t).binder? p r.name).map (p.length - ·.length) := by
  obtain ⟨s, hs, hr⟩ := h.made
  exact resolved_ofTree t hs hr

theorem Supplied.outside {q : Path} (hq : (ofTree t).binder? p r.name = some q) :
    q <+: w ∧ q ≠ w := by
  have hlength : p.length - w.length < p.length - q.length :=
    h.unresolved _ (h.resolved.trans (congrArg (Option.map _) hq))
  have hqp := prefix_of_binder? hq
  have := hqp.length_le
  have := h.inside.length_le
  refine ⟨List.prefix_of_prefix_length_le hqp h.inside (by omega), fun he => ?_⟩
  rw [he] at hlength
  omega

theorem Supplied.sheltered_iff :
    Sheltered (ofTree t) w r.name ↔ (ofTree t).binder? p r.name = none := by
  constructor
  · intro hs
    rw [Option.eq_none_iff_forall_ne_some]
    intro q hq
    have hfound := List.find?_some hq
    obtain ⟨c, hc, hr⟩ := (Option.any_eq_true _ _).mp hfound
    obtain ⟨hd, hdeclares⟩ := Bool.and_eq_true _ _ ▸ hr
    have hno := hs q c (h.outside hq).1 hc (Bool.not_eq_true' _ ▸ hd)
    rw [hdeclares] at hno
    cases hno
  · exact fun hn q c hq => declares_of_unresolved hn (hq.trans h.inside)

end

/-! ### What reaches a scope -/

theorem eq_of_incoming {t : Tree} (ht : t.Numbered) {q p : Path} {c s : Scope}
    (hc : (ofTree t).at? q = some c) (hs : (ofTree t).at? p = some s) {r : Reference}
    (hr : r ∈ s.references) {o : Occurrence} (ho : o ∈ c.incoming) (htag : o.tag = r.tag) :
    q <+: p ∧ o.name = r.name := by
  have hshares : ∀ d ∈ c.scopes, d.Shares := fun d hd =>
    shares_ofTree t d (mem_scopes_trans (at?_mem_scopes hc) hd)
  obtain ⟨m, hm, rfl⟩ := List.mem_map.mp ((perm_incoming hshares).mem_iff.mp ho)
  have hrecorded : (q ++ m.1, m.2) ∈ (ofTree t).recorded := by
    have hmem := List.mem_map_of_mem (f := fun m => (q ++ m.1, m.2)) (List.mem_of_mem_filter hm)
    rw [← recorded_at hc] at hmem
    exact List.mem_of_mem_filter hmem
  obtain ⟨rfl, rfl⟩ := Prod.mk.inj
    (List.inj_on_of_nodup_map (nodup_recorded ht) hrecorded (mem_recorded hs hr) htag)
  exact ⟨List.prefix_append q m.1, rfl⟩

theorem mem_through_of_unresolved {t : Tree} {p q : Path} {c s : Scope} {r : Reference}
    (hs : (ofTree t).at? p = some s) (hr : r ∈ s.references)
    (hn : (ofTree t).binder? p r.name = none) (hq : q <+: p) (hc : (ofTree t).at? q = some c) :
    r.occurrence ∈ c.through := by
  rw [((lexical_ofTree t).through q c hc).mem_iff]
  refine List.mem_map.mpr ⟨(p, r), List.mem_filter.mpr ⟨mem_recorded hs hr, ?_⟩, rfl⟩
  rw [passes, List.isPrefixOf_iff_prefix.mpr hq, hn]
  rfl

structure Remains (c d : Scope) : Prop where
  block : d.block = c.block
  references : d.references = c.references
  through : d.through = c.through
  declared : ∀ (i : Nat) v, d.declared[i]? = some v → v.keepName = true ∨ c.declared[i]? = some v

theorem Remains.refl (c : Scope) : Remains c c :=
  ⟨rfl, rfl, rfl, fun _ _ h => Or.inr h⟩

def RemainsIn (t : Tree) (root : Scope) : Prop :=
  ∀ q d, root.at? q = some d → ∃ c, (ofTree t).at? q = some c ∧ Remains c d

theorem RemainsIn.refl (t : Tree) : RemainsIn t (ofTree t) :=
  fun _ c hc => ⟨c, hc, .refl c⟩

theorem getElem?_renamedNames_of_unresolved {t : Tree} (ht : t.Numbered) {root : Scope}
    (hroot : RemainsIn t root) {p q : Path} {s d : Scope} {r : Reference}
    (hs : (ofTree t).at? p = some s) (hr : r ∈ s.references)
    (hn : (ofTree t).binder? p r.name = none) {c : Scope} (hc : (ofTree t).at? q = some c)
    {v : Variable} (hv : v ∈ c.declared) (hd : root.at? q = some d)
    (hname : q <+: p → v.name ≠ r.name) {names : Names} (hnone : names[r.tag]? = none)
    (new : String) : (renamedNames d v new names)[r.tag]? = none := by
  have hthrough : r.occurrence ∈ (ofTree t).through :=
    mem_through_of_unresolved hs hr hn List.nil_prefix rfl
  have hincoming : ∀ {q' : Path} {c' : Scope}, q <+: q' → (ofTree t).at? q' = some c' →
      ∀ o ∈ c'.incoming, o.tag = r.tag → o.name ≠ v.name := by
    intro q' c' hq hc' o ho htag
    obtain ⟨hp, ho⟩ := eq_of_incoming ht hc' hs hr ho htag
    rw [ho]
    exact (hname (hq.trans hp)).symm
  -- What renaming reads of the scope and those inside is still as it was found in the tree.
  obtain ⟨c', hc', hremains⟩ := hroot q d hd
  obtain rfl := Option.some.inj (hc'.symm.trans hc)
  have hcurrent : ∀ o : Occurrence, o.tag = r.tag → names.current o = o.name := by
    intro o htag
    rw [Names.current_eq, htag, hnone, Option.getD_none]
  rw [getElem?_renamedNames_of_current, if_neg, hnone]
  · exact through_notMem_tags ht (at?_mem_scopes hc) hv hthrough
  · intro r' hr' htag hn'
    rw [hremains.references] at hr'
    rw [hcurrent r'.occurrence htag] at hn'
    refine absurd hn' (hincoming (List.prefix_refl q) hc r'.occurrence ?_ htag)
    exact List.mem_append_left _ (List.mem_map_of_mem hr')
  · intro e he f hf o ho htag hn'
    rw [hcurrent o htag] at hn'
    obtain ⟨q', hq'⟩ := exists_path_of_mem_scopes (mem_scopes_of_child he hf)
    have hat : root.at? (q ++ q') = some f := by
      rw [at?_append, hd, Option.bind_some, hq']
    obtain ⟨f', hf', hremains'⟩ := hroot _ f hat
    rw [hremains'.through] at ho
    have hin := ((fresh_ofTree t f' (at?_mem_scopes hf')).through o).mp ho
    exact absurd hn' (hincoming (List.prefix_append q q') hf' o hin.1 htag)

end Scope

end Legible
