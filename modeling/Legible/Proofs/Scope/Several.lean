import Legible.Proofs.Scope.Successive

namespace Legible

namespace Variable

def given (v : Variable) : Option String → Variable
  | none => v
  | some w => { v with name := w, keepName := true }

theorem name_given (v : Variable) (w : Option String) : (v.given w).name = w.getD v.name := by
  cases w <;> rfl

theorem tags_given (v : Variable) (w : Option String) : (v.given w).tags = v.tags := by
  cases w <;> rfl

theorem given_again (v : Variable) (w : Option String) (new : String) :
    { v.given w with name := new, keepName := true } = v.given (some new) := by
  cases w <;> rfl

end Variable

namespace Scope

structure Relabels (s : Scope) (named : List (Nat × String)) (s' : Scope) : Prop where
  indexed : s'.Indexed
  references : s'.references = s.references
  children : s'.children = s.children
  declared : ∀ i, s'.declared[i]? = (s.declared[i]?).map fun v : Variable => v.given (named.lookup i)

section

variable {s s' : Scope} {named : List (Nat × String)} {i : Nat} {v : Variable}
  (h : Relabels s named s')

include h

theorem Relabels.exists_variable {u' : Variable} (hu' : s'.declared[i]? = some u') :
    ∃ u, s.declared[i]? = some u ∧ u' = u.given (named.lookup i) := by
  rw [h.declared] at hu'
  obtain ⟨u, hu, rfl⟩ := Option.map_eq_some_iff.mp hu'
  exact ⟨u, hu, rfl⟩

variable (hv : s.declared[i]? = some v)

include hv

theorem Relabels.getElem?_declared : s'.declared[i]? = some (v.given (named.lookup i)) := by
  rw [h.declared, hv, Option.map_some]

theorem Relabels.renamedScope {new : String} (hnew : ∀ (j : Nat) (u : Variable),
    s.declared[j]? = some u → (named.lookup j).getD u.name = new → j = i) :
    Relabels s ((i, new) :: named) (renamedScope s' i (v.given (named.lookup i)) new) := by
  have hv' := h.getElem?_declared hv
  refine ⟨?_, h.references, h.children, fun j => ?_⟩
  · apply h.indexed.renamedScope hv'
    intro j hj
    obtain ⟨u', hu', hn⟩ := (h.indexed new j).mp hj
    obtain ⟨u, hu, rfl⟩ := h.exists_variable hu'
    exact hnew j u hu ((u.name_given (named.lookup j)).symm.trans hn)
  · change (s'.declared.set i _)[j]? = _
    rw [List.getElem?_set]
    by_cases hj : i = j
    · subst hj
      rw [if_pos rfl, if_pos (List.getElem?_eq_some_iff.mp hv').1, hv, List.lookup_cons_self,
        Variable.given_again, Option.map_some]
    · rw [if_neg hj, h.declared, List.lookup_cons, beq_false_of_ne (Ne.symm hj)]

theorem Relabels.mem_tags_of_reaching (hs : s.Fresh) (hd : s.dynamic = false)
    (hunused : ∀ w, named.lookup i = some w → ∀ o ∈ s.incoming, o.name ≠ w) {tag : Nat}
    (htag : tag ∈ (s'.reaching (v.given (named.lookup i)).name).map (·.tag)) : tag ∈ v.tags := by
  obtain ⟨o, ho, rfl⟩ := List.mem_map.mp htag
  obtain ⟨hin, hn⟩ := mem_incoming_of_reaching ho
  rw [incoming, h.references, h.children] at hin
  rw [Variable.name_given] at hn
  cases hw : named.lookup i with
  | none =>
    rw [hw] at hn
    apply List.mem_append_right
    exact (hs.references v (List.mem_of_getElem? hv) o.tag).mpr ⟨hd, o, hin, hn, rfl⟩
  | some w =>
    rw [hw] at hn
    exact absurd hn (hunused w hw o hin)

end

structure Renames (t : Tree) (p : Path) (s : Scope) (named : List (Nat × String))
    (r : Scope × Names) : Prop where
  here : ∃ s', r.1.at? p = some s' ∧ Relabels s named s'
  elsewhere : ∀ q c, q ≠ p → r.1.at? q = some c →
    ∃ d, (ofTree t).at? q = some d ∧ c.declared = d.declared ∧ c.table = d.table
  names : ∀ (tag : Nat) w, r.2[tag]? = some w ↔
    ∃ (i : Nat) (v : Variable), s.declared[i]? = some v ∧ tag ∈ v.tags ∧ named.lookup i = some w

section

variable {t : Tree} {p : Path} {s : Scope} {named : List (Nat × String)} {r : Scope × Names}

theorem Renames.avoid (h : Renames t p s named r) {i : Nat} {v : Variable}
    (hv : s.declared[i]? = some v)
    (halone : ∀ j, j ≠ i → named.lookup j ≠ some ((named.lookup i).getD v.name)) (new : String) :
    (r.2.setAll v.tags new).Avoid ((named.lookup i).getD v.name) new := by
  intro tag htag
  rw [Names.getElem?_setAll] at htag
  split at htag
  · exact Option.some.inj htag
  · rename_i hnot
    obtain ⟨j, u, hu, hmem, hj⟩ := (h.names tag _).mp htag
    by_cases hji : j = i
    · subst hji
      obtain rfl := Option.some.inj (hu.symm.trans hv)
      exact absurd hmem hnot
    · exact absurd hj (halone j hji)

variable (hs : (ofTree t).at? p = some s)

include hs

theorem renames_start : Renames t p s [] (ofTree t, ∅) where
  here := ⟨s, hs, (fresh_ofTree t s (at?_mem_scopes hs)).indexed, rfl, rfl, fun i => by
    cases s.declared[i]? <;> rfl⟩
  elsewhere q c _ hc := ⟨c, hc, rfl, rfl⟩
  names tag w := by simp

theorem Renames.free (h : Renames t p s named r) {w : String}
    (hfree : ∀ c ∈ (ofTree t).scopes, ∀ v ∈ c.declared, v.name ≠ w)
    (hnamed : ∀ i, named.lookup i ≠ some w) : ∀ c ∈ r.1.along p, c.declares w = false := by
  intro c hc
  obtain ⟨q, hq⟩ := exists_path_of_mem_along hc
  by_cases hqp : q = p
  · subst hqp
    obtain ⟨s', hs', hrelabels⟩ := h.here
    obtain rfl := Option.some.inj (hs'.symm.trans hq)
    apply position?_eq_none_iff.mp
    apply Option.eq_none_iff_forall_ne_some.mpr
    intro i hi
    obtain ⟨u, hu, hn⟩ := (hrelabels.indexed w i).mp hi
    obtain ⟨v, hv, rfl⟩ := hrelabels.exists_variable hu
    rw [Variable.name_given] at hn
    cases hw : named.lookup i with
    | none =>
      rw [hw] at hn
      exact hfree s (at?_mem_scopes hs) v (List.mem_of_getElem? hv) hn
    | some w' =>
      rw [hw] at hn
      exact hnamed i (hw.trans (congrArg some hn))
  · obtain ⟨d, hd, -, htable⟩ := h.elsewhere q c hqp hq
    have hsame : c.declares w = d.declares w := by
      rw [declares, declares, htable]
    rw [hsame]
    apply Bool.of_not_eq_true
    intro hdeclares
    have hmem := at?_mem_scopes hd
    obtain ⟨v, hv, hn⟩ := (fresh_ofTree t d hmem).declares_iff.mp hdeclares
    exact hfree d hmem v hv hn

theorem Renames.rename (h : Renames t p s named r) (ht : t.Numbered) (hd : s.dynamic = false)
    {i : Nat} {v : Variable} (hv : s.declared[i]? = some v) {new : String}
    (halone : ∀ j, j ≠ i → named.lookup j ≠ some ((named.lookup i).getD v.name))
    (hunused : ∀ w, named.lookup i = some w → ∀ o ∈ s.incoming, o.name ≠ w)
    (hnew : ∀ (j : Nat) (u : Variable), s.declared[j]? = some u →
      (named.lookup j).getD u.name = new → j = i) :
    Renames t p s ((i, new) :: named) (r.1.rename p i new r.2) := by
  have hmem := at?_mem_scopes hs
  obtain ⟨s', hs', hrelabels⟩ := h.here
  have hrename : r.1.rename p i new r.2 =
      (r.1.modifyAt (fun s => renamedScope s i (v.given (named.lookup i)) new) p,
        renamedNames s' (v.given (named.lookup i)) new r.2) := by
    simp only [Scope.rename, hs', hrelabels.getElem?_declared hv]
  rw [hrename]
  constructor
  · exact ⟨_, (at?_modifyAt_self r.1 p).trans (congrArg _ hs'), hrelabels.renamedScope hv hnew⟩
  · intro q c hq hc
    rcases at?_modifyAt_cases (f := fun s => renamedScope s i (v.given (named.lookup i)) new)
      (fun _ => rfl) hc with ⟨rfl, -⟩ | ⟨-, e, cs, he, rfl⟩
    · exact absurd rfl hq
    · exact h.elsewhere q e hq he
  · intro tag w
    have hinside : ∀ c ∈ s'.children, ∀ d ∈ c.scopes, d.Fresh := by
      rw [hrelabels.children]
      intro c hc d hd
      exact fresh_ofTree t d (mem_scopes_trans hmem (mem_scopes_of_child hc hd))
    have havoid := h.avoid hv halone new
    rw [← v.name_given, ← v.tags_given (named.lookup i)] at havoid
    -- The rename reaches the identifiers and references of the variable and nothing else.
    have hone : (renamedNames s' (v.given (named.lookup i)) new r.2)[tag]? =
        if tag ∈ v.tags then some new else r.2[tag]? := by
      rw [getElem?_renamedNames_of_avoid hinside havoid, Variable.tags_given]
      apply if_congr (or_iff_left_of_imp fun hx => ?_) rfl rfl
      exact hrelabels.mem_tags_of_reaching hv (fresh_ofTree t s hmem) hd hunused hx.1
    rw [hone]
    by_cases htag : tag ∈ v.tags
    · rw [if_pos htag]
      constructor
      · intro he
        exact ⟨i, v, hv, htag, List.lookup_cons_self.trans he⟩
      · rintro ⟨j, u, hu, hxu, hj⟩
        obtain ⟨-, rfl⟩ := place_unique ht hs hs hu hv hxu htag
        rwa [List.lookup_cons_self] at hj
    · rw [if_neg htag, h.names]
      refine exists_congr fun j => exists_congr fun u => and_congr_right fun hu =>
        and_congr_right fun hxu => ?_
      have hji : j ≠ i := by
        rintro rfl
        exact htag (Option.some.inj (hu.symm.trans hv) ▸ hxu)
      rw [List.lookup_cons, beq_false_of_ne hji]

end

end Scope

end Legible
