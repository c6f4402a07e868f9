import Legible.Proofs.Bundle.Splitting
import Legible.Proofs.Naming.Kept
import Legible.Proofs.Scope.Several
import Legible.Script

/-!
Parameters get their usual names all at once, although they are renamed one after the other: those
that are in the way have names in between.
-/

namespace Legible.Bundle

open Scope

/-! ### Names in between -/

def between (name : String) : String :=
  "_" ++ name

theorem between_injective : Function.Injective between := by
  intro a b h
  have hl := congrArg String.toList h
  simp only [between, String.toList_append] at hl
  exact String.toList_inj.mp (List.append_cancel_left hl)

theorem head_between (name : String) : (between name).toList.head? = some '_' := by
  rw [between, String.toList_append]
  rfl

theorem plain_between (name : String) : Naming.Plain (between name) where
  unreserved h := by
    have hall : ∀ w ∈ reservedWords, w.toList.head? ≠ some '_' := by decide
    exact hall _ h (head_between name)
  stem := by
    apply Naming.nameStem_eq
    intro c hc
    rw [head_between] at hc
    obtain rfl := Option.some.inj hc
    decide

/-! ### Pairs of variables and names -/

structure Pairing (t : Tree) (p : Path) (s : Scope) (pairs : List (Nat × String)) : Prop where
  numbered : t.Numbered
  here : (ofTree t).at? p = some s
  lexical : s.dynamic = false
  positions : (pairs.map (·.1)).Nodup
  names : (pairs.map (·.2)).Nodup
  exist : ∀ e ∈ pairs, ∃ v, s.declared[e.1]? = some v
  plain : ∀ e ∈ pairs, e.2.toList.head? ≠ some '_'
  others : ∀ q c, (ofTree t).at? q = some c → ∀ (i : Nat) v, c.declared[i]? = some v →
    ∀ e ∈ pairs, v.name = e.2 → q = p ∧ ∃ d ∈ pairs, d.1 = i
  undeclared : ∀ c ∈ (ofTree t).scopes, ∀ v ∈ c.declared, ∀ e ∈ pairs, v.name ≠ between e.2
  unmentioned : ∀ o ∈ (ofTree t).through, ∀ e ∈ pairs, o.name ≠ between e.2

def inWay (t : Tree) (p : Path) (pairs : List (Nat × String)) (e : Nat × String) : Bool :=
  (pairs.map (·.2)).contains (variableName (ofTree t) p e.1) && variableName (ofTree t) p e.1 != e.2

def parked (t : Tree) (p : Path) (pairs l : List (Nat × String)) : List (Nat × String) :=
  ((l.filter (inWay t p pairs)).map fun e => (e.1, between e.2)).reverse

def staged (t : Tree) (p : Path) (pairs l : List (Nat × String)) : List (Nat × String) :=
  l.reverse ++ parked t p pairs pairs

section

variable {t : Tree} {p : Path} {s : Scope} {pairs l : List (Nat × String)} {e d : Nat × String}
  {i : Nat} {w : String} {v : Variable} {r : Renaming} {named : List (Nat × String)}

theorem mem_parked : (i, w) ∈ parked t p pairs l ↔
    ∃ e ∈ l, inWay t p pairs e = true ∧ e.1 = i ∧ between e.2 = w := by
  simp [parked, and_assoc]

theorem parked_concat (l : List (Nat × String)) (e : Nat × String) :
    parked t p pairs (l ++ [e]) =
      if inWay t p pairs e then (e.1, between e.2) :: parked t p pairs l
      else parked t p pairs l := by
  rw [parked, List.filter_append, List.map_append, List.reverse_append]
  by_cases h : inWay t p pairs e = true
  · rw [if_pos h, List.filter_cons_of_pos h]
    rfl
  · rw [if_neg h, List.filter_cons_of_neg h]
    rfl

theorem staged_concat (l : List (Nat × String)) (e : Nat × String) :
    staged t p pairs (l ++ [e]) = e :: staged t p pairs l := by
  rw [staged, List.reverse_append, List.append_assoc]
  rfl

theorem mem_of_lookup_staged (hi : (staged t p pairs l).lookup i = some w) :
    (i, w) ∈ l ∨ ∃ d ∈ pairs, d.1 = i ∧ between d.2 = w := by
  rcases List.mem_append.mp (mem_of_lookup_eq hi) with hi | hi
  · exact Or.inl (List.mem_reverse.mp hi)
  · obtain ⟨d, hd, -, hdi, hdw⟩ := mem_parked.mp hi
    exact Or.inr ⟨d, hd, hdi, hdw⟩

theorem not_inWay_of_lookup_staged (hd : d ∈ pairs)
    (hi : (staged t p pairs l).lookup d.1 = none) : inWay t p pairs d = false := by
  apply Bool.of_not_eq_true
  intro hway
  rw [staged, List.lookup_eq_none_iff] at hi
  have hne := hi _ (List.mem_append_right _ (mem_parked.mpr ⟨d, hd, hway, rfl, rfl⟩))
  simp at hne

theorem variableName_of_renames (h : Renames t p s named r) (hv : s.declared[i]? = some v) :
    variableName r.1 p i = (named.lookup i).getD v.name := by
  obtain ⟨s', hs', hrelabels⟩ := h.here
  rw [variableName, hs', Option.bind_some, hrelabels.getElem?_declared hv, Option.map_some,
    Option.getD_some, Variable.name_given]

theorem moveAway_eq (h : Renames t p s named r) (hv : s.declared[e.1]? = some v)
    (hname : variableName (ofTree t) p e.1 = v.name) (hnone : named.lookup e.1 = none) :
    moveAway p (pairs.map (·.2)) r e =
      if inWay t p pairs e then r.1.rename p e.1 (r.1.uniqueName p (between e.2)) r.2 else r := by
  have hcurrent : variableName r.1 p e.1 = variableName (ofTree t) p e.1 := by
    rw [variableName_of_renames h hv, hnone, Option.getD_none, hname]
  rw [moveAway, hcurrent]
  rfl

end

/-! ### Moving away -/

section

variable {t : Tree} {p : Path} {s : Scope} {pairs : List (Nat × String)} (h : Pairing t p s pairs)

include h

theorem Pairing.eq_of_position {d e : Nat × String} (hd : d ∈ pairs) (he : e ∈ pairs)
    (heq : d.1 = e.1) : d = e :=
  List.inj_on_of_nodup_map h.positions hd he heq

theorem Pairing.eq_of_name {d e : Nat × String} (hd : d ∈ pairs) (he : e ∈ pairs)
    (heq : d.2 = e.2) : d = e :=
  List.inj_on_of_nodup_map h.names hd he heq

theorem Pairing.ne_between {d : Nat × String} (hd : d ∈ pairs) (name : String) :
    d.2 ≠ between name := by
  intro he
  apply h.plain d hd
  rw [he, head_between]

theorem Pairing.name_ne_between {i : Nat} {v : Variable} (hv : s.declared[i]? = some v)
    {e : Nat × String} (he : e ∈ pairs) : v.name ≠ between e.2 :=
  h.undeclared s (at?_mem_scopes h.here) v (List.mem_of_getElem? hv) e he

theorem Pairing.variableName {i : Nat} {v : Variable} (hv : s.declared[i]? = some v) :
    variableName (ofTree t) p i = v.name := by
  rw [variableName_of_renames (renames_start h.here) hv]
  rfl

theorem Pairing.of_concat {l : List (Nat × String)} {e : Nat × String} (hl : l ++ [e] <+: pairs) :
    e ∈ pairs ∧ (∀ d ∈ l, d ∈ pairs) ∧ ∀ d ∈ l, d ≠ e := by
  refine ⟨hl.subset (by simp), fun d hd => hl.subset (List.mem_append_left _ hd), ?_⟩
  have hn := (hl.sublist.map (·.1)).nodup h.positions
  rw [List.map_append, List.nodup_append] at hn
  rintro d hd rfl
  exact hn.2.2 d.1 (List.mem_map_of_mem hd) d.1 (by simp) rfl

theorem Pairing.renames_parked {l : List (Nat × String)} (hl : l <+: pairs) :
    Renames t p s (parked t p pairs l) (l.foldl (moveAway p (pairs.map (·.2))) (ofTree t, ∅)) := by
  induction l using List.reverseRecOn with
  | nil => exact renames_start h.here
  | append_singleton l e ih =>
    have hrest := ih ((List.prefix_append l [e]).trans hl)
    obtain ⟨he, hmem, hother⟩ := h.of_concat hl
    have hentry : ∀ {i w}, (parked t p pairs l).lookup i = some w →
        ∃ d ∈ l, d.1 = i ∧ between d.2 = w := by
      intro i w hi
      obtain ⟨d, hd, -, hdi, hdw⟩ := mem_parked.mp (mem_of_lookup_eq hi)
      exact ⟨d, hd, hdi, hdw⟩
    obtain ⟨v, hv⟩ := h.exist e he
    have hnone : (parked t p pairs l).lookup e.1 = none := by
      apply Option.eq_none_iff_forall_ne_some.mpr
      intro w hw
      obtain ⟨d, hd, hde, -⟩ := hentry hw
      exact hother d hd (h.eq_of_position (hmem d hd) he hde)
    rw [List.foldl_append, List.foldl_cons, List.foldl_nil, parked_concat,
      moveAway_eq hrest hv (h.variableName hv) hnone]
    split
    · -- No two pairs have the same name, so every name in between is a new one.
      have hfree : ∀ i, (parked t p pairs l).lookup i ≠ some (between e.2) := by
        intro i hi
        obtain ⟨d, hd, -, hde⟩ := hentry hi
        exact hother d hd (h.eq_of_name (hmem d hd) he (between_injective hde))
      rw [Naming.uniqueName_eq_self (plain_between e.2) (hrest.free h.here
        (fun c hc u hu => h.undeclared c hc u hu e he) hfree)]
      apply hrest.rename h.here h.numbered h.lexical hv
      · intro j _ hj
        rw [hnone] at hj
        obtain ⟨d, hd, -, hdw⟩ := hentry hj
        exact h.name_ne_between hv (hmem d hd) hdw.symm
      · intro w hw
        rw [hnone] at hw
        cases hw
      · intro j u hu hj
        cases hw : (parked t p pairs l).lookup j with
        | none =>
          rw [hw] at hj
          exact absurd hj (h.name_ne_between hu he)
        | some w =>
          rw [hw] at hj
          exact absurd (hw.trans (congrArg some hj)) (hfree j)
    · exact hrest

/-! ### The last names -/

theorem Pairing.not_incoming {e : Nat × String} (he : e ∈ pairs) :
    ∀ o ∈ s.incoming, o.name ≠ between e.2 := by
  intro o ho hn
  rcases incoming_cases (fresh_ofTree t) (at?_mem_scopes h.here) ho with ⟨c, hc, v, hv, hvn, -⟩ | ho
  · exact h.undeclared c hc v hv e he (hvn.trans hn)
  · exact h.unmentioned o ho e he hn

theorem Pairing.eq_of_not_inWay {e d : Nat × String} (he : e ∈ pairs) (hd : d ∈ pairs) {v : Variable}
    (hv : s.declared[e.1]? = some v) (hway : inWay t p pairs e = false) (hn : v.name = d.2) :
    d = e := by
  rw [inWay, h.variableName hv, hn, Bool.and_eq_false_iff] at hway
  rcases hway with hway | hway
  · have hmem : d.2 ∈ pairs.map (·.2) := List.mem_map_of_mem hd
    rw [List.contains_iff_mem.mpr hmem] at hway
    cases hway
  · exact h.eq_of_name hd he (by simpa using hway)

theorem Pairing.lookup_staged_self {l : List (Nat × String)} {e : Nat × String}
    (hl : l ++ [e] <+: pairs) {w : String}
    (hw : (staged t p pairs l).lookup e.1 = some w) : w = between e.2 := by
  obtain ⟨he, hmem, hother⟩ := h.of_concat hl
  rcases mem_of_lookup_staged hw with hd | ⟨d, hd, hde, rfl⟩
  · exact absurd (h.eq_of_position (hmem _ hd) he rfl) (hother _ hd)
  · rw [h.eq_of_position hd he hde]

theorem Pairing.renames_last {l : List (Nat × String)} (hl : l <+: pairs) {r : Renaming}
    (hr : Renames t p s (parked t p pairs pairs) r) :
    Renames t p s (staged t p pairs l)
      (l.foldl (fun r e => r.1.rename p e.1 e.2 r.2) r) := by
  induction l using List.reverseRecOn with
  | nil => exact hr
  | append_singleton l e ih =>
    have hrest := ih ((List.prefix_append l [e]).trans hl)
    obtain ⟨he, hmem, hother⟩ := h.of_concat hl
    obtain ⟨v, hv⟩ := h.exist e he
    rw [List.foldl_append, List.foldl_cons, List.foldl_nil, staged_concat]
    apply hrest.rename h.here h.numbered h.lexical hv
    · intro j hj hlookup
      cases hold : (staged t p pairs l).lookup e.1 with
      | none =>
        -- If another variable had been given this name, this one would have been moved away.
        rw [hold, Option.getD_none] at hlookup
        have hway := not_inWay_of_lookup_staged he hold
        rcases mem_of_lookup_staged hlookup with hd | ⟨d, hd, -, hdw⟩
        · exact hother _ hd (h.eq_of_not_inWay he (hmem _ hd) hv hway rfl)
        · exact h.name_ne_between hv hd hdw.symm
      | some w =>
        rw [hold, Option.getD_some, h.lookup_staged_self hl hold] at hlookup
        rcases mem_of_lookup_staged hlookup with hd | ⟨d, hd, rfl, hdw⟩
        · exact h.ne_between (hmem _ hd) e.2 rfl
        · exact hj (congrArg Prod.fst (h.eq_of_name hd he (between_injective hdw)))
    · intro w hw
      rw [h.lookup_staged_self hl hw]
      exact h.not_incoming he
    · intro j u hu hj
      cases hw : (staged t p pairs l).lookup j with
      | none =>
        rw [hw, Option.getD_none] at hj
        obtain ⟨-, d, hd, rfl⟩ := h.others p s h.here j u hu e he hj
        rw [h.eq_of_not_inWay hd he hu (not_inWay_of_lookup_staged hd hw) hj]
      | some w =>
        rw [hw, Option.getD_some] at hj
        subst hj
        rcases mem_of_lookup_staged hw with hd | ⟨d, hd, -, hdw⟩
        · exact congrArg Prod.fst (h.eq_of_name (hmem _ hd) he rfl)
        · exact absurd hdw.symm (h.ne_between he d.2)

theorem Pairing.renames_renameParameters : ∃ named : List (Nat × String),
    Renames t p s named (renameParameters p pairs (ofTree t, ∅)) ∧
      ∀ i w, named.lookup i = some w ↔ (i, w) ∈ pairs := by
  refine ⟨_, h.renames_last (List.prefix_refl pairs) (h.renames_parked (List.prefix_refl pairs)), ?_⟩
  have hnodup : (pairs.reverse.map (·.1)).Nodup := by
    rw [List.map_reverse]
    exact List.nodup_reverse.mpr h.positions
  have hof : ∀ i w, (i, w) ∈ pairs →
      (staged t p pairs pairs).lookup i = some w := by
    intro i w hm
    rw [staged, List.lookup_append, lookup_eq_of_mem hnodup (List.mem_reverse.mpr hm), Option.some_or]
  intro i w
  refine ⟨fun hi => ?_, hof i w⟩
  rcases List.mem_append.mp (mem_of_lookup_eq hi) with hm | hm
  · exact List.mem_reverse.mp hm
  · obtain ⟨e, he, -, rfl, -⟩ := mem_parked.mp hm
    obtain rfl := Option.some.inj ((hof e.1 e.2 he).symm.trans hi)
    exact he

theorem Pairing.held {r : Renaming} {named : List (Nat × String)} (hr : Renames t p s named r)
    (hnamed : ∀ i w, named.lookup i = some w ↔ (i, w) ∈ pairs) {e : Nat × String} (he : e ∈ pairs)
    {v : Variable} (hv : s.declared[e.1]? = some v) (source : Naming.Source) (count : Nat) :
    Naming.Held p e.1 (v.given (some e.2)) ⟨r.1, r.2, source, count⟩ := by
  obtain ⟨s', hs', hrelabels⟩ := hr.here
  have hlookup := (hnamed e.1 e.2).mpr he
  have hv' := hrelabels.getElem?_declared hv
  rw [hlookup] at hv'
  have htags : ∀ {q : Path} {d : Scope} {j : Nat} {u : Variable}, (ofTree t).at? q = some d →
      d.declared[j]? = some u → ∀ tag ∈ v.tags, tag ∈ u.tags → q = p ∧ j = e.1 := by
    intro q d j u hd hu tag htag htag'
    exact place_unique h.numbered hd h.here hu hv htag' htag
  refine ⟨rfl, ⟨s', hs', (hrelabels.indexed _ _).mpr ⟨_, hv', rfl⟩, hv'⟩, fun tag htag => ?_,
    fun q c hc u hu hk => ?_⟩
  · exact (hr.names tag e.2).mpr ⟨e.1, v, hv, htag, hlookup⟩
  · obtain ⟨j, hj⟩ := List.mem_iff_getElem?.mp hu
    by_cases hq : q = p
    · subst hq
      obtain rfl := Option.some.inj (hs'.symm.trans hc)
      obtain ⟨u, hju, rfl⟩ := hrelabels.exists_variable hj
      cases hw : named.lookup j with
      | some w =>
        rw [hw] at hk
        cases hk
      | none =>
        rw [Variable.given]
        have hne : ∀ d ∈ pairs, d.1 ≠ j := by
          rintro d hd rfl
          rw [(hnamed d.1 d.2).mpr hd] at hw
          cases hw
        refine ⟨fun hn => ?_, fun tag htag htag' => ?_⟩
        · obtain ⟨-, d, hd, hdj⟩ := h.others q s h.here j u hju e he hn
          exact hne d hd hdj
        · exact hne e he (htags h.here hju tag htag htag').2.symm
    · obtain ⟨d, hd, hsame, -⟩ := hr.elsewhere q c hq hc
      rw [hsame] at hj
      exact ⟨fun hn => hq (h.others q d hd j u hj e he hn).1,
        fun tag htag htag' => hq (htags hd hj tag htag htag').1⟩

end

/-! ### Parameters of factories -/

def Format.usualNames (format : Format) (factory : Tree) : List (Tree × String) :=
  (factory.get "params").items.zip format.parameterNames

/-- Nothing but the parameters has one of their usual names, which they may have in any order, and
nothing at all has a name in between. -/
structure Unobstructed (root : Scope) (path : Path) (usual : List (Tree × String)) : Prop where
  others : ∀ q c, root.at? q = some c → ∀ v ∈ c.declared, ∀ e ∈ usual, v.name = e.2 →
    q = path ∧ ∃ d ∈ usual, d.1.name = v.name
  undeclared : ∀ c ∈ root.scopes, ∀ v ∈ c.declared, ∀ e ∈ usual, v.name ≠ between e.2
  unmentioned : ∀ o ∈ root.through, ∀ e ∈ usual, o.name ≠ between e.2

/-- The variable that a parameter declares in a scope has a name by now: all its identifiers and
references have it, and the scope has the variable under this name. -/
def Called (s : Scope) (path : Path) (parameter : Tree) (name : String) (r : Renaming) : Prop :=
  ∃ (s' : Scope) (i : Nat) (v : Variable), r.1.at? path = some s' ∧ s.declared[i]? = some v ∧
    v.name = parameter.name ∧ parameter.tag ∈ v.identifiers ∧
    (∀ tag ∈ v.tags, r.2[tag]? = some name) ∧ s'.position? name = some i ∧
    s'.declared[i]? = some { v with name := name, keepName := true }

theorem called_of_held {s : Scope} {p : Path} {i : Nat} {v : Variable} {parameter : Tree}
    {name : String} {g : Naming.Generation} (hv : s.declared[i]? = some v)
    (hname : v.name = parameter.name) (htag : parameter.tag ∈ v.identifiers)
    (h : Naming.Held p i (v.given (some name)) g) :
    Called s p parameter name (g.root, g.names) := by
  obtain ⟨s', hs', hposition, hdeclared⟩ := h.here
  exact ⟨s', i, v, hs', hv, hname, htag, h.names, hposition, hdeclared⟩

variable {parse : Parser}

theorem isFactory_of_moduleOf {format : Format} {id : Id} {name : String} {factory : Tree}
    {m : Module} (h : moduleOf parse format id name factory = .ok m) : IsFactory m.factory := by
  unfold moduleOf at h
  split at h
  · cases h
  · rename_i c hc
    obtain ⟨f, hf, hm⟩ := exists_of_bind_eq_ok h
    obtain rfl := Except.ok.inj hm
    exact ((factory_of_match hc).1.inlined hf).numbered

theorem parameterPairs_untagged (s : Scope) (parameters : List Tree) (names : List String) :
    parameterPairs s (parameters.map Tree.untagged) names = parameterPairs s parameters names := by
  rw [parameterPairs, List.zip_map_left, List.filterMap_map]
  apply List.filterMap_congr
  intro e _
  have hname : e.1.untagged.name = e.1.name := by
    rw [Tree.name, Tree.get_untagged, Tree.text?_untagged, Tree.name]
  simp only [Function.comp_apply, Prod.map_fst, Prod.map_snd, id_eq, Tree.isKind_untagged, hname]

theorem map_snd_zip_sublist {α β : Type} (as : List α) (bs : List β) :
    ((as.zip bs).map (·.2)).Sublist bs := by
  induction as generalizing bs with
  | nil => exact List.nil_sublist bs
  | cons a as ih =>
    cases bs with
    | nil => exact .slnil
    | cons b bs => exact (ih bs).cons_cons b

theorem mem_parameterPairs {s : Scope} {parameters : List Tree} {names : List String} {i : Nat}
    {w : String} : (i, w) ∈ parameterPairs s parameters names ↔
      ∃ e ∈ parameters.zip names, e.1.isKind "Identifier" = true ∧
        s.position? e.1.name = some i ∧ e.2 = w := by
  rw [parameterPairs, List.mem_filterMap]
  refine exists_congr fun e => and_congr_right fun _ => ?_
  by_cases hk : e.1.isKind "Identifier" = true
  · simp [hk]
  · simp [hk]

theorem nodup_parameterNames (format : Format) : format.parameterNames.Nodup := by
  cases format <;> decide

theorem plain_parameterNames (format : Format) :
    ∀ w ∈ format.parameterNames, w.toList.head? ≠ some '_' := by
  cases format <;> decide

theorem IsFactory.exists_parameters {t : Tree} (h : IsFactory t) : ∃ s, (ofTree t).at? [0] = some s ∧
    s.dynamic = false ∧ ∀ q ∈ (t.get "params").items, q.isKind "Identifier" = true →
      ∃ v ∈ s.declared, v.name = q.name ∧ q.tag ∈ v.identifiers := by
  obtain ⟨env, items, -, hchildren, himplicit, hparams⟩ := h.children
  refine ⟨_, by rw [at?, hchildren]; rfl, rfl, fun q hq hk => ?_⟩
  have hitem : Item.declare .parameter false q.name (some q.tag) ∈ items := by
    apply hparams
    cases ht : t.get "params" with
    | scalar a => rw [ht] at hq; cases hq
    | object tag fs => rw [ht] at hq; cases hq
    | list ts =>
      rw [ht] at hq
      rw [Item.ofLooked_list, if_neg (by decide)]
      refine List.mem_flatMap.mpr ⟨q, hq, ?_⟩
      rw [Item.ofLooked_target (eq_of_beq hk)]
      exact List.mem_singleton_self _
  exact exists_variable_of_made himplicit (d := ⟨q.name, .parameter, some q.tag⟩)
    (List.mem_flatMap.mpr ⟨_, hitem, List.mem_singleton_self _⟩) rfl

section

variable {t : Tree} {p : Path} {s : Scope} {parameters : List Tree} {format : Format}
  (ht : t.Numbered) (hs : (ofTree t).at? p = some s) (hd : s.dynamic = false)
  (hkinds : ∀ e ∈ parameters.zip format.parameterNames, e.1.isKind "Identifier" = true)
  (hdistinct : ((parameters.zip format.parameterNames).map (·.1.name)).Nodup)
  (hclear : Unobstructed (ofTree t) p (parameters.zip format.parameterNames))

include ht hs hd hkinds hdistinct hclear

theorem pairing_parameterPairs :
    Pairing t p s (parameterPairs s parameters format.parameterNames) := by
  have hindexed := (fresh_ofTree t s (at?_mem_scopes hs)).indexed
  have hpair : ∀ (x : Tree × String) (e : Nat × String),
      (if x.1.isKind "Identifier" then (s.position? x.1.name).map fun i => (i, x.2) else none) =
        some e → s.position? x.1.name = some e.1 ∧ x.2 = e.2 := by
    intro x e he
    split at he
    · obtain ⟨i, hi, rfl⟩ := Option.map_eq_some_iff.mp he
      exact ⟨hi, rfl⟩
    · cases he
  have hzip : ∀ {e}, e ∈ parameterPairs s parameters format.parameterNames →
      ∃ x ∈ parameters.zip format.parameterNames, s.position? x.1.name = some e.1 ∧ x.2 = e.2 := by
    intro e he
    obtain ⟨x, hx, -, hposition, hname⟩ := mem_parameterPairs.mp he
    exact ⟨x, hx, hposition, hname⟩
  constructor
  · exact ht
  · exact hs
  · exact hd
  · rw [List.Nodup, List.pairwise_map] at hdistinct ⊢
    rw [parameterPairs, List.pairwise_filterMap]
    apply hdistinct.imp
    intro x y hxy d hd e he hde
    obtain ⟨u, hu, hux⟩ := (hindexed _ _).mp (hpair x d hd).1
    obtain ⟨v, hv, hvy⟩ := (hindexed _ _).mp (hpair y e he).1
    rw [hde] at hu
    obtain rfl := Option.some.inj (hu.symm.trans hv)
    exact hxy (hux.symm.trans hvy)
  · have hnames := (map_snd_zip_sublist parameters _).nodup (nodup_parameterNames format)
    rw [List.Nodup, List.pairwise_map] at hnames ⊢
    rw [parameterPairs, List.pairwise_filterMap]
    apply hnames.imp
    intro x y hxy d hd e he hde
    exact hxy ((hpair x d hd).2.trans (hde.trans (hpair y e he).2.symm))
  · intro e he
    obtain ⟨x, -, hposition, -⟩ := hzip he
    obtain ⟨v, hv, -⟩ := (hindexed _ _).mp hposition
    exact ⟨v, hv⟩
  · intro e he
    obtain ⟨x, hx, -, hname⟩ := hzip he
    rw [← hname]
    exact plain_parameterNames format x.2 (List.of_mem_zip hx).2
  · intro q c hc i v hv e he hn
    obtain ⟨x, hx, -, hname⟩ := hzip he
    obtain ⟨rfl, d, hdz, hdn⟩ :=
      hclear.others q c hc v (List.mem_of_getElem? hv) x hx (hn.trans hname.symm)
    obtain rfl := Option.some.inj (hs.symm.trans hc)
    refine ⟨rfl, (i, d.2), mem_parameterPairs.mpr ⟨d, hdz, hkinds d hdz, ?_, rfl⟩, rfl⟩
    exact (hindexed _ _).mpr ⟨v, hv, hdn.symm⟩
  · intro c hc v hv e he
    obtain ⟨x, hx, -, hname⟩ := hzip he
    rw [← hname]
    exact hclear.undeclared c hc v hv x hx
  · intro o ho e he
    obtain ⟨x, hx, -, hname⟩ := hzip he
    rw [← hname]
    exact hclear.unmentioned o ho x hx

end

theorem untagged_parameters {factory f : Tree} (hf : inlineEval parse factory = .ok f) :
    (factory.get "params").items.map Tree.untagged =
      (f.numbered.get "params").items.map Tree.untagged := by
  rw [← Tree.items_untagged, ← Tree.items_untagged, ← Tree.get_untagged, ← Tree.get_untagged,
    Tree.untagged_numbered, Tree.get_untagged, Tree.get_untagged, get_inlineEval hf (by decide)]

structure Paired (format : Format) (m : Module) (s : Scope) (named : List (Nat × String)) : Prop where
  here : (ofTree m.factory).at? m.path = some s
  pairing : Pairing m.factory m.path s
    (parameterPairs s (m.factory.get "params").items format.parameterNames)
  renames : Renames m.factory m.path s named (m.scopes, m.names)
  named_iff : ∀ i w, named.lookup i = some w ↔
    (i, w) ∈ parameterPairs s (m.factory.get "params").items format.parameterNames
  declared : ∀ e ∈ format.usualNames m.factory, ∃ (i : Nat) (v : Variable),
    s.declared[i]? = some v ∧ v.name = e.1.name ∧ e.1.tag ∈ v.identifiers ∧
      s.position? e.1.name = some i ∧
        (i, e.2) ∈ parameterPairs s (m.factory.get "params").items format.parameterNames

structure Substituted (format : Format) (m : Module) (s : Scope) : Prop where
  names : ∀ (tag : Nat) w, m.names[tag]? = some w ↔ ∃ e ∈ format.usualNames m.factory, e.2 = w ∧
    ∃ v ∈ s.declared, e.1.tag ∈ v.identifiers ∧ tag ∈ v.tags
  called : ∀ e ∈ format.usualNames m.factory, Called s m.path e.1 e.2 (m.scopes, m.names)

theorem exists_paired {format : Format} {id : Id} {name : String} {factory : Tree} {m : Module}
    (hm : moduleOf parse format id name factory = .ok m) (ht : m.factory.Numbered)
    (hkinds : ∀ e ∈ format.usualNames m.factory, e.1.isKind "Identifier" = true)
    (hdistinct : ((format.usualNames m.factory).map (·.1.name)).Nodup)
    (hclear : Unobstructed (ofTree m.factory) m.path (format.usualNames m.factory)) :
    ∃ s named, Paired format m s named := by
  have hfactory := isFactory_of_moduleOf hm
  obtain ⟨-, -, hprepared⟩ := prepared_of_moduleOf hm
  obtain ⟨f, hf, hnumbered⟩ := hprepared.inlined
  have hpath : m.path = [0] := Option.some.inj (hprepared.scope.symm.trans hfactory.scope.1)
  obtain ⟨s, hs, -, hrenamed⟩ := hprepared.renamed
  -- The parameters are paired with their names before the nodes are numbered.
  rw [← parameterPairs_untagged, untagged_parameters hf, ← hnumbered, parameterPairs_untagged]
    at hrenamed
  obtain ⟨s', hs', hlexical, hparameters⟩ := hfactory.exists_parameters
  rw [← hpath] at hs'
  obtain rfl := Option.some.inj (hs.symm.trans hs')
  have hindexed := (fresh_ofTree m.factory s (at?_mem_scopes hs)).indexed
  have hpairing := pairing_parameterPairs ht hs hlexical hkinds hdistinct hclear
  obtain ⟨named, hr, hnamed⟩ := hpairing.renames_renameParameters
  rw [← hrenamed] at hr
  refine ⟨s, named, hs, hpairing, hr, hnamed, fun e he => ?_⟩
  obtain ⟨v, hv, hname, hid⟩ := hparameters e.1 (List.of_mem_zip he).1 (hkinds e he)
  obtain ⟨i, hi⟩ := List.mem_iff_getElem?.mp hv
  have hposition := (hindexed e.1.name i).mpr ⟨v, hi, hname⟩
  exact ⟨i, v, hi, hname, hid, hposition,
    mem_parameterPairs.mpr ⟨e, he, hkinds e he, hposition, rfl⟩⟩

namespace Paired

variable {format : Format} {m : Module} {s : Scope} {named : List (Nat × String)}
  (h : Paired format m s named)

include h

theorem called (source : Naming.Source) (count : Nat) {e : Tree × String}
    (he : e ∈ format.usualNames m.factory) : ∃ (i : Nat) (v : Variable), v.name = e.1.name ∧
      s.declared[i]? = some v ∧ e.1.tag ∈ v.identifiers ∧
      Naming.Held m.path i (v.given (some e.2)) ⟨m.scopes, m.names, source, count⟩ := by
  obtain ⟨i, v, hv, hname, hid, -, hi⟩ := h.declared e he
  exact ⟨i, v, hname, hv, hid, h.pairing.held h.renames h.named_iff hi hv source count⟩

theorem substituted : Substituted format m s where
  names tag w := by
    have hmem := at?_mem_scopes h.here
    rw [h.renames.names]
    constructor
    · rintro ⟨i, v, hv, htag, hi⟩
      obtain ⟨e, he, -, hposition, rfl⟩ := mem_parameterPairs.mp ((h.named_iff i w).mp hi)
      obtain ⟨j, u, hu, -, hid, hj, -⟩ := h.declared e he
      obtain rfl := Option.some.inj (hj.symm.trans hposition)
      obtain rfl := Option.some.inj (hu.symm.trans hv)
      exact ⟨e, he, rfl, u, List.mem_of_getElem? hu, hid, htag⟩
    · rintro ⟨e, he, rfl, v, hv, hid, htag⟩
      obtain ⟨i, u, hu, -, hid', -, hi⟩ := h.declared e he
      obtain ⟨-, rfl⟩ := owner_unique h.pairing.numbered hmem (List.mem_of_getElem? hu) hmem hv
        (List.mem_append_left _ hid') (List.mem_append_left _ hid)
      exact ⟨i, u, hu, htag, (h.named_iff i e.2).mpr hi⟩
  called e he := by
    obtain ⟨i, v, hname, hv, hid, hheld⟩ := h.called (.dictionary (.start 0)) 0 he
    exact called_of_held hv hname hid hheld

end Paired

/-- The renaming of the first parameters of a module is a simultaneous substitution. An identifier
gets a name if it belongs to a parameter, and then the usual one of this parameter; the scope of the
module has the parameters under these names, and all this stays so when the other variables get
made-up names from there on. -/
theorem renameParameters_substitutes {format : Format} {id : Id} {name : String} {factory f : Tree}
    {m : Module} (hf : inlineEval parse factory = .ok f) (hform : f.wellFormed = true)
    (hm : moduleOf parse format id name factory = .ok m)
    (hkinds : ∀ e ∈ format.usualNames m.factory, e.1.isKind "Identifier" = true)
    (hdistinct : ((format.usualNames m.factory).map (·.1.name)).Nodup)
    (hclear : Unobstructed (ofTree m.factory) m.path (format.usualNames m.factory)) :
    ∃ s, (ofTree m.factory).at? m.path = some s ∧
      (∀ (tag : Nat) w, m.names[tag]? = some w ↔ ∃ e ∈ format.usualNames m.factory, e.2 = w ∧
        ∃ v ∈ s.declared, e.1.tag ∈ v.identifiers ∧ tag ∈ v.tags) ∧
      (∀ e ∈ format.usualNames m.factory, Called s m.path e.1 e.2 (m.scopes, m.names)) ∧
      ∀ source, let g := Naming.Generation.run ⟨m.scopes, m.names, source, 0⟩ m.path
        ∀ e ∈ format.usualNames m.factory, Called s m.path e.1 e.2 (g.root, g.names) := by
  obtain ⟨-, -, hprepared⟩ := prepared_of_moduleOf hm
  obtain ⟨f', hf', hnumbered⟩ := hprepared.inlined
  obtain rfl := Except.ok.inj (hf.symm.trans hf')
  have ht : m.factory.Numbered := hnumbered ▸ Tree.wellFormed.numbered hform
  obtain ⟨s, named, hpaired⟩ := exists_paired hm ht hkinds hdistinct hclear
  refine ⟨s, hpaired.here, hpaired.substituted.names, hpaired.substituted.called, ?_⟩
  intro source g e he
  obtain ⟨i, v, hname, hv, hid, hheld⟩ := hpaired.called source 0 he
  exact called_of_held hv hname hid (hheld.run m.path)

def swappedFactory : Tree :=
  Form.functionExpression Form.null
    [Form.identifier "require", Form.identifier "module", Form.identifier "exports"]
    (Form.blockStatement [Form.expressionStatement (Form.assignmentExpression "="
      (Form.memberExpression false (Form.identifier "module") (Form.identifier "exports"))
      (Form.callExpression (Form.identifier "require") [Form.identifier "exports"]))])

theorem inlineEval_swappedFactory : inlineEval Script.parse swappedFactory = .ok swappedFactory := rfl

theorem exists_moduleOf_swappedFactory :
    ∃ m, moduleOf Script.parse .webpack .null "main" swappedFactory = .ok m := by
  have hok : (moduleOf Script.parse .webpack .null "main" swappedFactory).toBool = true := by decide +kernel
  cases h : moduleOf Script.parse .webpack .null "main" swappedFactory with
  | ok m => exact ⟨m, rfl⟩
  | error e =>
    rw [h] at hok
    cases hok

theorem unobstructed_swappedFactory : Unobstructed (ofTree swappedFactory.numbered) [0]
    (Format.webpack.usualNames swappedFactory.numbered) := by
  have hothers : ∀ q ∈ (ofTree swappedFactory.numbered).paths,
      ∀ c ∈ (ofTree swappedFactory.numbered).at? q, ∀ v ∈ c.declared,
        ∀ e ∈ Format.webpack.usualNames swappedFactory.numbered, v.name = e.2 →
          q = [0] ∧ ∃ d ∈ Format.webpack.usualNames swappedFactory.numbered, d.1.name = v.name := by
    decide +kernel
  exact ⟨fun q c hc => hothers q (mem_paths hc) c hc, by decide +kernel, by decide +kernel⟩

theorem renameParameters_substitutes_swapped :
    ∃ (m : Module) (s : Scope), moduleOf Script.parse .webpack .null "main" swappedFactory = .ok m ∧
      (ofTree m.factory).at? m.path = some s ∧
      (Format.webpack.usualNames m.factory).map (fun e => (e.1.name, e.2)) =
        [("require", "module"), ("module", "exports"), ("exports", "require")] ∧
      ∀ e ∈ Format.webpack.usualNames m.factory, Called s m.path e.1 e.2 (m.scopes, m.names) := by
  have hform : swappedFactory.wellFormed = true := by decide +kernel
  have hkinds : ∀ e ∈ Format.webpack.usualNames swappedFactory.numbered,
      e.1.isKind "Identifier" = true := by decide +kernel
  have hdistinct : ((Format.webpack.usualNames swappedFactory.numbered).map (·.1.name)).Nodup := by
    decide +kernel
  obtain ⟨m, hm⟩ := exists_moduleOf_swappedFactory
  obtain ⟨-, -, hprepared⟩ := prepared_of_moduleOf hm
  obtain ⟨f, hf, hfactory⟩ := hprepared.inlined
  obtain rfl := Except.ok.inj (inlineEval_swappedFactory.symm.trans hf)
  have hpath : m.path = [0] :=
    Option.some.inj (hprepared.scope.symm.trans (isFactory_of_moduleOf hm).scope.1)
  obtain ⟨s, hs, -, hcalled, -⟩ := renameParameters_substitutes hf hform hm (hfactory ▸ hkinds)
    (hfactory ▸ hdistinct) (hfactory ▸ hpath ▸ unobstructed_swappedFactory)
  refine ⟨m, s, hm, hs, ?_, hcalled⟩
  rw [hfactory]
  decide +kernel

end Legible.Bundle
