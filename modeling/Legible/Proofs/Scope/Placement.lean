import Legible.Proofs.Scope.Owners

namespace Legible

namespace Scope

inductive Holds (root : Scope) : Path → ScopeKind → Block → List Item → Prop
  | outermost {kind : ScopeKind} {block : Block} {dynamic : Bool} {is : List Item} :
      root = made kind block dynamic true [] is → kind.receives = true → NamesArguments is →
        Holds root [] kind block is
  | inside {p : Path} {around : ScopeKind} {outer : Block} {is : List Item} {kind : ScopeKind}
      {block : Block} {dynamic : Bool} {inner : List Item} {i : Nat} {env : List Frame} :
      Holds root p around outer is → .scope kind block dynamic inner ∈ is →
        root.at? (p ++ [i]) = some (made kind block dynamic true env inner) →
          Holds root (p ++ [i]) kind block inner

def home (root : Scope) (p : Path) : Path :=
  (p.inits.reverse.find? fun q => (root.at? q).any (·.kind.receives)).getD []

/-- Where the variables of a declaration that stands in the scope at a path come to rest. -/
def restOf (root : Scope) (u : Tree) (p : Path) : Path :=
  if (u.get "kind").text? == some "var" then root.home p else p

variable {root : Scope} {p : Path} {kind : ScopeKind} {block : Block} {is : List Item}

theorem home_concat (root : Scope) (p : Path) (i : Nat) : root.home (p ++ [i]) =
    if (root.at? (p ++ [i])).any (·.kind.receives) = true then p ++ [i] else root.home p := by
  have hinits : (p ++ [i]).inits = p.inits ++ [p ++ [i]] := by
    rw [List.inits_append]
    rfl
  rw [home, hinits, List.reverse_append, List.reverse_singleton, List.singleton_append,
    List.find?_cons]
  split <;> simp_all [home]

theorem prefix_home (root : Scope) (p : Path) : root.home p <+: p := by
  rw [home]
  cases h : p.inits.reverse.find? fun q => (root.at? q).any (·.kind.receives) with
  | none => exact List.nil_prefix
  | some q => exact (List.mem_inits q p).mp (List.mem_reverse.mp (List.mem_of_find?_eq_some h))

theorem prefix_restOf (root : Scope) (u : Tree) (p : Path) : root.restOf u p <+: p := by
  rw [restOf]
  split
  · exact root.prefix_home p
  · exact List.prefix_refl p

theorem Holds.exists_at? (h : Holds root p kind block is) :
    ∃ dynamic env, root.at? p = some (made kind block dynamic true env is) := by
  cases h with
  | outermost h => exact ⟨_, [], congrArg some h⟩
  | inside _ _ hat => exact ⟨_, _, hat⟩

theorem Holds.namesArguments (h : Holds root p kind block is) : NamesArguments is := by
  induction h with
  | outermost _ _ hn => exact hn
  | inside _ hi _ ih => exact NamesArguments.of_scope (List.forall_mem_singleton.mpr (ih _ hi))

theorem Holds.exists_inside (h : Holds root p kind block is) {k : ScopeKind} {b : Block}
    {dynamic : Bool} {inner : List Item} (hi : .scope k b dynamic inner ∈ is) :
    ∃ i, Holds root (p ++ [i]) k b inner := by
  obtain ⟨dyn, env, hat⟩ := h.exists_at?
  let env' : List Frame := ⟨(is.flatMap (Item.declared kind.receives)).map (·.name), dyn⟩ :: env
  have hpart : Part.child (made k b dynamic true env' inner) ∈ partsIn kind dyn env is := by
    refine List.mem_flatMap.mpr ⟨_, hi, ?_⟩
    rw [partsOf_scope]
    exact List.mem_singleton_self _
  have hchild : made k b dynamic true env' inner ∈ (made kind block dyn true env is).children :=
    List.mem_filterMap.mpr ⟨_, hpart, rfl⟩
  obtain ⟨i, hi'⟩ := List.mem_iff_getElem?.mp hchild
  have hinner : root.at? (p ++ [i]) = some (made k b dynamic true env' inner) := by
    rw [at?_append, hat, Option.bind_some, at?, hi']
    rfl
  exact ⟨i, h.inside hi hinner⟩

theorem Holds.mem_owners (h : Holds root p kind block is) (hk : kind ≠ .functionName) :
    (block.tag, p) ∈ root.owners := by
  obtain ⟨dynamic, env, hat⟩ := h.exists_at?
  exact Scope.mem_owners.mpr ⟨_, hat, rfl, hk, rfl⟩

theorem Holds.any_receives (h : Holds root p kind block is) :
    (root.at? p).any (·.kind.receives) = kind.receives := by
  obtain ⟨dynamic, env, hat⟩ := h.exists_at?
  rw [hat]
  rfl

theorem exists_variable_of_made {dynamic registered : Bool} {env : List Frame}
    (hn : NamesArguments is) {d : Declaration} {g : Nat}
    (hd : d ∈ is.flatMap (Item.declared kind.receives)) (hg : d.identifier = some g) :
    ∃ v ∈ (made kind block dynamic registered env is).declared,
      v.name = d.name ∧ g ∈ v.identifiers := by
  have hmem : (⟨g, d.name⟩ : Occurrence) ∈ (is.flatMap (Item.declared kind.receives)).flatMap
      Declaration.occurrences := by
    refine List.mem_flatMap.mpr ⟨d, hd, ?_⟩
    rw [Declaration.occurrences, hg]
    exact List.mem_singleton_self _
  rw [← (perm_variablesOf _).mem_iff] at hmem
  obtain ⟨v, hv, ho⟩ := List.mem_flatMap.mp hmem
  obtain ⟨x, hx, he⟩ := List.mem_map.mp ho
  obtain ⟨rfl, hname⟩ := Occurrence.mk.inj he
  rw [Variable.tags, ((declared_variablesOf hn.declared).fresh v hv).1, List.append_nil] at hx
  rw [made, declared_assemble]
  exact ⟨_, List.mem_map_of_mem hv, hname, hx⟩

theorem Holds.exists_variable (h : Holds root p kind block is) {d : Declaration} {g : Nat}
    (hd : d ∈ is.flatMap (Item.declared kind.receives)) (hg : d.identifier = some g) :
    ∃ c, root.at? p = some c ∧ ∃ v ∈ c.declared, g ∈ v.identifiers := by
  obtain ⟨dynamic, env, hat⟩ := h.exists_at?
  obtain ⟨v, hv, -, hid⟩ := exists_variable_of_made h.namesArguments hd hg
  exact ⟨_, hat, v, hv, hid⟩

theorem Holds.exists_variable_home (h : Holds root p kind block is) {d : Declaration} {g : Nat}
    (hd : d ∈ is.flatMap Item.hoisted) (hg : d.identifier = some g) :
    ∃ c, root.at? (root.home p) = some c ∧ ∃ v ∈ c.declared, g ∈ v.identifiers := by
  have hdeclared : ∀ {kind : ScopeKind} {is : List Item}, kind.receives = true →
      d ∈ is.flatMap Item.hoisted → d ∈ is.flatMap (Item.declared kind.receives) := by
    intro kind is hr hd
    obtain ⟨i, hi, hd⟩ := List.mem_flatMap.mp hd
    refine List.mem_flatMap.mpr ⟨i, hi, ?_⟩
    rw [hr, Item.declared_true]
    exact List.mem_append_right _ hd
  induction h with
  | outermost h hr hn =>
    have hhome : root.home [] = [] := List.prefix_nil.mp (root.prefix_home [])
    rw [hhome]
    exact (Holds.outermost h hr hn).exists_variable (hdeclared hr hd) hg
  | @inside p _ _ _ kind block _ inner i _ h hi hat ih =>
    have hinner := h.inside hi hat
    rw [home_concat, hinner.any_receives]
    split
    · rename_i hr
      exact hinner.exists_variable (hdeclared hr hd) hg
    · rename_i hr
      refine ih (List.mem_flatMap.mpr ⟨_, hi, ?_⟩)
      rwa [Item.hoisted_scope, if_neg hr]

theorem Holds.declares (h : Holds root p kind block is) {k : VariableKind} {hoisted : Bool}
    {name : String} {g : Nat} (hi : .declare k hoisted name (some g) ∈ is) :
    ∃ c, root.at? (if hoisted then root.home p else p) = some c ∧
      ∃ v ∈ c.declared, g ∈ v.identifiers := by
  cases hoisted with
  | true =>
    exact h.exists_variable_home (List.mem_flatMap.mpr ⟨_, hi, List.mem_singleton_self _⟩) rfl
  | false =>
    have hd : ⟨name, k, some g⟩ ∈ is.flatMap (Item.declared kind.receives) :=
      List.mem_flatMap.mpr ⟨_, hi, List.mem_singleton_self _⟩
    exact h.exists_variable hd rfl

end Scope

end Legible
