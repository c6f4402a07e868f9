import Legible.Proofs.Tree.Induction
import Legible.Scope.Rename
import Mathlib.Data.List.Basic

namespace Legible

namespace Item

@[elab_as_elim, induction_eliminator]
theorem induction {motive : Item → Prop}
    (declare : ∀ kind hoisted name id, motive (.declare kind hoisted name id))
    (refer : ∀ o, motive (.refer o))
    (scope : ∀ kind block dynamic items, (∀ i ∈ items, motive i) →
      motive (.scope kind block dynamic items)) (i : Item) : motive i :=
  match i with
  | .declare kind hoisted name id => declare kind hoisted name id
  | .refer o => refer o
  | .scope kind block dynamic items =>
    scope kind block dynamic items fun i _ => induction declare refer scope i
termination_by sizeOf i
decreasing_by
  rename_i h
  have := List.sizeOf_lt_of_mem h
  simp only [Item.scope.sizeOf_spec]
  omega

end Item

@[elab_as_elim, induction_eliminator]
theorem Step.induction {motive : Step → Prop}
    (look : ∀ arity view key, motive (.look arity view key))
    (bind : ∀ b key, motive (.bind b key))
    (self : ∀ b, motive (.self b))
    (arguments : motive .arguments)
    (scope : ∀ kind dynamic steps, (∀ s ∈ steps, motive s) → motive (.scope kind dynamic steps))
    (s : Step) : motive s :=
  match s with
  | .look arity view key => look arity view key
  | .bind b key => bind b key
  | .self b => self b
  | .arguments => arguments
  | .scope kind dynamic steps =>
    scope kind dynamic steps fun s _ => induction look bind self arguments scope s
termination_by sizeOf s
decreasing_by
  rename_i h
  have := List.sizeOf_lt_of_mem h
  simp only [Step.scope.sizeOf_spec]
  omega

namespace Item

theorem hoistedItems_eq (is : List Item) : hoistedItems is = is.flatMap hoisted := by
  induction is with
  | nil => rfl
  | cons i is ih => rw [hoistedItems, List.flatMap_cons, ih]

theorem hoisted_scope (kind : ScopeKind) (block : Block) (dynamic : Bool) (is : List Item) :
    hoisted (.scope kind block dynamic is) =
      if kind.receives then [] else is.flatMap hoisted := by
  rw [hoisted, hoistedItems_eq]

theorem declared_scope (kind : ScopeKind) (block : Block) (dynamic : Bool) (is : List Item) :
    declared true (.scope kind block dynamic is) = hoisted (.scope kind block dynamic is) := rfl

theorem declared_true (i : Item) : declared true i = declared false i ++ hoisted i := by
  cases i with
  | declare kind h name id => cases h <;> rfl
  | refer o => rfl
  | scope kind block dynamic is => rfl

/-! ### Mentions -/

mutual

def mentions : Item → List (Option Nat × String)
  | .declare _ _ name id => [(id, name)]
  | .refer o => [(some o.tag, o.name)]
  | .scope _ _ _ items => mentionsItems items
termination_by structural i => i

def mentionsItems : List Item → List (Option Nat × String)
  | [] => []
  | i :: is => mentions i ++ mentionsItems is
termination_by structural is => is

end

theorem mentions_scope (kind : ScopeKind) (block : Block) (dynamic : Bool) (is : List Item) :
    mentions (.scope kind block dynamic is) = is.flatMap mentions := by
  rw [mentions]
  induction is with
  | nil => rfl
  | cons i is ih => rw [mentionsItems, List.flatMap_cons, ih]

theorem mem_mentions_of_hoisted {i : Item} {d : Declaration} (h : d ∈ hoisted i) :
    (d.identifier, d.name) ∈ mentions i := by
  induction i with
  | declare kind hoisted name id =>
    cases hoisted with
    | true => obtain rfl := List.mem_singleton.mp h; exact List.mem_singleton_self _
    | false => cases h
  | refer o => cases h
  | scope kind block dynamic is ih =>
    rw [hoisted_scope] at h
    rw [mentions_scope]
    split at h
    · cases h
    · obtain ⟨i, hi, h⟩ := List.mem_flatMap.mp h
      exact List.mem_flatMap.mpr ⟨i, hi, ih i hi h⟩

theorem mem_mentions_of_declared {receives : Bool} {i : Item} {d : Declaration}
    (h : d ∈ declared receives i) : (d.identifier, d.name) ∈ mentions i := by
  cases i with
  | declare kind hoisted name id =>
    simp only [declared] at h
    split at h
    · cases h
    · obtain rfl := List.mem_singleton.mp h
      exact List.mem_singleton_self _
  | refer o => cases receives <;> cases h
  | scope kind block dynamic is =>
    cases receives with
    | true => exact mem_mentions_of_hoisted h
    | false => cases h

def occurrences (i : Item) : List Occurrence :=
  i.mentions.filterMap fun m => m.1.map fun tag => ⟨tag, m.2⟩

theorem occurrences_declare (kind : VariableKind) (h : Bool) (name : String) (id : Option Nat) :
    occurrences (.declare kind h name id) = id.toList.map fun tag => ⟨tag, name⟩ := by
  cases id <;> rfl

theorem occurrences_scope (kind : ScopeKind) (block : Block) (dynamic : Bool) (is : List Item) :
    occurrences (.scope kind block dynamic is) = is.flatMap occurrences := by
  rw [occurrences, mentions_scope, List.filterMap_flatMap]
  rfl

end Item

/-! ### New names -/

def Names.currentOf (names : Names) (id : Option Nat) (name : String) : String :=
  match id with
  | some tag => names.current ⟨tag, name⟩
  | none => name

def Occurrence.renamed (names : Names) (o : Occurrence) : Occurrence :=
  ⟨o.tag, names.current o⟩

def Declaration.renamed (names : Names) (d : Declaration) : Declaration :=
  { d with name := names.currentOf d.identifier d.name }

namespace Item

variable (names : Names)

mutual

def renamed : Item → Item
  | .declare kind h name id => .declare kind h (names.currentOf id name) id
  | .refer o => .refer (o.renamed names)
  | .scope kind block dynamic items => .scope kind block dynamic (renamedItems items)
termination_by structural i => i

def renamedItems : List Item → List Item
  | [] => []
  | i :: is => renamed i :: renamedItems is
termination_by structural is => is

end

theorem renamed_scope (kind : ScopeKind) (block : Block) (dynamic : Bool) (is : List Item) :
    renamed names (.scope kind block dynamic is) =
      .scope kind block dynamic (is.map (renamed names)) := by
  rw [renamed]
  congr 1
  induction is with
  | nil => rfl
  | cons i is ih => rw [renamedItems, List.map_cons, ih]

theorem hoisted_renamed (i : Item) :
    hoisted (i.renamed names) = (hoisted i).map (·.renamed names) := by
  induction i with
  | declare kind hoisted name id => cases hoisted <;> rfl
  | refer o => rfl
  | scope kind block dynamic is ih =>
    rw [renamed_scope, hoisted_scope, hoisted_scope]
    split
    · rfl
    · rw [List.flatMap_map, List.map_flatMap]
      exact List.flatMap_congr ih

theorem declared_renamed (receives : Bool) (i : Item) :
    declared receives (i.renamed names) = (declared receives i).map (·.renamed names) := by
  cases i with
  | declare kind hoisted name id => cases hoisted <;> cases receives <;> rfl
  | refer o => cases receives <;> rfl
  | scope kind block dynamic is =>
    cases receives with
    | true => exact hoisted_renamed names (.scope kind block dynamic is)
    | false => rfl

theorem mentions_renamed (i : Item) :
    (i.renamed names).mentions = i.mentions.map fun m => (m.1, names.currentOf m.1 m.2) := by
  induction i with
  | declare kind hoisted name id => rfl
  | refer o => rfl
  | scope kind block dynamic is ih =>
    rw [renamed_scope, mentions_scope, mentions_scope, List.flatMap_map, List.map_flatMap]
    exact List.flatMap_congr ih

theorem occurrences_renamed (i : Item) :
    (i.renamed names).occurrences = i.occurrences.map (·.renamed names) := by
  rw [occurrences, mentions_renamed, List.filterMap_map, occurrences, List.map_filterMap]
  refine List.filterMap_congr fun m _ => ?_
  obtain ⟨id, name⟩ := m
  cases id <;> rfl

end Item

end Legible
