import Legible.Pattern.Match
import Legible.Proofs.Tree.Same

/-!
What it is to be an instance of a pattern, said without matching: lists are cut into segments in
any way, and one assignment of trees to names serves the whole pattern.
-/

namespace Legible

abbrev Assignment := String → Tree

namespace Pattern

@[elab_as_elim, induction_eliminator]
theorem induction {motive : Pattern → Prop}
    (hole : ∀ h, motive (.hole h))
    (scalar : ∀ a, motive (.scalar a))
    (list : ∀ ps, (∀ p ∈ ps, motive p) → motive (.list ps))
    (object : ∀ fs, (∀ f ∈ fs, motive f.2) → motive (.object fs)) (p : Pattern) : motive p :=
  match p with
  | .hole h => hole h
  | .scalar a => scalar a
  | .list ps => list ps fun p _ => induction hole scalar list object p
  | .object fs => object fs fun f _ => induction hole scalar list object f.2
termination_by sizeOf p
decreasing_by
  · rename_i h
    have := List.sizeOf_lt_of_mem h
    simp only [Pattern.list.sizeOf_spec]
    omega
  · rename_i h
    have := List.sizeOf_lt_of_mem h
    have : sizeOf f.2 < sizeOf f := by cases f; simp only [Prod.mk.sizeOf_spec]; omega
    simp only [Pattern.object.sizeOf_spec]
    omega

mutual

/-- Every field of the pattern counts but the ignored ones. One that the tree lacks reads as null,
and those that only the tree has do not matter. -/
inductive Instance (s : Assignment) : Pattern → Tree → Prop
  | hole {h t} : h.accepts t = true → (s h.name).same t = true → Instance s (.hole h) t
  | scalar {a t} : (Tree.scalar a).same t = true → Instance s (.scalar a) t
  | list {ps ts} : InstanceItems s ps ts → Instance s (.list ps) (.list ts)
  | object {fs tag gs} :
      (∀ f ∈ fs, isIgnored f.1 = false → Instance s f.2 ((Tree.object tag gs).get f.1)) →
      Instance s (.object fs) (.object tag gs)

inductive InstanceItems (s : Assignment) : List Pattern → List Tree → Prop
  | nil : InstanceItems s [] []
  | one {p ps t ts} : p.run? = none → Instance s p t → InstanceItems s ps ts →
      InstanceItems s (p :: ps) (t :: ts)
  | run {p h ps run ts} : p.run? = some h → (∀ t ∈ run, h.accepts t = true) →
      (run = [] → h.optional = true) → (s h.name).same (.list run) = true →
      InstanceItems s ps ts → InstanceItems s (p :: ps) (run ++ ts)

end

mutual

def names : Pattern → List String
  | .hole h => [h.name]
  | .scalar _ => []
  | .list ps => namesItems ps
  | .object fs => namesFields fs
termination_by structural p => p

def namesItems : List Pattern → List String
  | [] => []
  | p :: ps => p.names ++ namesItems ps
termination_by structural ps => ps

def namesFields : List (String × Pattern) → List String
  | [] => []
  | (k, p) :: fs => (if isIgnored k then [] else p.names) ++ namesFields fs
termination_by structural fs => fs

end

mutual

def singleRun : Pattern → Bool
  | .hole _ => true
  | .scalar _ => true
  | .list ps => decide ((ps.filterMap run?).length ≤ 1) && singleRunItems ps
  | .object fs => singleRunFields fs
termination_by structural p => p

def singleRunItems : List Pattern → Bool
  | [] => true
  | p :: ps => p.singleRun && singleRunItems ps
termination_by structural ps => ps

def singleRunFields : List (String × Pattern) → Bool
  | [] => true
  | (_, p) :: fs => p.singleRun && singleRunFields fs
termination_by structural fs => fs

end

theorem singleRunItems_iff {ps : List Pattern} :
    singleRunItems ps = true ↔ ∀ p ∈ ps, p.singleRun = true := by
  induction ps with
  | nil => simp [singleRunItems]
  | cons p ps ih => simp [singleRunItems, ih]

theorem singleRunFields_iff {fs : List (String × Pattern)} :
    singleRunFields fs = true ↔ ∀ f ∈ fs, f.2.singleRun = true := by
  induction fs with
  | nil => simp [singleRunFields]
  | cons f fs ih => simp [singleRunFields, ih]

theorem singleRun_list {ps : List Pattern} :
    (list ps).singleRun = true ↔
      (ps.filterMap run?).length ≤ 1 ∧ ∀ p ∈ ps, p.singleRun = true := by
  rw [singleRun, Bool.and_eq_true, decide_eq_true_iff, singleRunItems_iff]

theorem eq_hole_of_run? {p : Pattern} {h : Placeholder} (hp : p.run? = some h) : p = .hole h := by
  cases p with
  | hole g =>
    simp only [run?] at hp
    split at hp
    · exact congrArg hole (Option.some.inj hp)
    · cases hp
  | scalar _ => cases hp
  | list _ => cases hp
  | object _ => cases hp

theorem minimumLength_eq {ps : List Pattern} (h : ps.filterMap run? = []) :
    minimumLength ps = ps.length := by
  induction ps with
  | nil => rfl
  | cons p ps ih =>
    cases hp : p.run? with
    | none =>
      rw [List.filterMap_cons_none hp] at h
      simp only [minimumLength, hp, ih h, List.length_cons]
      omega
    | some r => simp [List.filterMap_cons_some hp] at h

theorem InstanceItems.length_eq {s : Assignment} {ps : List Pattern} {ts : List Tree}
    (hp : ps.filterMap run? = []) (h : InstanceItems s ps ts) : ts.length = ps.length := by
  induction ps generalizing ts with
  | nil => cases h; rfl
  | cons p ps ih =>
    cases h with
    | one hn _ hs =>
      rw [List.filterMap_cons_none hn] at hp
      rw [List.length_cons, List.length_cons, ih hp hs]
    | run hr _ _ _ _ => simp [List.filterMap_cons_some hr] at hp

end Pattern

end Legible
