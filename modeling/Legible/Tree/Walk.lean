import Legible.Tree.Shape

namespace Legible

inductive Phase where
  | enter
  | leave
deriving DecidableEq, Inhabited

structure Visit where
  phase : Phase
  node : Tree
  parent : Option Tree

mutual

def Tree.visits (parent : Option Tree) : Tree → List Visit
  | .object tag fs =>
    ⟨.enter, .object tag fs, parent⟩ ::
      ((Fields.childKeys fs).flatMap fun key => Tree.fieldVisits (.object tag fs) key fs) ++
      [⟨.leave, .object tag fs, parent⟩]
  | _ => []
termination_by structural t => t

def Tree.fieldVisits (parent : Tree) (key : String) : List (String × Tree) → List Visit
  | [] => []
  | (k, v) :: fs =>
    if k = key then
      match v with
      | .list ts => Tree.itemVisits parent ts
      | v => if v.isNode then v.visits (some parent) else []
    else Tree.fieldVisits parent key fs
termination_by structural fs => fs

def Tree.itemVisits (parent : Tree) : List Tree → List Visit
  | [] => []
  | t :: ts => (if t.isNode then t.visits (some parent) else []) ++ Tree.itemVisits parent ts
termination_by structural ts => ts

end

def Tree.traverse (t : Tree) : List Visit :=
  t.visits none

def Tree.nodes (t : Tree) : List Tree :=
  t.traverse.filterMap fun v => if v.phase = .enter then some v.node else none

structure Place where
  parent : Option Tree
  key : Option String

abbrev Replacer (σ : Type) := Tree → Place → σ → Option Tree × σ

def Replacer.run {σ : Type} (f : Replacer σ) (t : Tree) (place : Place) : StateT σ Option Tree :=
  fun s => some ((f t place s).1.getD t, (f t place s).2)

/-- Replaces the items of a list in order. What becomes of one may depend on the list as it is then;
the items in `done` have been replaced already. -/
def replaceItems {m : Type → Type} [Monad m] (f : List Tree → Tree → m Tree) (done : List Tree) :
    List Tree → m (List Tree)
  | [] => pure done
  | t :: ts => do
    let u ← f (done ++ t :: ts) t
    replaceItems f (done ++ [u]) ts

/-- Walks a tree, replacing nodes on the way. `enter` comes before the children, which are those of
its replacement, and `leave` after them. There is no result if the walk goes deeper than `fuel`. -/
def Tree.replace? {σ : Type} (enter leave : Replacer σ) :
    Nat → Place → Tree → StateT σ Option Tree
  | 0, _, _ => fun _ => none
  | fuel + 1, place, t => do
    let child (t : Tree) (key : String) (c : Tree) : StateT σ Option Tree :=
      if c.isNode then Tree.replace? enter leave fuel ⟨some t, some key⟩ c else pure c
    let inField (t : Tree) (key : String) : StateT σ Option Tree :=
      match t.field? key with
      | some (.list cs) => do
        return t.set key (.list (← replaceItems (fun cs => child (t.set key (.list cs)) key) [] cs))
      | some c => do if c.isNode then return t.set key (← child t key c) else return t
      | none => pure t
    let t ← enter.run t place
    let t ← if t.isNode then t.childKeys.foldlM inField t else pure t
    leave.run t place

end Legible
