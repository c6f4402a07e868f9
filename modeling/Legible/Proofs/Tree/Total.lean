import Legible.Proofs.Tree.Walk

namespace Legible

def Gives {σ α : Type} (x : StateT σ Option α) (y : StateM σ α) : Prop :=
  ∀ s, x s = some (y s)

namespace Gives

variable {σ α β : Type}

theorem pure (a : α) : Gives (σ := σ) (Pure.pure a) (Pure.pure a) :=
  fun _ => rfl

theorem bind {x : StateT σ Option α} {y : StateM σ α} {f : α → StateT σ Option β}
    {g : α → StateM σ β} (h : Gives x y) (hf : ∀ a, Gives (f a) (g a)) :
    Gives (x >>= f) (y >>= g) :=
  fun s => (bind_of_eq_some (h s) f).trans (hf _ _)

end Gives

namespace Tree

variable {σ : Type}

theorem set_self {t v : Tree} {key : String} (h : t.field? key = some v) : t.set key v = t := by
  cases t with
  | scalar a => rfl
  | list ts => rfl
  | object tag fs =>
    rw [set]
    congr 1
    rw [field?, fields] at h
    induction fs with
    | nil => cases h
    | cons f fs ih =>
      obtain ⟨k, w⟩ := f
      rw [Fields.set]
      split
      · rename_i hk
        rw [hk, List.lookup_cons_self] at h
        rw [Option.some.inj h, hk]
      · rename_i hk
        rw [List.lookup_cons, beq_false_of_ne (Ne.symm hk)] at h
        rw [ih h]

def grownItems (done : List Tree) : (ts : List Tree) →
    (∀ c ∈ ts, c.isNode = true → List Tree → StateM σ Tree) → StateM σ (List Tree)
  | [], _ => pure done
  | t :: ts, walk =>
    (if hn : t.isNode = true then walk t List.mem_cons_self hn (done ++ t :: ts) else pure t) >>=
      fun u => grownItems (done ++ [u]) ts fun c hc => walk c (List.mem_cons_of_mem t hc)

def grownContents : (v : Tree) → (∀ c ∈ v.heldNodes, Tree → StateM σ Tree) → StateM σ Tree
  | .list cs, walk => do
    return .list (← grownItems [] cs fun c hc hn all =>
      walk c (mem_heldNodes_of_list.mpr ⟨hc, hn⟩) (.list all))
  | .object tag fs, walk =>
    if hn : (Tree.object tag fs).isNode = true then
      walk (.object tag fs) (by rw [heldNodes_of_isNode hn]; exact List.mem_singleton_self _)
        (.object tag fs)
    else pure (.object tag fs)
  | .scalar a, _ => pure (.scalar a)

def grownField (t : Tree) (walk : ∀ c ∈ t.children, Place → StateM σ Tree) (u : Tree)
    (key : {key // key ∈ t.childKeys}) : StateM σ Tree := do
  let v ← grownContents (t.get key.1) fun c hc all =>
    walk c (mem_children.mpr ⟨key.1, key.2, hc⟩) ⟨some (u.set key.1 all), some key.1⟩
  return if (t.field? key.1).isSome then u.set key.1 v else u

def grown (t : Tree) (walk : ∀ c ∈ t.children, Place → StateM σ Tree) : StateM σ Tree :=
  if t.isNode then t.childKeys.attach.foldlM (grownField t walk) t else pure t

variable {enter leave : Replacer σ} {fuel : Nat} {t : Tree}
  {walk : ∀ c ∈ t.children, Place → StateM σ Tree}

theorem gives_grownItems {f : List Tree → Tree → StateT σ Option Tree} {ts : List Tree}
    {walk : ∀ c ∈ ts, c.isNode = true → List Tree → StateM σ Tree}
    (h : ∀ c hc hn all, Gives (f all c) (walk c hc hn all))
    (hother : ∀ c, c.isNode = false → ∀ all, f all c = pure c) (done : List Tree) :
    Gives (replaceItems f done ts) (grownItems done ts walk) := by
  induction ts generalizing done with
  | nil => exact .pure done
  | cons t ts ih =>
    refine Gives.bind ?_ fun u => ih (fun c hc => h c (List.mem_cons_of_mem t hc)) (done ++ [u])
    split
    · exact h t _ _ _
    · rename_i hn
      rw [hother t (Bool.of_not_eq_true hn)]
      exact .pure t

theorem gives_contents {o : Option Tree} {w : ∀ c ∈ (o.getD null).heldNodes, Tree → StateM σ Tree}
    {u : Tree} {key : String} (hu : u.field? key = o)
    (h : ∀ c hc all, Gives (walkChild enter leave fuel (u.set key all) key c) (w c hc all)) :
    Gives (walkField enter leave fuel u key) do
      let v ← grownContents (o.getD null) w
      return if o.isSome then u.set key v else u := by
  rw [walkField, hu]
  cases o with
  | none => exact .pure u
  | some c =>
    cases c with
    | scalar a =>
      change Gives _ (pure (u.set key (.scalar a)))
      rw [set_self hu]
      exact .pure u
    | list cs =>
      refine Gives.bind (y := grownItems [] cs _) (gives_grownItems (fun c hc hn all => ?_)
        (fun c hn all => ?_) []) fun ds => .pure _
      · exact h c _ _
      · rw [walkChild, hn]
        rfl
    | object tag fs =>
      change Gives (if _ then _ else _) ((if hn : _ then w (.object tag fs) _ _ else _) >>= _)
      split
      · rename_i hn
        refine Gives.bind ?_ fun d => .pure _
        have hself := h _ (self_mem_heldNodes hn) (.object tag fs)
        rwa [set_self hu] at hself
      · change Gives _ (pure (u.set key (.object tag fs)))
        rw [set_self hu]
        exact .pure u

theorem gives_grownField
    (h : ∀ c hc place, Gives (replace? enter leave fuel place c) (walk c hc place)) {u : Tree}
    {key : {key // key ∈ t.childKeys}} (hu : u.field? key.1 = t.field? key.1) :
    Gives (walkField enter leave fuel u key.1) (grownField t walk u key) := by
  refine gives_contents hu fun c hc all => ?_
  rw [walkChild, if_pos (isNode_of_mem_heldNodes hc)]
  exact h c _ _

theorem field?_grownField {u : Tree} {key : {key // key ∈ t.childKeys}} {other : String}
    (hne : other ≠ key.1) (s : σ) :
    ((grownField t walk u key) s).1.field? other = u.field? other := by
  change (if _ then u.set key.1 _ else u).field? other = _
  split
  · exact field?_set_of_ne hne ..
  · rfl

theorem gives_grown (hd : t.distinct = true)
    (h : ∀ c hc place, Gives (replace? enter leave fuel place c) (walk c hc place)) :
    Gives (if t.isNode then t.childKeys.foldlM (walkField enter leave fuel) t else pure t)
      (grown t walk) := by
  rw [grown]
  split
  · rename_i hn
    have hkeys : t.childKeys.Nodup := by
      obtain ⟨tag, fs, rfl⟩ := eq_object_of_isNode hn
      exact Fields.nodup_childKeys (distinct_object.mp hd).1
    -- No field has changed before its turn.
    have hfold : ∀ (keys : List {key // key ∈ t.childKeys}) (u : Tree),
        (keys.map Subtype.val).Nodup → (∀ key ∈ keys, u.field? key.1 = t.field? key.1) →
        Gives ((keys.map Subtype.val).foldlM (walkField enter leave fuel) u)
          (keys.foldlM (grownField t walk) u) := by
      intro keys
      induction keys with
      | nil => exact fun u _ _ => .pure u
      | cons key keys ih =>
        intro u hnd hu
        rw [List.map_cons, List.nodup_cons] at hnd
        rw [List.forall_mem_cons] at hu
        rw [List.map_cons, List.foldlM_cons, List.foldlM_cons]
        intro s
        refine (bind_of_eq_some (gives_grownField h hu.1 s) _).trans (ih _ hnd.2 (fun k hk => ?_) _)
        have hne : k.1 ≠ key.1 := ne_of_mem_of_not_mem (List.mem_map_of_mem hk) hnd.1
        exact (field?_grownField hne s).trans (hu.2 k hk)
    have hall := hfold t.childKeys.attach t
    rw [List.attach_map_subtype_val] at hall
    exact hall hkeys fun _ _ => rfl
  · exact .pure t

end Tree

end Legible
