import Legible.Proofs.Tree.Children
import Mathlib.Data.List.Forall2

namespace Legible

def Sure {σ α : Type} (Inv : σ → Prop) (x : StateT σ Option α) (P : α → Prop) : Prop :=
  ∀ s, Inv s → ∃ a s', x s = some (a, s') ∧ P a ∧ Inv s'

theorem bind_of_eq_some {σ α β : Type} {x : StateT σ Option α} {s s' : σ} {a : α}
    (h : x s = some (a, s')) (f : α → StateT σ Option β) : (x >>= f) s = f a s' := by
  change (x s).bind _ = _
  rw [h]
  rfl

namespace Sure

variable {σ α β : Type} {Inv : σ → Prop} {P Q : α → Prop}

theorem pure {a : α} (h : P a) : Sure Inv (pure a) P :=
  fun s hs => ⟨a, s, rfl, h, hs⟩

theorem bind {x : StateT σ Option α} {f : α → StateT σ Option β} {P' : β → Prop}
    (hx : Sure Inv x P) (hf : ∀ a, P a → Sure Inv (f a) P') : Sure Inv (x >>= f) P' := by
  intro s hs
  obtain ⟨a, s₁, he, ha, hs₁⟩ := hx s hs
  obtain ⟨b, s₂, he₂, hb, hs₂⟩ := hf a ha s₁ hs₁
  exact ⟨b, s₂, (bind_of_eq_some he f).trans he₂, hb, hs₂⟩

theorem imp {x : StateT σ Option α} (hx : Sure Inv x P) (h : ∀ a, P a → Q a) : Sure Inv x Q := by
  intro s hs
  obtain ⟨a, s', he, ha, hs'⟩ := hx s hs
  exact ⟨a, s', he, h a ha, hs'⟩

theorem replaceItems {R : Tree → Tree → Prop} {f : List Tree → Tree → StateT σ Option Tree}
    {ts : List Tree} (h : ∀ t ∈ ts, ∀ all, Sure Inv (f all t) (R t)) (done : List Tree) :
    Sure Inv (Legible.replaceItems f done ts) fun us => ∃ vs, us = done ++ vs ∧ List.Forall₂ R ts vs := by
  induction ts generalizing done with
  | nil => exact pure ⟨[], (List.append_nil done).symm, .nil⟩
  | cons t ts ih =>
    rw [List.forall_mem_cons] at h
    refine (h.1 _).bind fun u hu => (ih h.2 (done ++ [u])).imp ?_
    rintro us ⟨vs, rfl, hvs⟩
    exact ⟨u :: vs, by simp, .cons hu hvs⟩

end Sure

theorem exists_of_forall₂ {α β : Type} {R : α → β → Prop} {as : List α} {bs : List β}
    (h : List.Forall₂ R as bs) {b : β} (hb : b ∈ bs) : ∃ a ∈ as, R a b := by
  induction h with
  | nil => cases hb
  | @cons a b' as bs hab _ ih =>
    rcases List.mem_cons.mp hb with rfl | hb
    · exact ⟨a, List.mem_cons_self, hab⟩
    · obtain ⟨a', ha', hr⟩ := ih hb
      exact ⟨a', List.mem_cons_of_mem _ ha', hr⟩

namespace Tree

/-! ### One field set -/

theorem field?_set {t : Tree} (h : t.isNode = true) (key : String) (v : Tree) :
    (t.set key v).field? key = some v := by
  obtain ⟨tag, fs, rfl⟩ := eq_object_of_isNode h
  exact Fields.lookup_set key v fs

theorem field?_set_of_ne {key other : String} (h : other ≠ key) (t v : Tree) :
    (t.set key v).field? other = t.field? other := by
  cases t with
  | scalar a => rfl
  | list ts => rfl
  | object tag fs => exact Fields.lookup_set_of_ne h v fs

theorem get_set {t : Tree} (h : t.isNode = true) (key : String) (v : Tree) :
    (t.set key v).get key = v := by
  rw [get, field?_set h, Option.getD_some]

theorem get_set_of_ne {key other : String} (h : other ≠ key) (t v : Tree) :
    (t.set key v).get other = t.get other := by
  rw [get, field?_set_of_ne h, get]

theorem kind?_set {t v : Tree} (h : t.isNode = true) {key : String} (ht : (t.get key).text? = none)
    (hv : v.text? = none) : (t.set key v).kind? = t.kind? := by
  by_cases hk : "type" = key
  · rw [kind?, kind?, hk, get_set h, hv, ht]
  · rw [kind?, kind?, get_set_of_ne hk]

theorem tag_set (t : Tree) (key : String) (v : Tree) : (t.set key v).tag = t.tag := by
  cases t <;> rfl

theorem names_set {t : Tree} {key : String} (h : key ∈ t.fields.map (·.1)) (v : Tree) :
    (t.set key v).fields.map (·.1) = t.fields.map (·.1) := by
  cases t with
  | scalar a => rfl
  | list ts => rfl
  | object tag fs =>
    simp only [set, fields] at h ⊢
    induction fs with
    | nil => cases h
    | cons f fs ih =>
      obtain ⟨k, w⟩ := f
      by_cases hk : k = key
      · simp [Fields.set, hk]
      · have hm := (List.mem_cons.mp h).resolve_left (Ne.symm hk)
        simp only [Fields.set, hk, if_false, List.map_cons, ih hm]

theorem isNode_set {t : Tree} (h : t.isNode = true) (key : String) (v : Tree) :
    (t.set key v).isNode = true := by
  by_cases hk : "type" = key
  · rw [isNode, hk, field?_set h]
    rfl
  · rw [isNode, field?_set_of_ne hk]
    exact h

theorem mem_names_of_field? {t : Tree} {key : String} {v : Tree} (h : t.field? key = some v) :
    key ∈ t.fields.map (·.1) :=
  List.mem_map_of_mem (f := (·.1)) (Fields.mem_of_lookup h)

/-! ### Walked children -/

def Held (R : Tree → Tree → Prop) (c d : Tree) : Prop :=
  if c.isNode = true then R c d else d = c

inductive Grown (R : Tree → Tree → Prop) : Tree → Tree → Prop
  | node {c d : Tree} : c.isNode = true → R c d → Grown R c d
  | list {cs ds : List Tree} : List.Forall₂ (Held R) cs ds → Grown R (.list cs) (.list ds)
  | other {c : Tree} : c.holdsNode = false → Grown R c c

theorem Grown.imp {R S : Tree → Tree → Prop} (h : ∀ c d, R c d → S c d) {c d : Tree}
    (hg : Grown R c d) : Grown S c d := by
  cases hg with
  | node hc hd => exact .node hc (h _ _ hd)
  | list hs =>
    refine .list (hs.imp fun c d hd => ?_)
    rw [Held] at hd ⊢
    split
    · exact h _ _ (by rwa [if_pos ‹_›] at hd)
    · rwa [if_neg ‹_›] at hd
  | other hc => exact .other hc

def Replaced (R : Place → Tree → Tree → Prop) (t : Tree) (key : String) (c d : Tree) : Prop :=
  ∃ p : Tree, p.kind? = t.kind? ∧ R ⟨some p, some key⟩ c d

structure Walked (R : Place → Tree → Tree → Prop) (keys : List String) (t u : Tree) : Prop where
  node : u.isNode = true
  tag : u.tag = t.tag
  names : u.fields.map (·.1) = t.fields.map (·.1)
  child : ∀ key ∈ keys, Grown (Replaced R t key) (t.get key) (u.get key)
  other : ∀ key, key ∉ keys → u.get key = t.get key

section

variable {R : Place → Tree → Tree → Prop} {keys : List String} {t u : Tree}

theorem Walked.start (h : t.isNode = true) : Walked R [] t t :=
  ⟨h, rfl, rfl, fun _ hk => absurd hk List.not_mem_nil, fun _ _ => rfl⟩

theorem Walked.congr {keys' : List String} (h : Walked R keys t u)
    (hk : ∀ {key}, key ∈ keys ↔ key ∈ keys') : Walked R keys' t u :=
  ⟨h.node, h.tag, h.names, fun key hm => h.child key (hk.mpr hm),
    fun key hm => h.other key fun hk' => hm (hk.mp hk')⟩

theorem distinct_of_mem_heldNodes {v c : Tree} (hd : v.distinct = true) (hc : c ∈ v.heldNodes) :
    c.distinct = true := by
  cases v with
  | scalar a => cases hc
  | list cs => exact distinct_list.mp hd c (mem_heldNodes_of_list.mp hc).1
  | object tag fs =>
    rw [heldNodes] at hc
    split at hc
    · rwa [List.mem_singleton.mp hc]
    · cases hc

theorem distinct_of_mem_children {c : Tree} (hd : t.distinct = true) (hc : c ∈ t.children) :
    c.distinct = true := by
  obtain ⟨key, -, hc⟩ := mem_children.mp hc
  cases t with
  | scalar a => cases hc
  | list ts => cases hc
  | object tag fs => exact distinct_of_mem_heldNodes (distinct_get hd key) hc

theorem holdsNode_of_isNode {c : Tree} (h : c.isNode = true) : c.holdsNode = true := by
  obtain ⟨tag, fs, rfl⟩ := eq_object_of_isNode h
  exact h

theorem text?_of_isNode {c : Tree} (h : c.isNode = true) : c.text? = none := by
  obtain ⟨tag, fs, rfl⟩ := eq_object_of_isNode h
  rfl

theorem get_of_mem {t : Tree} (hd : t.distinct = true) {f : String × Tree} (hf : f ∈ t.fields) :
    t.get f.1 = f.2 := by
  cases t with
  | scalar a => cases hf
  | list ts => cases hf
  | object tag fs =>
    rw [get_object, Fields.lookup_of_mem (distinct_object.mp hd).1 hf]
    rfl

theorem childKeys_eq {t : Tree} (hd : t.distinct = true) : t.childKeys =
    match t.kind?.bind (List.lookup · childTable) with
    | some keys => keys
    | none => (t.fields.map (·.1)).filter fun k => (t.get k).holdsNode := by
  have hk : t.kind? = (t.fields.lookup "type").bind Tree.text? := by
    rw [kind?, get, field?]
    cases t.fields.lookup "type" <;> rfl
  rw [hk, childKeys, Fields.childKeys]
  cases ((t.fields.lookup "type").bind Tree.text?).bind (List.lookup · childTable) with
  | some keys => rfl
  | none =>
    simp only
    rw [List.filter_map]
    exact congrArg _ (List.filter_congr fun f hf => by rw [Function.comp_apply, get_of_mem hd hf])

theorem distinct_of_get {t : Tree} (hn : t.isNode = true) (hd : (t.fields.map (·.1)).Nodup)
    (h : ∀ key, (t.get key).distinct = true) : t.distinct = true := by
  obtain ⟨tag, fs, rfl⟩ := eq_object_of_isNode hn
  refine distinct_object.mpr ⟨hd, fun f hf => ?_⟩
  have hg := h f.1
  have hl : fs.lookup f.1 = some f.2 := Fields.lookup_of_mem hd hf
  rwa [get_object, hl] at hg

theorem Walked.set {done : List String} {t u v : Tree} {key : String} (h : Walked R done t u)
    (hm : key ∈ u.fields.map (·.1)) (hg : Grown (Replaced R t key) (t.get key) v) :
    Walked R (key :: done) t (u.set key v) := by
  refine ⟨isNode_set h.node key v, (tag_set u key v).trans h.tag,
    (names_set hm v).trans h.names, fun k hk => ?_, fun k hk => ?_⟩
  · by_cases hkey : k = key
    · rw [hkey, get_set h.node]
      exact hg
    · rw [get_set_of_ne hkey]
      exact h.child k ((List.mem_cons.mp hk).resolve_left hkey)
  · rw [List.mem_cons, not_or] at hk
    rw [get_set_of_ne hk.1]
    exact h.other k hk.2

theorem Walked.keep {done : List String} {t u : Tree} {key : String} (h : Walked R done t u)
    (hget : u.get key = t.get key) (hn : (t.get key).holdsNode = false) :
    Walked R (key :: done) t u := by
  refine ⟨h.node, h.tag, h.names, fun k hk => ?_, fun k hk => ?_⟩
  · rcases List.mem_cons.mp hk with rfl | hk
    · rw [hget]
      exact .other hn
    · exact h.child k hk
  · exact h.other k fun hd => hk (List.mem_cons_of_mem _ hd)

section

variable {S : Tree → Tree → Prop} (hS : ∀ c d, S c d → d.isNode = true ∧ d.distinct = true) {c d : Tree}

include hS

theorem Held.isNode (h : Held S c d) : d.isNode = c.isNode := by
  rw [Held] at h
  split at h
  · rename_i hc
    rw [hc, (hS _ _ h).1]
  · rw [h]

theorem Grown.holdsNode (h : Grown S c d) :
    d.holdsNode = c.holdsNode := by
  cases h with
  | node hc hd => rw [holdsNode_of_isNode hc, holdsNode_of_isNode (hS _ _ hd).1]
  | list h =>
    rw [Tree.holdsNode, Tree.holdsNode]
    induction h with
    | nil => rfl
    | cons hd _ ih => rw [List.any_cons, List.any_cons, hd.isNode hS, ih]
  | other _ => rfl

theorem Grown.distinct (h : Grown S c d)
    (hc : c.distinct = true) : d.distinct = true := by
  cases h with
  | node _ hd => exact (hS _ _ hd).2
  | list h =>
    rw [distinct_list] at hc ⊢
    induction h with
    | nil => exact fun _ hd => absurd hd List.not_mem_nil
    | cons hd _ ih =>
      rw [List.forall_mem_cons] at hc ⊢
      refine ⟨?_, ih hc.2⟩
      rw [Held] at hd
      split at hd
      · exact (hS _ _ hd).2
      · rw [hd]
        exact hc.1
  | other _ => exact hc

theorem Grown.text? (h : Grown S c d)
    (hc : c.text? = none) : d.text? = none := by
  cases h with
  | node _ hd => exact text?_of_isNode (hS _ _ hd).1
  | list _ => rfl
  | other _ => exact hc

theorem Grown.heldNodes (h : Grown S c d) :
    List.Forall₂ S c.heldNodes d.heldNodes := by
  cases h with
  | node hc hd =>
    rw [heldNodes_of_isNode hc, heldNodes_of_isNode (hS _ _ hd).1]
    exact .cons hd .nil
  | list h =>
    rw [Tree.heldNodes, Tree.heldNodes]
    induction h with
    | nil => exact .nil
    | @cons c d cs ds hd _ ih =>
      rw [List.filter_cons, List.filter_cons, hd.isNode hS]
      rw [Held] at hd
      split
      · rename_i hc
        rw [if_pos hc] at hd
        exact .cons hd ih
      · exact ih
  | other hc =>
    rw [heldNodes_of_not_holdsNode hc]
    exact .nil

end

variable (hR : ∀ place c d, R place c d → d.isNode = true ∧ d.distinct = true)

include hR

theorem distinct_replaced {t : Tree} {key : String} :
    ∀ c d, Replaced R t key c d → d.isNode = true ∧ d.distinct = true := by
  rintro c d ⟨p, -, h⟩
  exact hR _ c d h

theorem Walked.kind? (h : Walked R keys t u) (hd : t.distinct = true) (hk : keys ⊆ t.childKeys) :
    u.kind? = t.kind? := by
  by_cases htype : "type" ∈ keys
  · have ht := kind?_eq_none hd (hk htype)
    rw [ht]
    exact (h.child "type" htype).text? (distinct_replaced hR) ht
  · rw [Tree.kind?, h.other "type" htype, Tree.kind?]

theorem Walked.distinct (h : Walked R keys t u) (hn : t.isNode = true) (hd : t.distinct = true) :
    u.distinct = true := by
  obtain ⟨tag, fs, rfl⟩ := eq_object_of_isNode hn
  refine distinct_of_get h.node (h.names ▸ (distinct_object.mp hd).1) fun key => ?_
  by_cases hk : key ∈ keys
  · exact (h.child key hk).distinct (distinct_replaced hR) (distinct_get hd key)
  · rw [h.other key hk]
    exact distinct_get hd key

theorem Walked.holdsNode (h : Walked R keys t u) (key : String) :
    (u.get key).holdsNode = (t.get key).holdsNode := by
  by_cases hk : key ∈ keys
  · exact (h.child key hk).holdsNode (distinct_replaced hR)
  · rw [h.other key hk]

theorem Walked.childKeys (h : Walked R keys t u) (hn : t.isNode = true) (hd : t.distinct = true)
    (hk : keys ⊆ t.childKeys) : u.childKeys = t.childKeys := by
  rw [childKeys_eq (h.distinct hR hn hd), childKeys_eq hd, h.kind? hR hd hk, h.names]
  simp only [h.holdsNode hR]

end

/-! ### Steps of a walk -/

section

variable {σ : Type} (enter leave : Replacer σ)

def walkChild (fuel : Nat) (t : Tree) (key : String) (c : Tree) : StateT σ Option Tree :=
  if c.isNode then Tree.replace? enter leave fuel ⟨some t, some key⟩ c else pure c

def walkField (fuel : Nat) (t : Tree) (key : String) : StateT σ Option Tree :=
  match t.field? key with
  | some (.list cs) => do
    return t.set key (.list (← replaceItems (fun cs => walkChild enter leave fuel (t.set key (.list cs)) key)
      [] cs))
  | some c => do if c.isNode then return t.set key (← walkChild enter leave fuel t key c) else return t
  | none => pure t

theorem replace?_succ (fuel : Nat) (place : Place) (t : Tree) :
    Tree.replace? enter leave (fuel + 1) place t = enter.run t place >>= fun u =>
      (if u.isNode then u.childKeys.foldlM (walkField enter leave fuel) u else pure u) >>=
        fun v => leave.run v place := by
  refine bind_congr fun u => ?_
  split <;> rfl

variable {enter leave} {Inv : σ → Prop} {R : Place → Tree → Tree → Prop}
  (hR : ∀ place c d, R place c d → d.isNode = true ∧ d.distinct = true)

include hR

theorem Walked.sure_walkField {fuel : Nat} {done : List String} {t u : Tree} {key : String}
    (hd : t.distinct = true) (hk : key ∉ done) (hkeys : key :: done ⊆ t.childKeys)
    (h : Walked R done t u)
    (hc : ∀ p : Tree, p.kind? = t.kind? → ∀ c ∈ t.childrenAt key,
      Sure Inv (Tree.replace? enter leave fuel ⟨some p, some key⟩ c) (R ⟨some p, some key⟩ c)) :
    Sure Inv (walkField enter leave fuel u key) (Walked R (key :: done) t) := by
  have hkind : u.kind? = t.kind? := h.kind? hR hd fun k hm => hkeys (List.mem_cons_of_mem _ hm)
  have hget : u.get key = t.get key := h.other key hk
  have hchild : ∀ p : Tree, p.kind? = t.kind? → ∀ c ∈ t.childrenAt key,
      Sure Inv (walkChild enter leave fuel p key c) (Replaced R t key c) := by
    intro p hp c hm
    rw [walkChild, if_pos (isNode_of_mem_heldNodes hm)]
    exact (hc p hp c hm).imp fun d hd => ⟨p, hp, hd⟩
  rw [Tree.walkField]
  split
  · rename_i cs hcs
    have hcs' : t.get key = .list cs := by rw [← hget, get, hcs]; rfl
    have hparent : ∀ all, (u.set key (.list all)).kind? = t.kind? := by
      intro all
      rw [← hkind]
      exact kind?_set h.node (by rw [hget, hcs']; rfl) rfl
    have hheld : ∀ c ∈ cs, ∀ all, Sure Inv (walkChild enter leave fuel (u.set key (.list all)) key c)
        (Held (Replaced R t key) c) := by
      intro c hm all
      by_cases hn : c.isNode = true
      · refine (hchild _ (hparent all) c ?_).imp fun d hd => by rwa [Held, if_pos hn]
        rw [childrenAt, hcs']
        exact mem_heldNodes_of_list.mpr ⟨hm, hn⟩
      · rw [walkChild, if_neg hn]
        exact .pure (by rw [Held, if_neg hn])
    refine (Sure.replaceItems hheld []).bind ?_
    rintro _ ⟨ds, rfl, hds⟩
    refine .pure (h.set (mem_names_of_field? hcs) ?_)
    rw [hcs']
    exact .list hds
  · rename_i c hcs hlist
    have hc' : t.get key = c := by rw [← hget, get, hlist]; rfl
    split
    · rename_i hn
      have hm : c ∈ t.childrenAt key := by
        rw [childrenAt, hc']
        exact self_mem_heldNodes hn
      refine (hchild u hkind c hm).bind fun d hd => .pure (h.set (mem_names_of_field? hlist) ?_)
      rw [hc']
      exact .node hn hd
    · rename_i hn
      refine .pure (h.keep hget ?_)
      rw [hc']
      cases c with
      | scalar a => rfl
      | list cs => exact absurd rfl (hcs cs)
      | object tag fs => exact Bool.of_not_eq_true hn
  · rename_i hnone
    refine .pure (h.keep hget ?_)
    rw [← hget, get, hnone]
    rfl

theorem Walked.sure_fields {fuel : Nat} {t u : Tree} (hd : t.distinct = true)
    (hc : ∀ p : Tree, p.kind? = t.kind? → ∀ key ∈ t.childKeys, ∀ c ∈ t.childrenAt key,
      Sure Inv (Tree.replace? enter leave fuel ⟨some p, some key⟩ c) (R ⟨some p, some key⟩ c))
    {done rest : List String} (hn : (rest ++ done).Nodup) (hkeys : rest ++ done ⊆ t.childKeys)
    (h : Walked R done t u) :
    Sure Inv (rest.foldlM (walkField enter leave fuel) u) (Walked R (rest.reverse ++ done) t) := by
  induction rest generalizing done u with
  | nil => exact .pure h
  | cons key rest ih =>
    rw [List.cons_append, List.nodup_cons] at hn
    rw [List.foldlM_cons, List.reverse_cons, List.append_assoc]
    have hperm : (rest ++ ([key] ++ done)).Perm (key :: (rest ++ done)) := List.perm_middle
    refine Sure.bind (h.sure_walkField hR hd ?_ ?_ fun p hp => hc p hp key ?_) fun v hv => ?_
    · exact fun hm => hn.1 (List.mem_append_right _ hm)
    · intro k hm
      rcases List.mem_cons.mp hm with rfl | hm
      · exact hkeys List.mem_cons_self
      · exact hkeys (List.mem_cons_of_mem _ (List.mem_append_right _ hm))
    · exact hkeys List.mem_cons_self
    · exact ih (hperm.nodup_iff.mpr (List.nodup_cons.mpr hn)) (fun k hm => hkeys (hperm.subset hm)) hv

theorem replace?_sure (μ : Tree → Nat) (Pre : Place → Tree → Prop)
    (henter : ∀ t place s, t.isNode = true → t.distinct = true → Pre place t → Inv s →
      ((enter t place s).1.getD t).isNode = true ∧ ((enter t place s).1.getD t).distinct = true ∧
        (∀ c ∈ ((enter t place s).1.getD t).children, μ c < μ t) ∧
        (∀ p : Tree, p.kind? = ((enter t place s).1.getD t).kind? →
          ∀ key ∈ ((enter t place s).1.getD t).childKeys,
            ∀ c ∈ ((enter t place s).1.getD t).childrenAt key, Pre ⟨some p, some key⟩ c) ∧
        Inv (enter t place s).2)
    (hleave : ∀ t place s, t.isNode = true → t.distinct = true → Pre place t → Inv s →
      ∀ v, Walked R ((enter t place s).1.getD t).childKeys ((enter t place s).1.getD t) v →
        ∀ s', Inv s' → R place t ((leave v place s').1.getD v) ∧ Inv (leave v place s').2)
    {fuel : Nat} {t : Tree} (hfuel : μ t < fuel) (hn : t.isNode = true) (hd : t.distinct = true)
    {place : Place} (hp : Pre place t) :
    Sure Inv (Tree.replace? enter leave fuel place t) (R place t) := by
  induction fuel generalizing t place with
  | zero => exact absurd hfuel (Nat.not_lt_zero _)
  | succ fuel ih =>
    intro s hs
    obtain ⟨hun, hud, hlt, hpre, hs₁⟩ := henter t place s hn hd hp hs
    have hleave := hleave t place s hn hd hp hs
    generalize hu : (enter t place s).1.getD t = u at hun hud hlt hpre hleave
    have hkeys : (u.childKeys.reverse ++ []).Perm u.childKeys := by
      rw [List.append_nil]
      exact List.reverse_perm _
    have hnodup : (u.childKeys ++ []).Nodup := by
      rw [List.append_nil]
      obtain ⟨tag, fs, rfl⟩ := eq_object_of_isNode hun
      exact Fields.nodup_childKeys (distinct_object.mp hud).1
    have hfields : Sure Inv (u.childKeys.foldlM (walkField enter leave fuel) u)
        (Walked R u.childKeys u) := by
      refine ((Walked.start hun).sure_fields hR hud (fun p hp key hk c hc => ?_) hnodup ?_).imp
        fun v hv => hv.congr hkeys.mem_iff
      · have hm : c ∈ u.children := mem_children.mpr ⟨key, hk, hc⟩
        have hcd : c.distinct = true := distinct_of_mem_children hud hm
        have := hlt c hm
        exact ih (by omega) (isNode_of_mem_heldNodes hc) hcd (hpre p hp key hk c hc)
      · rw [List.append_nil]
        exact List.Subset.refl _
    have hrest : Sure Inv (u.childKeys.foldlM (walkField enter leave fuel) u >>=
        fun v => leave.run v place) (R place t) := by
      refine hfields.bind fun v hv s' hs' => ?_
      obtain ⟨hr, hs''⟩ := hleave v hv s' hs'
      exact ⟨_, _, rfl, hr, hs''⟩
    obtain ⟨w, s', he, hw⟩ := hrest _ hs₁
    refine ⟨w, s', ?_, hw⟩
    have hrun : enter.run t place s = some (u, (enter t place s).2) := by rw [Replacer.run, hu]
    rw [← he, replace?_succ, bind_of_eq_some hrun, if_pos hun]

end

/-! ### Walks that keep less of the state -/

def Projects {σ τ α : Type} (π : σ → τ) (x : StateT σ Option α) (y : StateT τ Option α) : Prop :=
  ∀ s, y (π s) = (x s).map fun r => (r.1, π r.2)

namespace Projects

variable {σ τ α β : Type} {π : σ → τ}

theorem pure (a : α) : Projects π (Pure.pure a) (Pure.pure a) :=
  fun _ => rfl

theorem bind {x : StateT σ Option α} {y : StateT τ Option α} {f : α → StateT σ Option β}
    {g : α → StateT τ Option β} (h : Projects π x y) (hf : ∀ a, Projects π (f a) (g a)) :
    Projects π (x >>= f) (y >>= g) := by
  intro s
  change (y (π s)).bind _ = Option.map _ ((x s).bind _)
  rw [h s]
  cases x s with
  | none => rfl
  | some r => exact hf r.1 r.2

theorem replaceItems {f : List Tree → Tree → StateT σ Option Tree}
    {g : List Tree → Tree → StateT τ Option Tree} (h : ∀ all t, Projects π (f all t) (g all t))
    (done ts : List Tree) :
    Projects π (Legible.replaceItems f done ts) (Legible.replaceItems g done ts) := by
  induction ts generalizing done with
  | nil => exact pure done
  | cons t ts ih => exact (h _ t).bind fun u => ih (done ++ [u])

theorem foldlM {f : β → α → StateT σ Option β} {g : β → α → StateT τ Option β}
    (h : ∀ b a, Projects π (f b a) (g b a)) (l : List α) (b : β) :
    Projects π (l.foldlM f b) (l.foldlM g b) := by
  induction l generalizing b with
  | nil => exact pure b
  | cons a l ih =>
    rw [List.foldlM_cons, List.foldlM_cons]
    exact (h b a).bind ih

end Projects

theorem replace?_projects {σ τ : Type} {π : σ → τ} {enter leave : Replacer σ}
    {enter' leave' : Replacer τ}
    (henter : ∀ t place s, enter' t place (π s) = ((enter t place s).1, π (enter t place s).2))
    (hleave : ∀ t place s, leave' t place (π s) = ((leave t place s).1, π (leave t place s).2))
    (fuel : Nat) (place : Place) (t : Tree) :
    Projects π (replace? enter leave fuel place t) (replace? enter' leave' fuel place t) := by
  induction fuel generalizing place t with
  | zero => exact fun _ => rfl
  | succ fuel ih =>
    have hrun : ∀ {f : Replacer σ} {g : Replacer τ},
        (∀ t place s, g t place (π s) = ((f t place s).1, π (f t place s).2)) →
        ∀ t, Projects π (f.run t place) (g.run t place) := by
      intro f g h t s
      rw [Replacer.run, Replacer.run, h]
      rfl
    have hchild : ∀ u key c, Projects π (walkChild enter leave fuel u key c)
        (walkChild enter' leave' fuel u key c) := by
      intro u key c
      rw [walkChild, walkChild]
      split
      · exact ih _ c
      · exact .pure c
    have hfield : ∀ u key, Projects π (walkField enter leave fuel u key)
        (walkField enter' leave' fuel u key) := by
      intro u key
      rw [walkField, walkField]
      split
      · exact (Projects.replaceItems (fun all => hchild (u.set key (.list all)) key) [] _).bind
          fun ds => .pure _
      · split
        · exact (hchild u key _).bind fun d => .pure _
        · exact .pure u
      · exact .pure u
    rw [replace?_succ, replace?_succ]
    refine (hrun henter t).bind fun u => Projects.bind ?_ fun v => hrun hleave v
    split
    · exact Projects.foldlM hfield _ u
    · exact .pure u

/-! ### Walks that change nothing -/

theorem eq_of_get {t u : Tree} (ht : t.isNode = true) (hd : t.distinct = true)
    (hu : u.isNode = true) (htag : u.tag = t.tag)
    (hnames : u.fields.map (·.1) = t.fields.map (·.1)) (hget : ∀ key, u.get key = t.get key) :
    u = t := by
  obtain ⟨m, fs, rfl⟩ := eq_object_of_isNode ht
  obtain ⟨n, gs, rfl⟩ := eq_object_of_isNode hu
  obtain rfl : n = m := htag
  have hn : (fs.map (·.1)).Nodup := (distinct_object.mp hd).1
  congr 1
  simp only [fields] at hnames
  refine List.ext_getElem ?_ fun i hi hj => ?_
  · simpa using congrArg List.length hnames
  · have hkey : gs[i].1 = fs[i].1 := by
      have := congrArg (·[i]?) hnames
      simpa [hi, hj] using this
    refine Prod.ext hkey ?_
    have hf : fs.lookup fs[i].1 = some fs[i].2 := Fields.lookup_of_mem hn (List.getElem_mem hj)
    have hg : gs.lookup gs[i].1 = some gs[i].2 :=
      Fields.lookup_of_mem (hnames ▸ hn) (List.getElem_mem hi)
    have hsame := hget fs[i].1
    rwa [get_object, get_object, hf, ← hkey, hg] at hsame

theorem eq_of_walked {R : Place → Tree → Tree → Prop} (hR : ∀ place c d, R place c d → d = c)
    {keys : List String} {t u : Tree} (ht : t.isNode = true) (hd : t.distinct = true)
    (h : Walked R keys t u) : u = t := by
  refine eq_of_get ht hd h.node h.tag h.names fun key => ?_
  by_cases hk : key ∈ keys
  · have hg := h.child key hk
    generalize t.get key = c at hg ⊢
    generalize u.get key = d at hg ⊢
    cases hg with
    | node _ hcd =>
      obtain ⟨p, -, hcd⟩ := hcd
      exact hR _ _ _ hcd
    | other _ => rfl
    | list hs =>
      congr 1
      induction hs with
      | nil => rfl
      | cons hcd _ ih =>
        have heq : ∀ {c d}, Held (Replaced R t key) c d → d = c := by
          intro c d hcd
          rw [Held] at hcd
          split at hcd
          · obtain ⟨p, -, hcd⟩ := hcd
            exact hR _ _ _ hcd
          · exact hcd
        rw [heq hcd, ih]
  · exact h.other key hk

end Tree

end Legible
