import Legible.Pattern.Compile
import Legible.Proofs.Pattern.Fill
import Legible.Proofs.Tree.Objects

namespace Legible

def Compile.Gives {α : Type} (m : Compile α) (P : α → Prop) : Prop :=
  ∀ known r known', m.run known = .ok (r, known') → P r

namespace Compile

variable {α β : Type} {P : α → Prop} {Q : β → Prop}

theorem gives_pure {a : α} (h : P a) : Gives (pure a) P := by
  intro known r known' hr
  cases hr
  exact h

theorem Gives.bind {m : Compile α} {f : α → Compile β} (hm : Gives m P)
    (hf : ∀ a, P a → Gives (f a) Q) : Gives (m >>= f) Q := by
  intro known r known' hr
  rw [StateT.run_bind] at hr
  cases hrun : m.run known with
  | error e =>
    rw [hrun] at hr
    cases hr
  | ok s =>
    rw [hrun] at hr
    exact hf s.1 (hm known s.1 s.2 hrun) s.2 r known' hr

theorem gives_true (m : Compile α) : Gives m fun _ => True :=
  fun _ _ _ _ => trivial

theorem gives_mapM {f : α → Compile β} {l : List α} (h : ∀ a ∈ l, Gives (f a) Q) :
    Gives (l.mapM f) fun bs => ∀ b ∈ bs, Q b := by
  induction l with
  | nil =>
    rw [List.mapM_nil]
    exact gives_pure (by simp)
  | cons a l ih =>
    rw [List.forall_mem_cons] at h
    rw [List.mapM_cons]
    refine h.1.bind fun b hb => ?_
    refine (ih h.2).bind fun bs hbs => ?_
    exact gives_pure (by simpa using ⟨hb, hbs⟩)

end Compile

namespace Pattern

open Compile

theorem ofItems_eq (ts : List Tree) : ofItems ts = ts.map ofTree := by
  induction ts with
  | nil => rfl
  | cons t ts ih => rw [ofItems, List.map_cons, ih]

theorem ofFields_eq (fs : Fields) : ofFields fs = fs.map fun f => (f.1, ofTree f.2) := by
  induction fs with
  | nil => rfl
  | cons f fs ih => rw [ofFields, List.map_cons, ih]

theorem ground_ofTree (t : Tree) : (ofTree t).ground = true := by
  induction t with
  | scalar a => rfl
  | list ts ih =>
    rw [ofTree, ground, groundItems_iff, ofItems_eq, List.forall_mem_map]
    exact ih
  | object tag fs ih =>
    rw [ofTree, ground, groundFields_iff, ofFields_eq, List.forall_mem_map]
    exact ih

theorem wellFormed_ofTree {t : Tree} (ht : t.distinct = true) : (ofTree t).wellFormed = true := by
  induction t with
  | scalar a => rfl
  | list ts ih =>
    rw [Tree.distinct_list] at ht
    rw [ofTree, wellFormed, wellFormedItems_iff, ofItems_eq, List.forall_mem_map]
    intro t hm
    exact ih t hm (ht t hm)
  | object tag fs ih =>
    rw [Tree.distinct_object] at ht
    rw [ofTree, wellFormed_object, ofFields_eq]
    constructor
    · rw [List.map_map]
      exact ht.1
    · rw [List.forall_mem_map]
      intro f hf
      exact ⟨ih f hf (ht.2 f hf), fun _ => ground_ofTree f.2⟩

theorem wellFormed_ofText {p : Pattern} (h : p.wellFormed = true) (key : String) :
    (ofText key p).wellFormed = true := by
  unfold ofText
  split
  · split
    · rfl
    · exact h
  · exact h

theorem ofText_ignored {key : String} (hk : isIgnored key = true) (p : Pattern) :
    ofText key p = p := by
  unfold ofText
  split
  · simp [hk]
  · rfl

def PlainRaw (t : Tree) : Prop :=
  ∀ o ∈ t.objects, ∀ f ∈ o.2, isIgnored f.1 = true → f.2.holdsNode = false

theorem isIgnored_of_mem_childKeys {fs : Fields}
    (hraw : ∀ f ∈ fs, isIgnored f.1 = true → f.2.holdsNode = false) {key : String}
    (hk : key ∈ fs.childKeys) : isIgnored key = false := by
  have htable : ∀ e ∈ childTable, ∀ k ∈ e.2, isIgnored k = false := by decide
  unfold Fields.childKeys at hk
  split at hk
  · rename_i keys h
    obtain ⟨kind, -, hl⟩ := Option.bind_eq_some_iff.mp h
    obtain ⟨l, r, he, -⟩ := List.lookup_eq_some_iff.mp hl
    exact htable (kind, keys) (by simp [he]) key hk
  · obtain ⟨f, hf, rfl⟩ := List.mem_map.mp hk
    obtain ⟨hf, hn⟩ := List.mem_filter.mp hf
    by_contra hi
    rw [hraw f hf (Bool.of_not_eq_false hi)] at hn
    cases hn

section

variable {fs : Fields}

theorem gives_ofNode (hd : (fs.map (·.1)).Nodup) (hfs : ∀ f ∈ fs, f.2.distinct = true)
    {children : List (String × Pattern)}
    (hc : ∀ c ∈ children, isIgnored c.1 = false ∧ c.2.wellFormed = true) :
    Gives (ofNode fs children) fun p => p.wellFormed = true := by
  have hlookup : ∀ f ∈ fs, ((children.lookup f.1).getD (ofTree f.2)).wellFormed = true ∧
      (isIgnored f.1 = true → ((children.lookup f.1).getD (ofTree f.2)).ground = true) := by
    intro f hf
    cases hl : children.lookup f.1 with
    | none => exact ⟨wellFormed_ofTree (hfs f hf), fun _ => ground_ofTree f.2⟩
    | some p =>
      obtain ⟨l, r, he, -⟩ := List.lookup_eq_some_iff.mp hl
      have hp := hc (f.1, p) (by simp [he])
      exact ⟨hp.2, fun hi => absurd (hi.symm.trans hp.1) (by decide)⟩
  have hplain : (object (fs.map fun f =>
      (f.1, ofText f.1 ((children.lookup f.1).getD (ofTree f.2))))).wellFormed = true := by
    rw [wellFormed_object]
    constructor
    · rw [List.map_map]
      exact hd
    · rw [List.forall_mem_map]
      intro f hf
      refine ⟨wellFormed_ofText (hlookup f hf).1 f.1, fun hi => ?_⟩
      rw [ofText_ignored hi]
      exact (hlookup f hf).2 hi
  unfold ofNode
  split
  · refine (gives_true _).bind fun h _ => ?_
    cases h with
    | none => exact gives_pure hplain
    | some h => exact gives_pure rfl
  · split
    · exact gives_pure rfl
    · exact gives_pure hplain
  · split
    · exact gives_pure rfl
    · exact gives_pure hplain
  · exact gives_pure hplain

end

theorem gives_ofSyntaxItems {ts : List Tree} (hd : ∀ t ∈ ts, t.distinct = true)
    (h : ∀ t ∈ ts, Gives (ofSyntax t) fun p => p.wellFormed = true) :
    Gives (ofSyntaxItems ts) fun ps => ∀ p ∈ ps, p.wellFormed = true := by
  induction ts with
  | nil => exact gives_pure (by simp)
  | cons t ts ih =>
    rw [List.forall_mem_cons] at hd h
    have hrest : ∀ p : Pattern, p.wellFormed = true →
        Gives (do return p :: (← ofSyntaxItems ts)) fun ps => ∀ p ∈ ps, p.wellFormed = true := by
      intro p hp
      refine (ih hd.2 h.2).bind fun ps hps => ?_
      exact gives_pure (by simpa using ⟨hp, hps⟩)
    unfold ofSyntaxItems
    simp only
    split
    · exact hrest _ (wellFormed_ofTree hd.1)
    · exact h.1.bind hrest

theorem gives_ofField {fs : Fields} (hd : ∀ f ∈ fs, f.2.distinct = true)
    (h : ∀ f ∈ fs, Gives (ofSyntax f.2) fun p => p.wellFormed = true)
    (hitems : ∀ f ∈ fs, ∀ ts, f.2 = .list ts →
      ∀ t ∈ ts, Gives (ofSyntax t) fun p => p.wellFormed = true) (key : String) :
    Gives (ofField key fs) fun p => p.wellFormed = true := by
  induction fs with
  | nil => exact gives_pure rfl
  | cons f fs ih =>
    obtain ⟨k, v⟩ := f
    rw [List.forall_mem_cons] at hd h hitems
    unfold ofField
    split
    · split
      · rename_i ts
        refine (gives_ofSyntaxItems (Tree.distinct_list.mp hd.1) (hitems.1 ts rfl)).bind fun ps hps => ?_
        exact gives_pure (by rwa [wellFormed, wellFormedItems_iff])
      · exact h.1
    · exact ih hd.2 h.2 hitems.2

theorem gives_ofSyntax {t : Tree} (ht : t.distinct = true) (hraw : PlainRaw t) :
    Gives (ofSyntax t) (fun p => p.wellFormed = true) ∧
      ∀ ts, t = .list ts → ∀ u ∈ ts, Gives (ofSyntax u) fun p => p.wellFormed = true := by
  induction t with
  | scalar a => exact ⟨gives_pure (wellFormed_ofTree ht), nofun⟩
  | list ts ih =>
    refine ⟨gives_pure (wellFormed_ofTree ht), ?_⟩
    intro us he u hu
    cases he
    have hitems := Tree.distinct_list.mp ht u hu
    have hplain : PlainRaw u := fun o ho =>
      hraw o (by rw [Tree.objects_list]; exact List.mem_flatMap.mpr ⟨u, hu, ho⟩)
    exact (ih u hu hitems hplain).1
  | object tag fs ih =>
    refine ⟨?_, nofun⟩
    obtain ⟨hd, hfs⟩ := Tree.distinct_object.mp ht
    rw [PlainRaw, Tree.objects_object, List.forall_mem_cons] at hraw
    have hplain : ∀ f ∈ fs, PlainRaw f.2 := fun f hf o ho =>
      hraw.2 o (List.mem_flatMap.mpr ⟨f, hf, ho⟩)
    have hfield := gives_ofField hfs (fun f hf => (ih f hf (hfs f hf) (hplain f hf)).1)
      fun f hf => (ih f hf (hfs f hf) (hplain f hf)).2
    unfold ofSyntax
    split
    · have hchild : ∀ key ∈ Fields.childKeys fs, Gives (do return (key, ← ofField key fs))
          fun c => isIgnored c.1 = false ∧ c.2.wellFormed = true := by
        intro key hk
        refine (hfield key).bind fun p hp => ?_
        exact gives_pure ⟨isIgnored_of_mem_childKeys hraw.1 hk, hp⟩
      exact (gives_mapM hchild).bind fun cs hcs => gives_ofNode hd hfs hcs
    · exact gives_pure (wellFormed_ofTree ht)

theorem wellFormed_unwrap (source : String) {p : Pattern} (h : p.wellFormed = true) :
    (unwrap source p).wellFormed = true := by
  have hfield : ∀ {p q : Pattern} {key : String}, p.wellFormed = true → p.field? key = some q →
      q.wellFormed = true := by
    intro p q key hp hq
    cases p with
    | object fs =>
      obtain ⟨l, r, he, -⟩ := List.lookup_eq_some_iff.mp hq
      exact ((wellFormed_object.mp hp).2 (key, q) (by simp [he])).1
    | _ => cases hq
  unfold unwrap
  extract_lets q
  have hq : q.wellFormed = true := by
    simp only [q]
    split
    · rename_i hitem
      have hlist := hfield h hitem
      rw [wellFormed, wellFormedItems_iff] at hlist
      exact hlist _ (List.mem_singleton_self _)
    · exact h
  split
  · rename_i hitem
    exact hfield hq hitem
  · exact hq

theorem wellFormed_ofScript {source : String} {t : Tree} {p : Pattern} (ht : t.distinct = true)
    (hraw : PlainRaw t) (h : ofScript source t = .ok p) : p.wellFormed = true := by
  unfold ofScript at h
  cases hrun : (ofSyntax t).run [] with
  | error e =>
    rw [hrun] at h
    cases h
  | ok r =>
    rw [hrun] at h
    cases h
    exact wellFormed_unwrap source ((gives_ofSyntax ht hraw).1 [] r.1 r.2 hrun)

end Pattern

end Legible
