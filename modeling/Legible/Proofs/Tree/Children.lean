import Legible.Proofs.Tree.Induction
import Legible.Tree.Walk
import Mathlib.Data.List.Basic

namespace Legible

namespace Fields

theorem nodup_childKeys {fs : Fields} (hd : (fs.map (·.1)).Nodup) : fs.childKeys.Nodup := by
  have htable : ∀ e ∈ childTable, e.2.Nodup := by decide
  rw [childKeys]
  split
  · rename_i keys h
    obtain ⟨kind, -, h⟩ := Option.bind_eq_some_iff.mp h
    obtain ⟨l, r, h, -⟩ := List.lookup_eq_some_iff.mp h
    exact htable (kind, keys) (h ▸ List.mem_append_right _ (List.mem_cons_self ..))
  · exact hd.sublist (List.filter_sublist.map _)

end Fields

namespace Tree

theorem eq_object_of_isNode {t : Tree} (h : t.isNode = true) : ∃ tag fs, t = .object tag fs := by
  cases t with
  | scalar a => cases h
  | list ts => cases h
  | object tag fs => exact ⟨tag, fs, rfl⟩

theorem kind?_eq_none {t : Tree} (hd : t.distinct = true) (h : "type" ∈ t.childKeys) :
    t.kind? = none := by
  have htable : ∀ e ∈ childTable, "type" ∉ e.2 := by decide
  rw [childKeys, Fields.childKeys] at h
  split at h
  · rename_i keys hkeys
    obtain ⟨kind, -, hkeys⟩ := Option.bind_eq_some_iff.mp hkeys
    obtain ⟨l, r, hkeys, -⟩ := List.lookup_eq_some_iff.mp hkeys
    exact absurd h (htable (kind, keys) (hkeys ▸ List.mem_append_right _ List.mem_cons_self))
  · obtain ⟨⟨k, v⟩, hv, rfl⟩ := List.mem_map.mp h
    obtain ⟨hv, hn⟩ := List.mem_filter.mp hv
    cases t with
    | scalar a => cases hv
    | list ts => cases hv
    | object tag fs =>
      rw [kind?, get_object, Fields.lookup_of_mem (distinct_object.mp hd).1 hv]
      cases v with
      | scalar a => cases hn
      | list ts => rfl
      | object tag fs => rfl

theorem childKeys_of_kind? {t : Tree} {kind : String} {keys : List String}
    (ht : t.kind? = some kind) (hk : childTable.lookup kind = some keys) : t.childKeys = keys := by
  have htype : (t.fields.lookup "type").bind Tree.text? = t.kind? := by
    rw [kind?, get, field?]
    cases t.fields.lookup "type" <;> rfl
  rw [childKeys, Fields.childKeys, htype, ht, Option.bind_some, hk]

theorem mem_childKeys_of_isKind {t : Tree} {kind key : String} {keys : List String}
    (ht : t.isKind kind = true) (hk : childTable.lookup kind = some keys) (hkey : key ∈ keys) :
    key ∈ t.childKeys := by
  rwa [childKeys_of_kind? (beq_iff_eq.mp ht) hk]

def heldNodes : Tree → List Tree
  | .scalar _ => []
  | .list cs => cs.filter isNode
  | .object tag fs => if (object tag fs).isNode then [.object tag fs] else []

def childrenAt (t : Tree) (key : String) : List Tree :=
  (t.get key).heldNodes

def children (t : Tree) : List Tree :=
  t.childKeys.flatMap t.childrenAt

theorem mem_heldNodes_of_list {cs : List Tree} {c : Tree} :
    c ∈ (list cs).heldNodes ↔ c ∈ cs ∧ c.isNode = true :=
  List.mem_filter

theorem heldNodes_of_isNode {c : Tree} (h : c.isNode = true) : c.heldNodes = [c] := by
  obtain ⟨tag, fs, rfl⟩ := eq_object_of_isNode h
  exact if_pos h

theorem self_mem_heldNodes {c : Tree} (h : c.isNode = true) : c ∈ c.heldNodes := by
  rw [heldNodes_of_isNode h]
  exact List.mem_singleton_self c

theorem heldNodes_of_not_holdsNode {c : Tree} (h : c.holdsNode = false) : c.heldNodes = [] := by
  cases c with
  | scalar a => rfl
  | list cs => exact List.filter_eq_nil_iff.mpr (by simpa [holdsNode] using h)
  | object tag fs => exact if_neg (by simpa [holdsNode] using h)

theorem isNode_of_mem_heldNodes {c d : Tree} (h : d ∈ c.heldNodes) : d.isNode = true := by
  cases c with
  | scalar a => cases h
  | list cs => exact (mem_heldNodes_of_list.mp h).2
  | object tag fs =>
    rw [heldNodes] at h
    split at h
    · rename_i hn
      rwa [List.mem_singleton.mp h]
    · cases h

theorem mem_children {t c : Tree} : c ∈ t.children ↔ ∃ key ∈ t.childKeys, c ∈ t.childrenAt key :=
  List.mem_flatMap

theorem sizeOf_lt_of_mem_childrenAt {t c : Tree} {key : String} (h : c ∈ t.childrenAt key) :
    sizeOf c < sizeOf t := by
  cases t with
  | scalar a => cases h
  | list ts => cases h
  | object tag fs =>
    rw [childrenAt, get_object] at h
    cases hl : fs.lookup key with
    | none => rw [hl] at h; cases h
    | some v =>
      have hv := List.sizeOf_lt_of_mem (Fields.mem_of_lookup hl)
      rw [hl, Option.getD_some] at h
      simp only [Prod.mk.sizeOf_spec] at hv
      simp only [object.sizeOf_spec]
      cases v with
      | scalar a => cases h
      | list cs =>
        have := List.sizeOf_lt_of_mem (mem_heldNodes_of_list.mp h).1
        simp only [list.sizeOf_spec] at hv
        omega
      | object tag' gs =>
        rw [heldNodes] at h
        split at h
        · rw [List.mem_singleton.mp h]
          omega
        · cases h

@[elab_as_elim]
theorem children_induction {motive : Tree → Prop}
    (node : ∀ t, (∀ c ∈ t.children, motive c) → motive t) (t : Tree) : motive t :=
  node t fun c _ => children_induction node c
termination_by sizeOf t
decreasing_by
  rename_i h
  obtain ⟨key, -, hc⟩ := mem_children.mp h
  exact sizeOf_lt_of_mem_childrenAt hc

inductive Reaches (place : Place) (t : Tree) : Place → Tree → Prop
  | self : Reaches place t place t
  | child {p : Place} {u : Tree} {key : String} {c : Tree} : Reaches place t p u →
      key ∈ u.childKeys → c ∈ u.childrenAt key → Reaches place t ⟨some u, some key⟩ c

theorem Reaches.trans {place p q : Place} {t u c : Tree} (h : Reaches place t p u)
    (hc : Reaches p u q c) : Reaches place t q c := by
  induction hc with
  | self => exact h
  | child _ hk hm ih => exact ih.child hk hm

theorem Reaches.cases_head {place p : Place} {t u : Tree} (h : Reaches place t p u) :
    (p = place ∧ u = t) ∨ ∃ key ∈ t.childKeys, ∃ c ∈ t.childrenAt key,
      Reaches ⟨some t, some key⟩ c p u := by
  induction h with
  | self => exact Or.inl ⟨rfl, rfl⟩
  | @child p u key c hu hk hc ih =>
    rcases ih with ⟨rfl, rfl⟩ | ⟨k, hk', d, hd, hr⟩
    · exact Or.inr ⟨key, hk, c, hc, .self⟩
    · exact Or.inr ⟨k, hk', d, hd, hr.child hk hc⟩

theorem fieldVisits_eq (tag : Nat) (fs : Fields) (parent : Tree) (key : String) :
    fieldVisits parent key fs =
      ((object tag fs).childrenAt key).flatMap (visits (some parent)) := by
  have hitems : ∀ ts, itemVisits parent ts = (ts.filter isNode).flatMap (visits (some parent)) := by
    intro ts
    induction ts with
    | nil => rfl
    | cons t ts ih =>
      rw [itemVisits, ih, List.filter_cons]
      split <;> rfl
  rw [childrenAt, get_object]
  induction fs with
  | nil => rfl
  | cons f fs ih =>
    obtain ⟨k, v⟩ := f
    by_cases hk : k = key
    · have hl : List.lookup key ((k, v) :: fs) = some v := by simp [hk]
      rw [hl, Option.getD_some]
      cases v with
      | scalar a => simp [fieldVisits, hk, isNode, field?, Tree.fields, heldNodes]
      | list ts => simpa [fieldVisits, hk, heldNodes] using hitems ts
      | object tag gs =>
        simp only [fieldVisits, hk, if_true, heldNodes]
        split <;> simp
    · have hl : List.lookup key ((k, v) :: fs) = List.lookup key fs := by
        rw [List.lookup_cons, beq_false_of_ne (Ne.symm hk)]
      rw [hl, ← ih]
      cases v <;> simp only [fieldVisits, hk, if_false]

theorem exists_reaches_of_mem_visits {p : Place} {t : Tree} {v : Visit}
    (h : v ∈ t.visits p.parent) : ∃ q, q.parent = v.parent ∧ Reaches p t q v.node := by
  induction t using children_induction generalizing p v with
  | node t ih =>
    cases t with
    | scalar a => cases h
    | list ts => cases h
    | object tag fs =>
      simp only [visits, fieldVisits_eq tag fs, List.mem_append, List.mem_cons, List.mem_flatMap,
        List.not_mem_nil, or_false] at h
      rcases h with (rfl | ⟨key, hk, c, hc, h⟩) | rfl
      · exact ⟨p, rfl, .self⟩
      · let below : Place := ⟨some (.object tag fs), some key⟩
        have h : v ∈ c.visits below.parent := h
        obtain ⟨q, hq, hr⟩ := ih c (mem_children.mpr ⟨key, hk, hc⟩) h
        exact ⟨q, hq, (Reaches.self.child hk hc).trans hr⟩
      · exact ⟨p, rfl, .self⟩

def Throughout (P : Place → Tree → Prop) (place : Place) (t : Tree) : Prop :=
  ∀ p c, Reaches place t p c → P p c

section

variable {P Q : Place → Tree → Prop} {place : Place} {t : Tree}

theorem throughout_iff : Throughout P place t ↔ P place t ∧
    ∀ key ∈ t.childKeys, ∀ c ∈ t.childrenAt key, Throughout P ⟨some t, some key⟩ c := by
  constructor
  · intro h
    refine ⟨h _ _ .self, fun key hk c hc p d hd => ?_⟩
    exact h p d ((Reaches.self.child hk hc).trans hd)
  · rintro ⟨hself, hbelow⟩ p c h
    rcases h.cases_head with ⟨rfl, rfl⟩ | ⟨key, hk, d, hd, hr⟩
    · exact hself
    · exact hbelow key hk d hd p c hr

theorem Throughout.imp (h : Throughout P place t) (hPQ : ∀ p c, P p c → Q p c) :
    Throughout Q place t :=
  fun p c hr => hPQ p c (h p c hr)

theorem Throughout.and (h : Throughout P place t) (h' : Throughout Q place t) :
    Throughout (fun p c => P p c ∧ Q p c) place t :=
  fun p c hr => ⟨h p c hr, h' p c hr⟩

theorem Throughout.move {place' : Place} (h : Throughout P place t) (ht : P place' t) :
    Throughout P place' t :=
  throughout_iff.mpr ⟨ht, (throughout_iff.mp h).2⟩

end

end Tree

end Legible
