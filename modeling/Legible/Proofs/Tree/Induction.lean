import Legible.Tree

namespace Legible

namespace Tree

@[elab_as_elim, induction_eliminator]
theorem induction {motive : Tree → Prop}
    (scalar : ∀ a, motive (.scalar a))
    (list : ∀ ts, (∀ t ∈ ts, motive t) → motive (.list ts))
    (object : ∀ tag fs, (∀ f ∈ fs, motive f.2) → motive (.object tag fs)) (t : Tree) : motive t :=
  match t with
  | .scalar a => scalar a
  | .list ts => list ts fun t _ => induction scalar list object t
  | .object tag fs => object tag fs fun f _ => induction scalar list object f.2
termination_by sizeOf t
decreasing_by
  · rename_i h
    have := List.sizeOf_lt_of_mem h
    simp only [Tree.list.sizeOf_spec]
    omega
  · rename_i h
    have := List.sizeOf_lt_of_mem h
    have : sizeOf f.2 < sizeOf f := by cases f; simp only [Prod.mk.sizeOf_spec]; omega
    simp only [Tree.object.sizeOf_spec]
    omega

mutual

def distinct : Tree → Bool
  | .scalar _ => true
  | .list ts => distinctItems ts
  | .object _ fs => decide (fs.map (·.1)).Nodup && distinctFields fs
termination_by structural t => t

def distinctItems : List Tree → Bool
  | [] => true
  | t :: ts => t.distinct && distinctItems ts
termination_by structural ts => ts

def distinctFields : List (String × Tree) → Bool
  | [] => true
  | (_, v) :: fs => v.distinct && distinctFields fs
termination_by structural fs => fs

end

theorem distinctItems_iff {ts : List Tree} : distinctItems ts = true ↔ ∀ t ∈ ts, t.distinct := by
  induction ts with
  | nil => simp [distinctItems]
  | cons t ts ih => simp [distinctItems, ih]

theorem distinctFields_iff {fs : Fields} : distinctFields fs = true ↔ ∀ f ∈ fs, f.2.distinct := by
  induction fs with
  | nil => simp [distinctFields]
  | cons f fs ih => simp [distinctFields, ih]

theorem distinct_list {ts : List Tree} : (list ts).distinct = true ↔ ∀ t ∈ ts, t.distinct := by
  rw [distinct, distinctItems_iff]

theorem distinct_object {tag : Nat} {fs : Fields} :
    (object tag fs).distinct = true ↔ (fs.map (·.1)).Nodup ∧ ∀ f ∈ fs, f.2.distinct := by
  rw [distinct, Bool.and_eq_true, decide_eq_true_iff, distinctFields_iff]

end Tree

section

variable {κ α : Type} [BEq κ] [LawfulBEq κ] {l : List (κ × α)} {k : κ} {a : α}

theorem mem_of_lookup_eq (h : l.lookup k = some a) : (k, a) ∈ l := by
  obtain ⟨l₁, l₂, rfl, -⟩ := List.lookup_eq_some_iff.mp h
  simp

theorem lookup_eq_of_mem (hd : (l.map (·.1)).Nodup) (h : (k, a) ∈ l) : l.lookup k = some a := by
  obtain ⟨l₁, l₂, rfl⟩ := List.append_of_mem h
  refine List.lookup_eq_some_iff.mpr ⟨l₁, l₂, rfl, fun f hf => ?_⟩
  simp only [List.map_append, List.map_cons, List.nodup_append, List.mem_map, List.mem_cons] at hd
  have hne := hd.2.2 f.1 ⟨f, hf, rfl⟩ k (Or.inl rfl)
  simpa using hne.symm

end

namespace Fields

variable {fs : Fields} {k : String} {v : Tree}

theorem mem_of_lookup (h : fs.lookup k = some v) : (k, v) ∈ fs :=
  mem_of_lookup_eq h

theorem lookup_of_mem (hd : (fs.map (·.1)).Nodup) (h : (k, v) ∈ fs) : fs.lookup k = some v :=
  lookup_eq_of_mem hd h

end Fields

namespace Tree

@[simp]
theorem get_object (tag : Nat) (fs : Fields) (k : String) :
    (object tag fs).get k = (fs.lookup k).getD null := rfl

theorem get_induction {motive : Tree → Prop} {tag : Nat} {fs : Fields} (k : String)
    (hn : motive null) (hf : ∀ f ∈ fs, motive f.2) : motive ((object tag fs).get k) := by
  rw [get_object]
  cases h : fs.lookup k with
  | none => exact hn
  | some v => exact hf _ (Fields.mem_of_lookup h)

theorem distinct_get {t : Tree} (h : t.distinct = true) (k : String) :
    (t.get k).distinct = true := by
  cases t with
  | scalar a => rfl
  | list ts => rfl
  | object tag fs =>
    exact get_induction (motive := fun t => t.distinct = true) k rfl (distinct_object.mp h).2

end Tree

theorem Fields.nodup_set {fs : Fields} (h : (fs.map (·.1)).Nodup) (key : String) (v : Tree) :
    ((Fields.set key v fs).map (·.1)).Nodup := by
  have hnames : (Fields.set key v fs).map (·.1) =
      if key ∈ fs.map (·.1) then fs.map (·.1) else fs.map (·.1) ++ [key] := by
    clear h
    induction fs with
    | nil => rfl
    | cons f fs ih =>
      obtain ⟨k, w⟩ := f
      by_cases hk : k = key
      · simp [Fields.set, hk]
      · simp only [Fields.set, hk, if_false, List.map_cons, ih, List.mem_cons, Ne.symm hk, false_or]
        split <;> rfl
  rw [hnames]
  split
  · exact h
  · rename_i hk
    rw [List.nodup_append]
    refine ⟨h, by simp, fun a ha b hb he => hk ?_⟩
    rwa [← List.mem_singleton.mp hb, ← he]

namespace Tree

theorem distinct_set {t : Tree} (h : t.distinct = true) {v : Tree} (hv : v.distinct = true)
    (key : String) : (t.set key v).distinct = true := by
  cases t with
  | scalar a => rfl
  | list ts => exact h
  | object tag fs =>
    rw [distinct_object] at h
    refine distinct_object.mpr ⟨Fields.nodup_set h.1 key v, ?_⟩
    replace h := h.2
    induction fs with
    | nil => simpa [Fields.set] using hv
    | cons f fs ih =>
      obtain ⟨k, w⟩ := f
      rw [List.forall_mem_cons] at h
      rw [Fields.set]
      split
      · exact List.forall_mem_cons.mpr ⟨hv, h.2⟩
      · exact List.forall_mem_cons.mpr ⟨h.1, ih h.2⟩

end Tree

end Legible
