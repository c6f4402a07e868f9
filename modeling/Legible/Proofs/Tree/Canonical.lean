import Legible.Form
import Legible.Proofs.Tree.Same
import Mathlib.Data.List.Sort
import Mathlib.Data.String.Basic

/-!
Canonical forms of trees. Two trees are the same exactly if their canonical forms are equal, so a
subtree can be exchanged for one that is the same.
-/

namespace Legible

def Scalar.canonical : Scalar → Scalar
  | .number n => .number ⟨n.amount, false⟩
  | a => a

theorem Scalar.same_iff_canonical_eq {a b : Scalar} :
    a.same b = true ↔ a.canonical = b.canonical := by
  cases a <;> cases b <;> simp [Scalar.same, Scalar.canonical, Number.same]

def Fields.byName (fs : Fields) : Fields :=
  fs.insertionSort fun f g => f.1 ≤ g.1

namespace Tree

mutual

/-- Ignored fields and null fields of objects are left out, at any depth, and what remains stands in
the order of the names. Tags are forgotten; null items of lists stay. -/
def canonical : Tree → Tree
  | .scalar a => .scalar a.canonical
  | .list ts => .list (canonicalItems ts)
  | .object _ fs => .object 0 (Fields.byName (canonicalFields fs))
termination_by structural t => t

def canonicalItems : List Tree → List Tree
  | [] => []
  | t :: ts => t.canonical :: canonicalItems ts
termination_by structural ts => ts

def canonicalFields : List (String × Tree) → Fields
  | [] => []
  | (k, v) :: fs =>
    if isIgnored k || v.isNull then canonicalFields fs else (k, v.canonical) :: canonicalFields fs
termination_by structural fs => fs

end

theorem canonicalItems_eq (ts : List Tree) : canonicalItems ts = ts.map canonical := by
  induction ts with
  | nil => rfl
  | cons t ts ih => rw [canonicalItems, ih, List.map_cons]

theorem canonicalFields_append (fs gs : Fields) :
    canonicalFields (fs ++ gs) = canonicalFields fs ++ canonicalFields gs := by
  induction fs with
  | nil => rfl
  | cons f fs ih =>
    obtain ⟨k, v⟩ := f
    rw [List.cons_append, canonicalFields, canonicalFields, ih]
    split <;> rfl

theorem isNull_canonical (t : Tree) : t.canonical.isNull = t.isNull := by
  cases t with
  | scalar a => cases a <;> rfl
  | list ts => rfl
  | object tag fs => rfl

theorem mem_canonicalFields {fs : Fields} {g : String × Tree} : g ∈ canonicalFields fs ↔
    ∃ v, (g.1, v) ∈ fs ∧ isIgnored g.1 = false ∧ v.isNull = false ∧ g.2 = v.canonical := by
  induction fs with
  | nil => simp [canonicalFields]
  | cons f fs ih =>
    obtain ⟨k, v⟩ := f
    obtain ⟨k', w⟩ := g
    rw [canonicalFields]
    cases hk : isIgnored k <;> cases hv : v.isNull <;> grind

/-! ### Objects field by field -/

theorem isNull_eq_false {t : Tree} : t.isNull = false ↔ t ≠ null := by
  rw [← Bool.not_eq_true]
  exact not_congr ⟨eq_null_of_isNull, fun h => h ▸ rfl⟩

theorem mem_fields_iff_get {tag : Nat} {fs : Fields} (hd : (fs.map (·.1)).Nodup) {k : String}
    {v : Tree} (hv : v ≠ null) : (k, v) ∈ fs ↔ (object tag fs).get k = v := by
  rw [get_object]
  constructor
  · intro h
    rw [Fields.lookup_of_mem hd h, Option.getD_some]
  · intro h
    cases hl : fs.lookup k with
    | none =>
      rw [hl] at h
      exact absurd h.symm hv
    | some w =>
      rw [hl, Option.getD_some] at h
      exact h ▸ Fields.mem_of_lookup hl

theorem same_object_iff_get {m n : Nat} {fs gs : Fields} (hf : (fs.map (·.1)).Nodup)
    (hg : (gs.map (·.1)).Nodup) : (object m fs).same (object n gs) = true ↔
      ∀ k, isIgnored k = false → ((object m fs).get k).same ((object n gs).get k) = true := by
  rw [same_object]
  constructor
  · rintro ⟨hsame, hcovered⟩ k hi
    rw [get_object, get_object]
    cases hl : fs.lookup k with
    | some v => exact hsame (k, v) (Fields.mem_of_lookup hl) hi
    | none =>
      cases hl' : gs.lookup k with
      | none => rfl
      | some w =>
        obtain rfl : w = null := hcovered (k, w) (Fields.mem_of_lookup hl') hi hl
        rfl
  · intro h
    refine ⟨fun f hm hi => ?_, fun g hm hi hn => ?_⟩
    · have hk := h f.1 hi
      rwa [get_object, Fields.lookup_of_mem hf hm] at hk
    · have hk := h g.1 hi
      rw [get_object, get_object, hn, Fields.lookup_of_mem hg hm] at hk
      exact null_same hk

theorem canonical_eq_null {t : Tree} : t.canonical = null ↔ t = null := by
  constructor
  · intro h
    exact eq_null_of_isNull (by rw [← isNull_canonical, h]; rfl)
  · rintro rfl
    rfl

theorem mem_canonicalFields_iff_get (tag : Nat) {fs : Fields} (hd : (fs.map (·.1)).Nodup)
    {g : String × Tree} : g ∈ canonicalFields fs ↔
      isIgnored g.1 = false ∧ g.2 ≠ null ∧ ((object tag fs).get g.1).canonical = g.2 := by
  rw [mem_canonicalFields]
  constructor
  · rintro ⟨v, hm, hi, hn, hg⟩
    rw [isNull_eq_false] at hn
    rw [hg, (mem_fields_iff_get hd hn).mp hm]
    exact ⟨hi, canonical_eq_null.not.mpr hn, rfl⟩
  · rintro ⟨hi, hn, hg⟩
    have hv : (object tag fs).get g.1 ≠ null := by
      rw [← hg] at hn
      exact canonical_eq_null.not.mp hn
    exact ⟨_, (mem_fields_iff_get hd hv).mpr rfl, hi, isNull_eq_false.mpr hv, hg.symm⟩

/-! ### Canonical objects -/

theorem nodup_canonicalFields {fs : Fields} (hd : (fs.map (·.1)).Nodup) :
    ((canonicalFields fs).map (·.1)).Nodup := by
  induction fs with
  | nil => exact List.nodup_nil
  | cons f fs ih =>
    obtain ⟨k, v⟩ := f
    rw [List.map_cons, List.nodup_cons] at hd
    rw [canonicalFields]
    split
    · exact ih hd.2
    · rw [List.map_cons, List.nodup_cons]
      refine ⟨fun hk => hd.1 ?_, ih hd.2⟩
      obtain ⟨g, hg, rfl⟩ := List.mem_map.mp hk
      obtain ⟨w, hw, -⟩ := mem_canonicalFields.mp hg
      exact List.mem_map.mpr ⟨_, hw, rfl⟩

end Tree

theorem Fields.byName_eq_iff {fs gs : Fields} (hf : (fs.map (·.1)).Nodup)
    (hg : (gs.map (·.1)).Nodup) : fs.byName = gs.byName ↔ ∀ f, f ∈ fs ↔ f ∈ gs := by
  have hperm : ∀ hs : Fields, hs.byName.Perm hs := fun hs => List.perm_insertionSort _ hs
  have hsorted : ∀ hs : Fields, hs.byName.Pairwise fun f g => f.1 ≤ g.1 := by
    intro hs
    have : Std.Total fun f g : String × Tree => f.1 ≤ g.1 := ⟨fun f g => le_total f.1 g.1⟩
    have : IsTrans (String × Tree) fun f g => f.1 ≤ g.1 := ⟨fun f g h => le_trans⟩
    exact List.pairwise_insertionSort _ hs
  rw [← List.perm_ext_iff_of_nodup hf.of_map hg.of_map]
  constructor
  · intro h
    exact (hperm fs).symm.trans (h ▸ hperm gs)
  · intro h
    have hall : fs.byName.Perm gs.byName := (hperm fs).trans (h.trans (hperm gs).symm)
    refine hall.eq_of_pairwise (fun f g hfm hgm hle hge => ?_) (hsorted fs) (hsorted gs)
    have hfm' := (hperm fs).mem_iff.mp hfm
    have hgm' := h.mem_iff.mpr ((hperm gs).mem_iff.mp hgm)
    exact List.inj_on_of_nodup_map hf hfm' hgm' (le_antisymm hle hge)

namespace Tree

theorem canonical_object_eq_iff {m n : Nat} {fs gs : Fields} (hf : (fs.map (·.1)).Nodup)
    (hg : (gs.map (·.1)).Nodup) : (object m fs).canonical = (object n gs).canonical ↔
      ∀ k, isIgnored k = false →
        ((object m fs).get k).canonical = ((object n gs).get k).canonical := by
  rw [canonical, canonical, Tree.object.injEq, and_iff_right rfl,
    Fields.byName_eq_iff (nodup_canonicalFields hf) (nodup_canonicalFields hg)]
  simp only [mem_canonicalFields_iff_get m hf, mem_canonicalFields_iff_get n hg]
  constructor
  · intro h k hi
    by_cases hn : (object m fs).get k = null
    · by_cases hn' : (object n gs).get k = null
      · rw [hn, hn']
      · exact ((h (k, _)).mpr ⟨hi, canonical_eq_null.not.mpr hn', rfl⟩).2.2
    · exact ((h (k, _)).mp ⟨hi, canonical_eq_null.not.mpr hn, rfl⟩).2.2.symm
  · intro h f
    refine and_congr_right fun hi => ?_
    rw [h f.1 hi]

theorem same_iff_canonical_eq {t u : Tree} (ht : t.distinct = true) (hu : u.distinct = true) :
    t.same u = true ↔ t.canonical = u.canonical := by
  induction t generalizing u with
  | scalar a =>
    cases u with
    | scalar b => rw [same, Scalar.same_iff_canonical_eq, canonical, canonical, Tree.scalar.injEq]
    | list us => simp [same, canonical]
    | object n gs => simp [same, canonical]
  | list ts ih =>
    cases u with
    | scalar b => simp [same, canonical]
    | object n gs => simp [same, canonical]
    | list us =>
      rw [distinct_list] at ht hu
      rw [same_list, canonical, canonical, Tree.list.injEq, canonicalItems_eq, canonicalItems_eq,
        ← List.forall₂_eq_eq_eq, List.forall₂_map_left_iff, List.forall₂_map_right_iff,
        List.forall₂_iff_zip, List.forall₂_iff_zip]
      refine and_congr_right fun _ => forall₃_congr fun t u hm => ?_
      obtain ⟨htm, hum⟩ := List.of_mem_zip hm
      exact ih t htm (ht t htm) (hu u hum)
  | object m fs ih =>
    cases u with
    | scalar b => simp [same, canonical]
    | list us => simp [same, canonical]
    | object n gs =>
      have hf := distinct_object.mp ht
      rw [same_object_iff_get hf.1 (distinct_object.mp hu).1,
        canonical_object_eq_iff hf.1 (distinct_object.mp hu).1]
      refine forall₂_congr fun k _ => ?_
      have hgu := distinct_get hu k
      rw [get_object m]
      cases hl : fs.lookup k with
      | some v =>
        have hm := Fields.mem_of_lookup hl
        exact ih (k, v) hm (hf.2 _ hm) hgu
      | none =>
        -- A field that is missing reads as null.
        refine ⟨fun h => ?_, fun h => ?_⟩
        · rw [null_same h]
          rfl
        · rw [canonical_eq_null.mp (h.symm.trans (canonical_eq_null.mpr rfl))]
          rfl

/-! ### Exchanging a subtree -/

inductive Exchanged (u v : Tree) : Tree → Tree → Prop
  | here : Exchanged u v u v
  | item {ts us : List Tree} {t t' : Tree} : Exchanged u v t t' →
      Exchanged u v (.list (ts ++ t :: us)) (.list (ts ++ t' :: us))
  | field {tag : Nat} {fs gs : Fields} {k : String} {t t' : Tree} : Exchanged u v t t' →
      Exchanged u v (.object tag (fs ++ (k, t) :: gs)) (.object tag (fs ++ (k, t') :: gs))

namespace Exchanged

variable {u v t t' : Tree}

theorem distinct (h : Exchanged u v t t') (ht : t.distinct = true) :
    u.distinct = true ∧ (v.distinct = true → t'.distinct = true) := by
  induction h with
  | here => exact ⟨ht, id⟩
  | item _ ih =>
    simp only [distinct_list, List.forall_mem_append, List.forall_mem_cons] at ht ⊢
    obtain ⟨hu, hv⟩ := ih ht.2.1
    exact ⟨hu, fun h => ⟨ht.1, hv h, ht.2.2⟩⟩
  | field _ ih =>
    simp only [distinct_object, List.map_append, List.map_cons, List.forall_mem_append,
      List.forall_mem_cons] at ht ⊢
    obtain ⟨hu, hv⟩ := ih ht.2.2.1
    exact ⟨hu, fun h => ⟨ht.1, ht.2.1, hv h, ht.2.2.2⟩⟩

theorem canonical_eq (h : Exchanged u v t t') (huv : u.canonical = v.canonical) :
    t.canonical = t'.canonical := by
  induction h with
  | here => exact huv
  | item _ ih =>
    simp only [canonical, canonicalItems_eq, List.map_append, List.map_cons, ih]
  | field _ ih =>
    have hnull := congrArg isNull ih
    rw [isNull_canonical, isNull_canonical] at hnull
    simp only [canonical, canonicalFields_append, canonicalFields, hnull, ih]

end Exchanged

/-- Being the same is equality of canonical forms. So it is an equivalence, and what is built from
trees that are the same is the same. -/
theorem same_canonical_congr :
    (∀ t u : Tree, t.distinct = true → u.distinct = true →
      (t.same u = true ↔ t.canonical = u.canonical)) ∧
    Equivalence (fun t u : {t : Tree // t.distinct = true} => t.1.same u.1 = true) ∧
    ∀ u v t t' : Tree, Exchanged u v t t' → t.distinct = true → v.distinct = true →
      u.same v = true → t.same t' = true ∧
        ∀ w : Tree, w.distinct = true → t.same w = t'.same w ∧ w.same t = w.same t' := by
  refine ⟨fun t u => same_iff_canonical_eq, ⟨fun t => same_refl t.2, fun {t u} => same_symm u.2,
    fun {t u v} => same_trans v.2⟩, fun u v t t' h ht hv huv => ?_⟩
  obtain ⟨hu, ht'⟩ := h.distinct ht
  replace ht' := ht' hv
  have heq := h.canonical_eq ((same_iff_canonical_eq hu hv).mp huv)
  refine ⟨(same_iff_canonical_eq ht ht').mpr heq, fun w hw => ⟨?_, ?_⟩⟩
  · rw [Bool.eq_iff_iff, same_iff_canonical_eq ht hw, same_iff_canonical_eq ht' hw, heq]
  · rw [Bool.eq_iff_iff, same_iff_canonical_eq hw ht, same_iff_canonical_eq hw ht', heq]

theorem same_canonical_congr_spellings :
    let one : Tree := Form.literal (.number (.ofInt 1)) "1"
    let point : Tree := .object 7 [("raw", .text "1."), ("value", .number ⟨.finite 1, true⟩),
      ("regex", .null), ("type", .text "Literal")]
    let call (t : Tree) : Tree := Form.callExpression (Form.identifier "f") [.null, t]
    (one.distinct = true ∧ point.distinct = true ∧ (call one).distinct = true ∧
      Exchanged one point (call one) (call point) ∧ one.same point = true) ∧
      one.canonical = point.canonical ∧ (call one).same (call point) = true := by
  intro one point call
  have hone : one.distinct = true := by decide
  have hpoint : point.distinct = true := by decide
  have hcall : (call one).distinct = true := by decide
  have hsame : one.same point = true := by decide
  have hitem : Exchanged one point (.list ([.null] ++ one :: [])) (.list ([.null] ++ point :: [])) :=
    .item .here
  have hfield : ∀ fs, Exchanged one point (.object 0 (fs ++ ("arguments", .list [.null, one]) :: []))
      (.object 0 (fs ++ ("arguments", .list [.null, point]) :: [])) := fun _ => .field hitem
  have hex : Exchanged one point (call one) (call point) :=
    hfield [("type", .text "CallExpression"), ("callee", Form.identifier "f")]
  exact ⟨⟨hone, hpoint, hcall, hex, hsame⟩,
    (same_canonical_congr.1 one point hone hpoint).mp hsame,
    (same_canonical_congr.2.2 one point _ _ hex hcall hpoint hsame).1⟩

end Tree

end Legible
