import Legible.Proofs.Tree.Induction
import Legible.Tree.Same
import Mathlib.Data.List.Forall2

namespace Legible

theorem Scalar.same_refl (a : Scalar) : a.same a = true := by
  cases a <;> simp [Scalar.same, Number.same]

theorem Scalar.same_symm {a b : Scalar} (h : a.same b = true) : b.same a = true := by
  cases a <;> cases b <;> simp_all [Scalar.same, Number.same]

theorem Scalar.same_trans {a b c : Scalar} (h : a.same b = true) (h' : b.same c = true) :
    a.same c = true := by
  cases a <;> cases b <;> cases c <;> simp_all [Scalar.same, Number.same]

theorem Fields.coveredBy_iff {gs fs : Fields} :
    Fields.coveredBy gs fs = true ↔
      ∀ g ∈ gs, isIgnored g.1 = false → fs.lookup g.1 = none → g.2.isNull = true := by
  simp only [Fields.coveredBy, List.all_eq_true, Bool.or_eq_true]
  refine forall₂_congr fun g _ => ?_
  cases isIgnored g.1 <;> cases fs.lookup g.1 <;> simp

namespace Tree

theorem eq_null_of_isNull {t : Tree} (h : t.isNull = true) : t = null := by
  cases t with
  | scalar a => cases a <;> simp_all [isNull]
  | list ts => simp [isNull] at h
  | object tag fs => simp [isNull] at h

theorem same_null {t : Tree} (h : t.same null = true) : t = null := by
  cases t with
  | scalar a => cases a <;> simp_all [same, Scalar.same]
  | list ts => simp [same] at h
  | object tag fs => simp [same] at h

theorem null_same {t : Tree} (h : null.same t = true) : t = null := by
  cases t with
  | scalar a => cases a <;> simp_all [same, Scalar.same]
  | list ts => simp [same] at h
  | object tag fs => simp [same] at h

theorem sameItems_iff {xs ys : List Tree} :
    sameItems xs ys = true ↔ List.Forall₂ (fun x y => x.same y = true) xs ys := by
  induction xs generalizing ys with
  | nil => cases ys <;> simp [sameItems]
  | cons x xs ih => cases ys <;> simp [sameItems, ih]

theorem sameFields_iff {fs gs : Fields} :
    sameFields fs gs = true ↔
      ∀ f ∈ fs, isIgnored f.1 = false → f.2.same ((gs.lookup f.1).getD null) = true := by
  induction fs with
  | nil => simp [sameFields]
  | cons f fs ih =>
    rw [sameFields, Bool.and_eq_true, ih, List.forall_mem_cons, Bool.or_eq_true]
    refine and_congr_left' ?_
    cases isIgnored f.1 <;> simp

theorem same_list {xs ys : List Tree} :
    (list xs).same (list ys) = true ↔ List.Forall₂ (fun x y => x.same y = true) xs ys := by
  rw [same, sameItems_iff]

theorem same_object {m n : Nat} {fs gs : Fields} :
    (object m fs).same (object n gs) = true ↔
      (∀ f ∈ fs, isIgnored f.1 = false → f.2.same ((gs.lookup f.1).getD null) = true) ∧
        ∀ g ∈ gs, isIgnored g.1 = false → fs.lookup g.1 = none → g.2 = null := by
  rw [same, Bool.and_eq_true, sameFields_iff, Fields.coveredBy_iff]
  refine and_congr_right' (forall₂_congr fun g _ => imp_congr_right fun _ => imp_congr_right fun _ => ?_)
  exact ⟨eq_null_of_isNull, fun h => h ▸ rfl⟩

theorem exists_scalar_of_same {a : Scalar} {u : Tree} (h : (scalar a).same u = true) :
    ∃ b, u = scalar b ∧ a.same b = true := by
  cases u with
  | scalar b => exact ⟨b, rfl, h⟩
  | list us => simp [same] at h
  | object n gs => simp [same] at h

theorem exists_list_of_same {ts : List Tree} {u : Tree} (h : (list ts).same u = true) :
    ∃ us, u = list us ∧ List.Forall₂ (fun x y => x.same y = true) ts us := by
  cases u with
  | scalar b => simp [same] at h
  | list us => exact ⟨us, rfl, same_list.mp h⟩
  | object n gs => simp [same] at h

theorem exists_object_of_same {m : Nat} {fs : Fields} {u : Tree}
    (h : (object m fs).same u = true) : ∃ n gs, u = object n gs := by
  cases u with
  | scalar b => simp [same] at h
  | list us => simp [same] at h
  | object n gs => exact ⟨n, gs, rfl⟩

theorem same_refl {t : Tree} (h : t.distinct = true) : t.same t = true := by
  induction t with
  | scalar a => exact Scalar.same_refl a
  | list ts ih =>
    exact same_list.mpr (List.forall₂_same.mpr fun t ht => ih t ht (distinct_list.mp h t ht))
  | object tag fs ih =>
    obtain ⟨hd, hf⟩ := distinct_object.mp h
    refine same_object.mpr ⟨fun f hm _ => ?_, fun g hm _ hn => ?_⟩
    · rw [Fields.lookup_of_mem hd hm]
      exact ih f hm (hf f hm)
    · rw [Fields.lookup_of_mem hd hm] at hn
      cases hn

theorem same_symm {t u : Tree} (hu : u.distinct = true) (h : t.same u = true) :
    u.same t = true := by
  induction t generalizing u with
  | scalar a =>
    obtain ⟨b, rfl, hab⟩ := exists_scalar_of_same h
    exact Scalar.same_symm hab
  | list ts ih =>
    obtain ⟨us, rfl, hs⟩ := exists_list_of_same h
    have hd := distinct_list.mp hu
    clear hu h
    refine same_list.mpr ?_
    induction hs with
    | nil => exact .nil
    | cons hxy _ ihs =>
      rw [List.forall_mem_cons] at ih hd
      exact .cons (ih.1 hd.1 hxy) (ihs ih.2 hd.2)
  | object m fs ih =>
    obtain ⟨n, gs, rfl⟩ := exists_object_of_same h
    obtain ⟨hd, hg⟩ := distinct_object.mp hu
    obtain ⟨hf, hc⟩ := same_object.mp h
    refine same_object.mpr ⟨fun g hm hi => ?_, fun f hm hi hn => ?_⟩
    · cases hl : fs.lookup g.1 with
      | none => rw [hc g hm hi hl]; rfl
      | some v =>
        have hv := hf _ (Fields.mem_of_lookup hl) hi
        rw [Fields.lookup_of_mem hd hm] at hv
        exact ih _ (Fields.mem_of_lookup hl) (hg g hm) hv
    · have hv := hf f hm hi
      rw [hn] at hv
      exact same_null hv

theorem same_trans {t u v : Tree} (hv : v.distinct = true) (h : t.same u = true)
    (h' : u.same v = true) : t.same v = true := by
  induction t generalizing u v with
  | scalar a =>
    obtain ⟨b, rfl, hab⟩ := exists_scalar_of_same h
    obtain ⟨c, rfl, hbc⟩ := exists_scalar_of_same h'
    exact Scalar.same_trans hab hbc
  | list ts ih =>
    obtain ⟨us, rfl, hs⟩ := exists_list_of_same h
    obtain ⟨vs, rfl, hs'⟩ := exists_list_of_same h'
    have hd := distinct_list.mp hv
    clear hv h h'
    refine same_list.mpr ?_
    induction hs generalizing vs with
    | nil => exact hs'
    | cons hxy _ ihs =>
      cases hs' with
      | cons hyz hys =>
        rw [List.forall_mem_cons] at ih hd
        exact .cons (ih.1 hd.1 hxy hyz) (ihs ih.2 _ hys hd.2)
  | object m fs ih =>
    obtain ⟨n, gs, rfl⟩ := exists_object_of_same h
    obtain ⟨o, hs, rfl⟩ := exists_object_of_same h'
    obtain ⟨hfg, hgf⟩ := same_object.mp h
    obtain ⟨hgh, hhg⟩ := same_object.mp h'
    refine same_object.mpr ⟨fun f hm hi => ?_, fun x hm hi hn => ?_⟩
    · have hf := hfg f hm hi
      cases hl : gs.lookup f.1 with
      | some w =>
        rw [hl] at hf
        exact ih f hm (distinct_get hv f.1) hf (hgh _ (Fields.mem_of_lookup hl) hi)
      | none =>
        rw [hl] at hf
        rw [same_null hf]
        cases hx : hs.lookup f.1 with
        | none => rfl
        | some x =>
          obtain rfl : x = null := hhg _ (Fields.mem_of_lookup hx) hi hl
          rfl
    · cases hl : gs.lookup x.1 with
      | none => exact hhg x hm hi hl
      | some w =>
        have hw := Fields.mem_of_lookup hl
        have hx := hgh _ hw hi
        rw [Fields.lookup_of_mem (distinct_object.mp hv).1 hm, hgf _ hw hi hn] at hx
        exact null_same hx

end Tree

end Legible
