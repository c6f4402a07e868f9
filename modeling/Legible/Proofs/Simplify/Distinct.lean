import Legible.Proofs.Simplify.Rules
import Legible.Proofs.Simplify.Weight
import Legible.Proofs.Tree.Walk

namespace Legible

namespace Pattern

section

variable {P : Tree → Prop} (hnull : P .null) (hlist : ∀ ts, P (.list ts) ↔ ∀ t ∈ ts, P t)
  (hget : ∀ t key, P t → P (t.get key))

include hnull hlist

theorem forall_capturedItems {ps : List Pattern}
    (ih : ∀ p ∈ ps, ∀ t, P t → ∀ e ∈ p.captured t, P e.2) {ts : List Tree} (h : ∀ t ∈ ts, P t) :
    ∀ e ∈ capturedItems ps ts, P e.2 := by
  induction ps generalizing ts with
  | nil => exact fun e he => absurd he List.not_mem_nil
  | cons p ps ihs =>
    rw [List.forall_mem_cons] at ih
    intro e he
    cases hp : p.run? with
    | some g =>
      obtain ⟨run, rest, hrun, hts, hdrop, -⟩ := exists_run g ts (ts.length - minimumLength ps)
      simp only [capturedItems, hp, runFrom, hrun, hdrop, List.mem_cons] at he
      rw [hts, List.forall_mem_append] at h
      rcases he with rfl | he
      · exact (hlist _).mpr h.1
      · exact ihs ih.2 h.2 e he
    | none =>
      simp only [capturedItems, hp, List.mem_append] at he
      cases ts with
      | nil =>
        rcases he with he | he
        · exact ih.1 _ hnull e he
        · exact ihs ih.2 h e he
      | cons t ts =>
        rw [List.forall_mem_cons] at h
        rcases he with he | he
        · exact ih.1 t h.1 e he
        · exact ihs ih.2 h.2 e he

include hget

theorem forall_captured {p : Pattern} {t : Tree} (h : P t) : ∀ e ∈ p.captured t, P e.2 := by
  induction p generalizing t with
  | hole g =>
    intro e he
    rwa [List.mem_singleton.mp he]
  | scalar a => exact fun e he => absurd he List.not_mem_nil
  | list ps ih =>
    refine forall_capturedItems hnull hlist (fun p hp t => ih p hp) ?_
    cases t with
    | scalar a => exact fun t ht => absurd ht List.not_mem_nil
    | list ts => exact (hlist ts).mp h
    | object tag fs => exact fun t ht => absurd ht List.not_mem_nil
  | object fs ih =>
    rw [captured]
    induction fs with
    | nil => exact fun e he => absurd he List.not_mem_nil
    | cons f fs ihs =>
      obtain ⟨k, p⟩ := f
      rw [List.forall_mem_cons] at ih
      intro e he
      rw [capturedFields, List.mem_append] at he
      rcases he with he | he
      · split at he
        · cases he
        · exact ih.1 (hget t k h) e he
      · exact ihs ih.2 e he

theorem forall_assignment {p : Pattern} {t : Tree} (h : P t) (n : String) :
    P ((p.captured t).assignment n) := by
  rw [Captures.assignment]
  cases hl : (p.captured t).lookup n with
  | none => exact hnull
  | some v => exact forall_captured hnull hlist hget h _ (Fields.mem_of_lookup hl)

end

theorem distinct_assignment {p : Pattern} {t : Tree} (h : t.distinct = true) (n : String) :
    ((p.captured t).assignment n).distinct = true :=
  forall_assignment (P := fun t => t.distinct = true) rfl (fun _ => Tree.distinct_list)
    (fun _ k h => Tree.distinct_get h k) h n

theorem distinct_of_mem_spliced {p : Pattern} {t c : Tree} (h : t.distinct = true)
    (hc : c ∈ p.spliced t) : c.distinct = true := by
  unfold spliced at hc
  split at hc
  · exact Tree.distinct_list.mp h c hc
  · rwa [List.mem_singleton.mp hc]

theorem names_builtFields (s : Assignment) (fs : List (String × Pattern)) :
    (builtFields s fs).map (·.1) = fs.map (·.1) := by
  induction fs with
  | nil => rfl
  | cons f fs ih => rw [builtFields, List.map_cons, ih, List.map_cons]

theorem distinct_built {s : Assignment} {p : Pattern} (ht : p.tidy = true)
    (h : ∀ n ∈ p.names, (s n).distinct = true) : (p.built s).distinct = true := by
  induction p with
  | hole g => exact h g.name (List.mem_singleton_self _)
  | scalar a => rfl
  | list ps ih =>
    rw [built, Tree.distinct_list]
    rw [tidy] at ht
    rw [names] at h
    intro c hc
    induction ps with
    | nil => cases hc
    | cons p ps ihs =>
      rw [List.forall_mem_cons] at ih
      rw [tidyItems, Bool.and_eq_true] at ht
      rw [namesItems, List.forall_mem_append] at h
      rw [builtItems, List.mem_append] at hc
      rcases hc with hc | hc
      · exact distinct_of_mem_spliced (ih.1 ht.1 h.1) hc
      · exact ihs ih.2 ht.2 h.2 hc
  | object fs ih =>
    rw [tidy, Bool.and_eq_true, decide_eq_true_iff] at ht
    rw [names] at h
    rw [built, Tree.distinct_object, names_builtFields]
    refine ⟨ht.1, ?_⟩
    replace ht := ht.2
    induction fs with
    | nil => exact fun f hf => absurd hf List.not_mem_nil
    | cons f fs ihs =>
      obtain ⟨k, p⟩ := f
      rw [List.forall_mem_cons] at ih
      rw [tidyFields, Bool.and_eq_true] at ht
      rw [namesFields, List.forall_mem_append] at h
      rw [builtFields, List.forall_mem_cons]
      refine ⟨?_, ihs ih.2 h.2 ht.2⟩
      have ht := ht.1
      split at ht
      · cases p with
        | scalar a => rfl
        | hole _ => cases ht
        | list _ => cases ht
        | object _ => cases ht
      · rename_i hk
        rw [Bool.or_eq_true, not_or] at hk
        refine ih.1 ht fun n hn => h.1 n ?_
        rwa [if_neg hk.1]

end Pattern

namespace Simplify

open Pattern

theorem tidy_replacement : ∀ r ∈ rules, r.replacement.tidy = true := by
  decide

theorem names_interop : interopRule.replacement.names = [] := by
  decide

theorem distinct_withName {t : Tree} (h : t.distinct = true) (name : String) :
    (withName t name).distinct = true :=
  Tree.distinct_set h (Tree.distinct_set (Tree.distinct_get h "id") (v := .text name) rfl "name") "id"

theorem Step.distinct {t u : Tree} (h : Step t u) (ht : t.distinct = true) : u.distinct = true := by
  obtain ⟨r, hr, v, hv, hu⟩ := h
  have hvd : v.distinct = true := by
    rcases cases_of_mem_rules hr with hr' | rfl
    · obtain ⟨-, rfl⟩ := apply?_linear hr' hv
      exact distinct_built (tidy_replacement r hr) fun n _ => distinct_assignment ht n
    · obtain ⟨s, rfl⟩ := (fits_of_applied hr hv).2
      exact distinct_built (tidy_replacement _ hr) (by simp [names_interop])
  rcases hu with rfl | ⟨-, -, name, rfl⟩
  · exact hvd
  · exact distinct_withName hvd name

theorem distinct_chain {t u : Tree} (h : Relation.TransGen Step t u) (ht : t.distinct = true) :
    u.distinct = true := by
  induction h with
  | single h => exact h.distinct ht
  | tail _ h ih => exact h.distinct ih

theorem distinct_current {t : Tree} (h : t.distinct = true) (s : State) :
    (s.current t).distinct = true := by
  rw [State.current]
  split
  · exact h
  · exact s.names.distinct_apply h

end Simplify

end Legible
