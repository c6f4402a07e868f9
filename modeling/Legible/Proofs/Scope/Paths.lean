import Legible.Proofs.Scope.UniqueName

namespace Legible

namespace Scope

theorem exists_path_of_mem_along {root c : Scope} {p : Path} (h : c ∈ root.along p) :
    ∃ q, root.at? q = some c := by
  obtain ⟨q, -, hq⟩ := mem_along_iff.mp h
  exact ⟨q, hq⟩

theorem at?_append (root : Scope) (q p : Path) :
    root.at? (q ++ p) = (root.at? q).bind (·.at? p) := by
  induction q generalizing root with
  | nil => rfl
  | cons i q ih =>
    rw [List.cons_append, at?, at?]
    cases root.children[i]? with
    | none => rfl
    | some c => exact ih c

/-! ### Order of paths -/

theorem paths_eq (s : Scope) : s.paths = [] :: pathsOfChildren 0 s.children := by
  cases s
  rw [paths]

theorem exists_of_mem_pathsOfChildren {i : Nat} {cs : List Scope} {p : Path}
    (h : p ∈ pathsOfChildren i cs) : ∃ j q, i ≤ j ∧ p = j :: q := by
  induction cs generalizing i with
  | nil => cases h
  | cons c cs ih =>
    rw [pathsOfChildren] at h
    rcases List.mem_append.mp h with h | h
    · obtain ⟨q, -, rfl⟩ := List.mem_map.mp h
      exact ⟨i, q, Nat.le_refl i, rfl⟩
    · obtain ⟨j, q, hj, rfl⟩ := ih h
      exact ⟨j, q, by omega, rfl⟩

theorem pairwise_paths (s : Scope) : s.paths.Pairwise fun p q => ¬ q <+: p := by
  induction s using induction with
  | node s ih =>
    have hcs : ∀ (cs : List Scope) (i : Nat), (∀ c ∈ cs, c.paths.Pairwise fun p q => ¬ q <+: p) →
        (pathsOfChildren i cs).Pairwise fun p q => ¬ q <+: p := by
      intro cs
      induction cs with
      | nil => exact fun _ _ => .nil
      | cons c cs ihs =>
        intro i h
        rw [List.forall_mem_cons] at h
        rw [pathsOfChildren, List.pairwise_append]
        refine ⟨List.pairwise_map.mpr (h.1.imp fun hpq hp => hpq ?_), ihs (i + 1) h.2,
          fun p hp q hq hqp => ?_⟩
        · exact (List.prefix_cons_inj i).mp hp
        · obtain ⟨p', -, rfl⟩ := List.mem_map.mp hp
          obtain ⟨j, q', hj, rfl⟩ := exists_of_mem_pathsOfChildren hq
          obtain ⟨rfl, -⟩ := List.cons_prefix_cons.mp hqp
          omega
    rw [paths_eq, List.pairwise_cons]
    refine ⟨fun q hq hp => ?_, hcs _ 0 ih⟩
    obtain ⟨j, q', -, rfl⟩ := exists_of_mem_pathsOfChildren hq
    cases List.prefix_nil.mp hp

theorem map_at?_paths (s : Scope) : s.paths.map s.at? = s.scopes.map some := by
  induction s using induction with
  | node s ih =>
    have hcs : ∀ (l cs : List Scope), s.children = l ++ cs →
        (pathsOfChildren l.length cs).map s.at? = (cs.flatMap scopes).map some := by
      intro l cs
      induction cs generalizing l with
      | nil => exact fun _ => rfl
      | cons c cs ihs =>
        intro h
        have hget : s.children[l.length]? = some c := by
          rw [h, List.getElem?_append_right (Nat.le_refl _), Nat.sub_self]
          rfl
        have hrest := ihs (l ++ [c]) (by rw [h, List.append_assoc]; rfl)
        rw [List.length_append, List.length_singleton] at hrest
        rw [pathsOfChildren, List.map_append, hrest, List.flatMap_cons, List.map_append, List.map_map,
          ← ih c (List.mem_of_getElem? hget)]
        refine congrArg (· ++ _) (List.map_congr_left fun q _ => ?_)
        rw [Function.comp_apply, at?, hget]
        rfl
    rw [paths_eq, scopes_eq, List.map_cons, List.map_cons]
    exact congrArg _ (hcs [] s.children rfl)

theorem exists_path_of_mem_scopes {s d : Scope} (h : d ∈ s.scopes) : ∃ p, s.at? p = some d := by
  have hmem := List.mem_map_of_mem (f := some) h
  rw [← map_at?_paths] at hmem
  obtain ⟨p, -, hp⟩ := List.mem_map.mp hmem
  exact ⟨p, hp⟩

theorem mem_pathsOfChildren {i j : Nat} {cs : List Scope} {c : Scope} {p : Path}
    (hc : cs[j]? = some c) (hp : p ∈ c.paths) : (i + j) :: p ∈ pathsOfChildren i cs := by
  induction cs generalizing i j with
  | nil => cases hc
  | cons d cs ih =>
    rw [pathsOfChildren, List.mem_append]
    cases j with
    | zero =>
      obtain rfl := Option.some.inj hc
      exact Or.inl (List.mem_map_of_mem hp)
    | succ j =>
      have hrest := ih (i := i + 1) hc
      rw [Nat.add_right_comm] at hrest
      exact Or.inr hrest

theorem mem_paths {s c : Scope} {p : Path} (h : s.at? p = some c) : p ∈ s.paths := by
  induction p generalizing s with
  | nil =>
    rw [paths_eq]
    exact List.mem_cons_self
  | cons i p ih =>
    obtain ⟨d, hd, hc⟩ := Option.bind_eq_some_iff.mp h
    have hmem := mem_pathsOfChildren (i := 0) hd (ih hc)
    rw [Nat.zero_add] at hmem
    rw [paths_eq]
    exact List.mem_cons_of_mem _ hmem

/-! ### Changes -/

variable {f : Scope → Scope} (hf : ∀ s, (f s).children = s.children)

theorem at?_modifyAt_self (root : Scope) (p : Path) :
    (root.modifyAt f p).at? p = (root.at? p).map f := by
  induction p generalizing root with
  | nil => rfl
  | cons i p ih =>
    rw [modifyAt, at?, at?, List.getElem?_modify_eq]
    cases root.children[i]? with
    | none => rfl
    | some c => exact ih c

include hf

theorem at?_modifyAt_elsewhere (root : Scope) {p q : Path} (h : ¬ q <+: p) :
    (root.modifyAt f p).at? q = root.at? q := by
  induction p generalizing root q with
  | nil =>
    cases q with
    | nil => exact absurd (List.nil_prefix) h
    | cons j q => rw [modifyAt, at?, at?, hf]
  | cons i p ih =>
    cases q with
    | nil => exact absurd (List.nil_prefix) h
    | cons j q =>
      rw [modifyAt, at?, at?]
      by_cases hij : i = j
      · subst hij
        rw [List.getElem?_modify_eq]
        cases root.children[i]? with
        | none => rfl
        | some c => exact ih c fun hq => h ((List.prefix_cons_inj i).mpr hq)
      · rw [List.getElem?_modify_ne _ _ hij]

theorem map_at?_modifyAt {α : Type} {φ : Scope → α}
    (hφ : ∀ (s : Scope) cs, φ { s with children := cs } = φ s) (root : Scope) {p q : Path}
    (h : q ≠ p) : ((root.modifyAt f p).at? q).map φ = (root.at? q).map φ := by
  induction p generalizing root q with
  | nil =>
    cases q with
    | nil => exact absurd rfl h
    | cons j q => rw [modifyAt, at?, at?, hf]
  | cons i p ih =>
    cases q with
    | nil => exact congrArg some (hφ root _)
    | cons j q =>
      rw [modifyAt, at?, at?]
      by_cases hij : i = j
      · subst hij
        rw [List.getElem?_modify_eq]
        cases root.children[i]? with
        | none => rfl
        | some c => exact ih c fun hq => h (hq ▸ rfl)
      · rw [List.getElem?_modify_ne _ _ hij]

theorem at?_modifyAt_cases {root d : Scope} {p q : Path}
    (hd : (root.modifyAt f p).at? q = some d) :
    (p = q ∧ ∃ s, root.at? p = some s ∧ d = f s) ∨
      p ≠ q ∧ ∃ e cs, root.at? q = some e ∧ d = { e with children := cs } := by
  by_cases hq : p = q
  · subst hq
    rw [at?_modifyAt_self] at hd
    obtain ⟨s, hs, rfl⟩ := Option.map_eq_some_iff.mp hd
    exact Or.inl ⟨rfl, s, hs, rfl⟩
  · have hsame := map_at?_modifyAt hf (φ := fun s => { s with children := [] }) (fun _ _ => rfl) root
      (Ne.symm hq)
    rw [hd, Option.map_some] at hsame
    obtain ⟨e, he, heq⟩ := Option.map_eq_some_iff.mp hsame.symm
    refine Or.inr ⟨hq, e, d.children, he, ?_⟩
    cases d
    cases e
    simpa using heq.symm

end Scope

end Legible
