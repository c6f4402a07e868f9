import Legible.Proofs.Scope.Analysis

namespace Legible

namespace Scope

theorem numbered_injective (stem : String) : Function.Injective fun k : Nat => stem ++ toString k := by
  intro a b h
  have hs : stem.toList ++ (toString a).toList = stem.toList ++ (toString b).toList := by
    simpa using congrArg String.toList h
  have hd : Nat.toDigits 10 a = Nat.toDigits 10 b := by
    simpa only [Nat.toString_eq_repr, Nat.toList_repr] using List.append_cancel_left hs
  simpa using congrArg (fun ds => Nat.ofDigitChars 10 ds 0) hd

def takenNames (scopes : List Scope) : List String :=
  reservedWords ++ scopes.flatMap fun s => s.table.map (·.1)

theorem isTaken_iff {scopes : List Scope} {name : String} :
    isTaken scopes name = true ↔ name ∈ takenNames scopes := by
  rw [isTaken, Bool.or_eq_true, List.contains_iff_mem, takenNames, List.mem_append,
    List.any_eq_true, List.mem_flatMap]
  refine or_congr_right (exists_congr fun s => and_congr_right fun _ => ?_)
  rw [declares, List.any_eq_true, List.mem_map]
  exact exists_congr fun e => and_congr_right fun _ => beq_iff_eq

theorem length_takenNames (scopes : List Scope) :
    (takenNames scopes).length = takenCount scopes := by
  simp only [takenNames, takenCount, List.length_append, List.length_flatMap, List.length_map]

theorem taken_of_firstFree {scopes : List Scope} {stem : String} {fuel k : Nat}
    (h : isTaken scopes (firstFree scopes stem fuel k) = true) :
    ∀ j ∈ List.range' k (fuel + 1), isTaken scopes (stem ++ toString j) = true := by
  induction fuel generalizing k with
  | zero =>
    intro j hj
    obtain rfl := List.mem_singleton.mp hj
    exact h
  | succ fuel ih =>
    rw [firstFree] at h
    split at h
    · rename_i hk
      rw [List.range'_succ, List.forall_mem_cons]
      exact ⟨hk, ih h⟩
    · rename_i hk
      exact absurd h hk

theorem firstFree_free (scopes : List Scope) (stem : String) (k : Nat) :
    isTaken scopes (firstFree scopes stem (takenCount scopes) k) = false := by
  by_contra h
  have hall := taken_of_firstFree (Bool.of_not_eq_false h)
  -- There are more numbered names than taken ones.
  have hnodup : ((List.range' k (takenCount scopes + 1)).map fun j => stem ++ toString j).Nodup :=
    List.Nodup.map (numbered_injective stem) List.nodup_range'
  have hsub : ((List.range' k (takenCount scopes + 1)).map fun j => stem ++ toString j) ⊆
      takenNames scopes := by
    intro name hname
    obtain ⟨j, hj, rfl⟩ := List.mem_map.mp hname
    exact isTaken_iff.mp (hall j hj)
  have hlength := (List.subperm_of_subset hnodup hsub).length_le
  rw [length_takenNames, List.length_map, List.length_range'] at hlength
  omega

theorem uniqueNameIn_free (scopes : List Scope) (candidate : String) :
    isTaken scopes (uniqueNameIn scopes candidate) = false := by
  rw [uniqueNameIn]
  split
  · exact firstFree_free _ _ _
  · rename_i h
    exact Bool.of_not_eq_true h

variable {root s : Scope} {path : Path}

theorem mem_along_of_outer {q : Path} (h : root.at? q = some s) (hq : q <+: path) :
    s ∈ root.along path := by
  induction q generalizing root path with
  | nil =>
    obtain rfl := Option.some.inj h
    cases path with
    | nil => exact List.mem_singleton_self _
    | cons i path =>
      rw [along]
      split <;> exact List.mem_cons_self
  | cons i q ih =>
    obtain ⟨r, rfl⟩ := hq
    obtain ⟨c, hc, h⟩ := Option.bind_eq_some_iff.mp h
    rw [List.cons_append, along, hc]
    exact List.mem_cons_of_mem _ (ih h (List.prefix_append q r))

theorem mem_along (h : root.at? path = some s) : s ∈ root.along path :=
  mem_along_of_outer h (List.prefix_refl path)

theorem along_subset : ∀ c ∈ root.along path, c ∈ root.scopes := by
  induction path generalizing root with
  | nil =>
    rw [along, List.forall_mem_singleton]
    exact root.self_mem_scopes
  | cons i path ih =>
    rw [along]
    split
    · rename_i c hc
      rw [List.forall_mem_cons]
      exact ⟨root.self_mem_scopes,
        fun d hd => mem_scopes_of_child (List.mem_of_getElem? hc) (ih d hd)⟩
    · rw [List.forall_mem_singleton]
      exact root.self_mem_scopes

theorem at?_mem_scopes (h : root.at? path = some s) : s ∈ root.scopes :=
  along_subset s (mem_along h)

theorem uniqueName_free (root : Scope) (path : Path) (candidate : String) :
    root.uniqueName path candidate ∉ reservedWords ∧
      ∀ c ∈ root.along path, c.declares (root.uniqueName path candidate) = false := by
  have hfree := uniqueNameIn_free (root.along path) candidate
  rw [isTaken, Bool.or_eq_false_iff, List.any_eq_false] at hfree
  refine ⟨fun hm => ?_, fun c hc => Bool.of_not_eq_true (hfree.2 c hc)⟩
  exact Bool.false_ne_true (hfree.1.symm.trans (List.contains_iff_mem.mpr hm))

theorem names_tableOf (vs : List Variable) : (tableOf vs).map (·.1) = vs.map (·.name) := by
  rw [tableOf, List.map_map, ← List.zipIdx_map_fst 0 vs, List.map_map, List.zipIdx_map_fst]
  rfl

theorem declares_iff_mem {c : Scope} {name : String} :
    c.declares name = true ↔ name ∈ c.table.map (·.1) := by
  rw [declares, List.any_eq_true, List.mem_map]
  exact exists_congr fun e => and_congr_right fun _ => beq_iff_eq

theorem Fresh.declares_iff {c : Scope} (h : c.Fresh) {name : String} :
    c.declares name = true ↔ ∃ v ∈ c.declared, v.name = name := by
  rw [declares_iff_mem, h.table, names_tableOf, List.mem_map]

/-! ### The first free name -/

def Taken (root : Scope) (path : Path) (name : String) : Prop :=
  name ∈ reservedWords ∨ ∃ q c, q <+: path ∧ root.at? q = some c ∧ name ∈ c.table.map (·.1)

/-- The search from a name that has been made with a number ends with a result. -/
inductive Settles (root : Scope) (path : Path) (stem : String) : Nat → String → String → Prop where
  | free {k name} (h : ¬ root.Taken path name) : Settles root path stem k name name
  | taken {k name result} (h : root.Taken path name)
      (rest : Settles root path stem (k + 1) (stem ++ toString (k + 1)) result) :
      Settles root path stem k name result

theorem mem_along_iff {c : Scope} : c ∈ root.along path ↔ ∃ q, q <+: path ∧ root.at? q = some c := by
  constructor
  · intro h
    induction path generalizing root with
    | nil =>
      obtain rfl := List.mem_singleton.mp h
      exact ⟨[], List.prefix_refl _, rfl⟩
    | cons i path ih =>
      rw [along] at h
      split at h
      · rename_i d hd
        rcases List.mem_cons.mp h with rfl | h
        · exact ⟨[], List.nil_prefix, rfl⟩
        · obtain ⟨q, hq, hc⟩ := ih h
          refine ⟨i :: q, (List.prefix_cons_inj i).mpr hq, ?_⟩
          rw [at?, hd]
          exact hc
      · obtain rfl := List.mem_singleton.mp h
        exact ⟨[], List.nil_prefix, rfl⟩
  · rintro ⟨q, hq, hc⟩
    exact mem_along_of_outer hc hq

theorem taken_iff {name : String} :
    root.Taken path name ↔ isTaken (root.along path) name = true := by
  simp only [isTaken_iff, takenNames, List.mem_append, List.mem_flatMap, mem_along_iff, Taken]
  apply or_congr_right
  constructor
  · rintro ⟨q, c, hq, hc, hn⟩
    exact ⟨c, ⟨q, hq, hc⟩, hn⟩
  · rintro ⟨c, ⟨q, hq, hc⟩, hn⟩
    exact ⟨q, c, hq, hc, hn⟩

theorem exists_firstFree (scopes : List Scope) (stem : String) (fuel k : Nat) :
    ∃ m, k ≤ m ∧ firstFree scopes stem fuel k = stem ++ toString m ∧
      ∀ j, k ≤ j → j < m → isTaken scopes (stem ++ toString j) = true := by
  induction fuel generalizing k with
  | zero => exact ⟨k, Nat.le_refl k, rfl, fun j hj hjk => by omega⟩
  | succ fuel ih =>
    rw [firstFree]
    split
    · rename_i hk
      obtain ⟨m, hm, he, hall⟩ := ih (k + 1)
      refine ⟨m, by omega, he, fun j hj hjm => ?_⟩
      by_cases hjk : j = k
      · rw [hjk]
        exact hk
      · exact hall j (by omega) hjm
    · exact ⟨k, Nat.le_refl k, rfl, fun j hj hjk => by omega⟩

theorem uniqueName_cases (root : Scope) (path : Path) (candidate : String) :
    let stem := nameStem candidate
    ¬ root.Taken path stem ∧ root.uniqueName path candidate = stem ∨
      root.Taken path stem ∧ ∃ k, 2 ≤ k ∧ root.uniqueName path candidate = stem ++ toString k ∧
        ∀ j, 2 ≤ j → j < k → root.Taken path (stem ++ toString j) := by
  intro stem
  simp only [taken_iff, uniqueName, uniqueNameIn]
  by_cases h : isTaken (root.along path) stem = true
  · obtain ⟨k, hk, he, hall⟩ := exists_firstFree (root.along path) stem
      (takenCount (root.along path)) 2
    exact Or.inr ⟨h, k, hk, by rw [if_pos h, he], hall⟩
  · exact Or.inl ⟨h, if_neg h⟩

theorem not_taken_uniqueName (root : Scope) (path : Path) (candidate : String) :
    ¬ root.Taken path (root.uniqueName path candidate) := by
  rw [taken_iff, uniqueName, uniqueNameIn_free]
  exact Bool.false_ne_true

theorem Settles.unique {stem name r r' : String} {k : Nat} (h : Settles root path stem k name r)
    (h' : Settles root path stem k name r') : r = r' := by
  induction h with
  | free hn =>
    cases h' with
    | free _ => rfl
    | taken ht _ => exact absurd ht hn
  | taken ht _ ih =>
    cases h' with
    | free hn => exact absurd ht hn
    | taken _ hrest => exact ih hrest

theorem settles_of_taken {stem : String} {m : Nat} (hm : ¬ root.Taken path (stem ++ toString m))
    {k : Nat} {name : String} (hn : root.Taken path name) (hk : k < m)
    (hall : ∀ j, k < j → j < m → root.Taken path (stem ++ toString j)) :
    Settles root path stem k name (stem ++ toString m) := by
  induction hd : m - k generalizing k name with
  | zero => omega
  | succ d ih =>
    apply Settles.taken hn
    by_cases he : k + 1 = m
    · rw [he]
      exact .free hm
    · apply ih (hall (k + 1) (by omega) (by omega)) (by omega)
      · exact fun j hj hjm => hall j (by omega) hjm
      · omega

theorem settles_uniqueName (root : Scope) (path : Path) (candidate : String) :
    Settles root path (nameStem candidate) 1 (nameStem candidate)
      (root.uniqueName path candidate) := by
  have hfree := not_taken_uniqueName root path candidate
  rcases uniqueName_cases root path candidate with ⟨h, he⟩ | ⟨h, k, hk, he, hall⟩
  · rw [he]
    exact .free h
  · rw [he] at hfree ⊢
    exact settles_of_taken hfree h (by omega) fun j hj hjk => hall j (by omega) hjk

theorem nameStem_eq_ite (candidate : String) : nameStem candidate =
    if candidate.toList.head?.any Text.isAnyDigit then "_" ++ candidate else candidate := by
  rw [nameStem]
  split
  · rename_i c cs hc
    rw [hc]
    rfl
  · rename_i hc
    rw [hc]
    rfl

theorem head_uniqueName (root : Scope) (path : Path) {candidate : String} (h : candidate ≠ "") :
    ∃ c, (root.uniqueName path candidate).toList.head? = some c ∧ Text.isAnyDigit c = false := by
  have hstem : ∃ c cs, (nameStem candidate).toList = c :: cs ∧ Text.isAnyDigit c = false := by
    cases hc : candidate.toList with
    | nil => exact absurd (String.toList_inj.mp hc) h
    | cons c cs =>
      rw [nameStem_eq_ite, hc, List.head?_cons, Option.any_some]
      by_cases hd : Text.isAnyDigit c = true
      · rw [if_pos hd, String.toList_append]
        exact ⟨'_', _, rfl, by decide⟩
      · rw [if_neg hd]
        exact ⟨c, cs, hc, Bool.of_not_eq_true hd⟩
  obtain ⟨c, cs, hc, hd⟩ := hstem
  refine ⟨c, ?_, hd⟩
  rcases uniqueName_cases root path candidate with ⟨-, he⟩ | ⟨-, k, -, he, -⟩
  · rw [he, hc, List.head?_cons]
  · rw [he, String.toList_append, hc, List.cons_append, List.head?_cons]

/-- The search for a unique name always ends. It gives the stem if that is free, or else the stem
with the least number from 2 on that makes it free. -/
theorem uniqueName_first (root : Scope) (path : Path) (candidate : String) :
    let stem := nameStem candidate
    let name := root.uniqueName path candidate
    (stem = if candidate.toList.head?.any Text.isAnyDigit then "_" ++ candidate else candidate) ∧
      (∀ result, Settles root path stem 1 stem result ↔ result = name) ∧
      (¬ root.Taken path stem ∧ name = stem ∨
        root.Taken path stem ∧ ∃ k, 2 ≤ k ∧ name = stem ++ toString k ∧
          ∀ j, 2 ≤ j → j < k → root.Taken path (stem ++ toString j)) ∧
      ¬ root.Taken path name ∧
      (candidate ≠ "" → ∃ c, name.toList.head? = some c ∧ Text.isAnyDigit c = false) := by
  intro stem name
  have hsettles : Settles root path stem 1 stem name := settles_uniqueName root path candidate
  refine ⟨nameStem_eq_ite candidate, fun result => ⟨fun h => h.unique hsettles, ?_⟩,
    uniqueName_cases root path candidate, not_taken_uniqueName root path candidate,
    head_uniqueName root path⟩
  rintro rfl
  exact hsettles

def numberedNames : Scope :=
  assemble .global ⟨0, ""⟩ false true [⟨"_12", .variable, none⟩]
    [.child (assemble .function ⟨0, ""⟩ false true [⟨"_1", .variable, none⟩] [])]

theorem uniqueName_first_numbered : numberedNames.uniqueName [0] "1" = "_13" ∧
    Settles numberedNames [0] "_1" 1 "_1" "_13" ∧ numberedNames.Taken [0] "_1" ∧
      numberedNames.Taken [0] "_12" ∧ ¬ numberedNames.Taken [0] "_13" ∧ "1" ≠ "" ∧
      ∃ c, "_13".toList.head? = some c ∧ Text.isAnyDigit c = false := by
  have hname : numberedNames.uniqueName [0] "1" = "_13" := by decide +kernel
  have hstem : nameStem "1" = "_1" := by decide
  have hne : "1" ≠ "" := by decide
  obtain ⟨-, hsettles, hcases, hfree, hhead⟩ := uniqueName_first numberedNames [0] "1"
  rw [hname, hstem] at hcases
  rw [hname] at hfree hhead
  rw [hstem, hname] at hsettles
  obtain ⟨htaken, k, hk, he, hall⟩ := hcases.resolve_left fun h => absurd h.2 (by decide)
  have hk3 : k = 3 := numbered_injective "_1" (he.symm.trans (by decide : "_13" = "_1" ++ toString 3))
  have htwo : numberedNames.Taken [0] ("_1" ++ toString 2) := hall 2 (Nat.le_refl 2) (by omega)
  exact ⟨hname, (hsettles "_13").mpr rfl, htaken, htwo, hfree, hne, hhead hne⟩

end Scope

end Legible
