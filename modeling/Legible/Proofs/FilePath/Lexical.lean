import Legible.Proofs.FilePath.Output
import Legible.Proofs.FilePath.Rewriting
import Mathlib.Data.List.DropRight

/-!
Collapsing as a normal form. What is left has no part between the first and the last one that could
still be left out, so collapsing it again changes nothing. From the root, it is where a walk through
all parts leads.
-/

namespace Legible.FilePath

def Settled (ps : List Part) : Prop := ∀ p ∈ ps.tail.dropLast, IsName p

variable {ps qs : List Part} {p last : Part}

/-! ### Parts that have been collapsed are settled -/

theorem isName_walk {st : List Part} (hst : ∀ p ∈ st, IsName p) (ps : List Part) :
    ∀ p ∈ walk st ps, IsName p := by
  induction ps generalizing st with
  | nil => exact hst
  | cons q ps ih => exact ih (forall_enter hst id)

theorem mem_inner_filterInner {keep : Part → Bool} :
    p ∈ (filterInner keep ps).tail.dropLast ↔ p ∈ ps.tail.dropLast ∧ keep p = true := by
  cases ps with
  | nil => exact iff_of_false List.not_mem_nil fun h => List.not_mem_nil h.1
  | cons q ps =>
    rw [filterInner, List.tail_cons, List.tail_cons]
    cases h : ps.getLast? with
    | none =>
      rw [List.getLast?_eq_none_iff.mp h]
      exact iff_of_false List.not_mem_nil fun h => List.not_mem_nil h.1
    | some last =>
      rw [Option.toList_some, List.dropLast_concat, List.mem_filter]

theorem dropParent?_inner_subset (h : dropParent? ps = some qs) :
    qs.dropLast ⊆ ps.dropLast ∧ qs.tail.dropLast ⊆ ps.tail.dropLast := by
  fun_induction dropParent? ps generalizing qs with
  | case1 p q r ps hp =>
    obtain rfl := Option.some.inj h
    refine ⟨fun _ hx => List.mem_cons_of_mem p (List.mem_cons_of_mem q hx), fun _ hx => ?_⟩
    rw [← List.tail_dropLast] at hx
    exact List.mem_cons_of_mem q (List.mem_of_mem_tail hx)
  | case2 p q r ps hp ih =>
    obtain ⟨rs, hrs, rfl⟩ := Option.map_eq_some_iff.mp h
    have hsub := (ih hrs).1
    refine ⟨?_, hsub⟩
    rw [List.dropLast_cons_of_ne_nil (dropParent?_eq_some_nonempty hrs).1]
    exact List.cons_subset_cons p hsub
  | case3 => cases h

theorem above_notMem_of_dropParent? (hs : ∀ q ∈ ps, IsStep q)
    (h : dropParent? (p :: (ps ++ [last])) = none) : above ∉ ps.tail := by
  cases ps with
  | nil => exact List.not_mem_nil
  | cons q ps =>
    obtain ⟨r, t, ht⟩ := List.exists_cons_of_ne_nil
      (List.append_ne_nil_of_right_ne_nil ps (List.cons_ne_nil last []))
    rw [List.cons_append, ht, dropParent?] at h
    split at h
    · cases h
    · rw [Option.map_eq_none_iff, ← ht, ← List.cons_append] at h
      exact dropParent?_eq_none hs h

theorem settled_collapsedParts (ps : List Part) : Settled (collapsedParts ps) := by
  have hsteps : ∀ p ∈ (dropParents (filterInner (· != here)
      (filterInner (!·.isEmpty) ps))).tail.dropLast, IsStep p := by
    refine (exhausts_dropParent? _).keeps (P := fun qs => ∀ p ∈ qs.tail.dropLast, IsStep p) ?_ ?_
    · intro qs rs hqs hrs p hp
      exact hqs p ((dropParent?_inner_subset hrs).2 hp)
    · intro p hp
      rw [mem_inner_filterInner, mem_inner_filterInner, bne_iff_ne, Bool.not_eq_true',
        List.isEmpty_eq_false_iff] at hp
      exact ⟨hp.1.2, hp.2⟩
  have hnone := (exhausts_dropParent? (filterInner (· != here)
      (filterInner (!·.isEmpty) ps))).step_eq_none
  rw [collapsedParts]
  split
  · rename_i q qs hqs
    rw [hqs] at hsteps hnone
    rcases List.eq_nil_or_concat' qs with rfl | ⟨inner, last, rfl⟩
    · exact List.forall_mem_nil _
    · rw [List.tail_cons, List.dropLast_concat] at hsteps
      intro p hp
      rw [dropFirstRun_eq hsteps (above_notMem_of_dropParent? hsteps hnone), List.tail_cons,
        List.dropLast_concat, List.mem_reverse] at hp
      exact isName_walk (List.forall_mem_nil _) inner p hp
  · exact List.forall_mem_nil _

/-! ### Settled parts are not collapsed any more -/

theorem dropParent?_of_names (h : ∀ q ∈ ps, IsName q) (p last : Part) :
    dropParent? (p :: (ps ++ [last])) = none := by
  induction ps generalizing p with
  | nil => rfl
  | cons q ps ih =>
    rw [List.forall_mem_cons] at h
    obtain ⟨r, t, ht⟩ := List.exists_cons_of_ne_nil
      (List.append_ne_nil_of_right_ne_nil ps (List.cons_ne_nil last []))
    have hrest := ih h.2 q
    rw [ht] at hrest
    rw [List.cons_append, ht, dropParent?, hrest, Option.map_none, if_neg]
    rw [Bool.and_eq_true, decide_eq_true_iff]
    exact fun hc => h.1.2 hc.2

theorem collapsedParts_of_settled (h : Settled ps) : collapsedParts ps = ps := by
  cases ps with
  | nil =>
    rw [collapsedParts, filterInner, filterInner, dropParents_of_eq_none rfl]
  | cons p ps =>
    rcases List.eq_nil_or_concat' ps with rfl | ⟨names, last, rfl⟩
    · have hkeep : ∀ keep, filterInner keep [p] = [p] := fun _ => rfl
      rw [collapsedParts, hkeep, hkeep, dropParents_of_eq_none rfl]
      rfl
    · rw [Settled, List.tail_cons, List.dropLast_concat] at h
      have hhere : ∀ q ∈ names, (q != here) = true := fun q hq => bne_iff_ne.mpr (h q hq).1.2
      have hempty : ∀ q ∈ names, (!q.isEmpty) = true := fun q hq =>
        (Bool.not_eq_true' _).mpr (List.isEmpty_eq_false_iff.mpr (h q hq).1.1)
      rw [collapsedParts, filterInner_append, List.filter_eq_self.mpr hempty, filterInner_append,
        List.filter_eq_self.mpr hhere, dropParents_of_eq_none (dropParent?_of_names h p last)]
      exact congrArg _ (dropFirstRun_eq_self fun ha => (h above ha).2 rfl)

/-! ### The text of settled parts without slashes at its end -/

theorem dropSlashesRight_append (hne : p ≠ []) (hp : '/' ∉ p) (cs : List Char) :
    dropSlashesRight (cs ++ p) = cs ++ p := by
  obtain ⟨ds, d, rfl⟩ := (List.eq_nil_or_concat' p).resolve_left hne
  have hd : d ≠ '/' := fun he => hp (List.mem_append_right ds (List.mem_singleton.mpr he.symm))
  rw [← List.append_assoc]
  exact List.rdropWhile_concat_neg _ _ _ (by simpa using hd)

theorem dropSlashesRight_of_notMem (hp : '/' ∉ p) : dropSlashesRight p = p := by
  by_cases hne : p = []
  · rw [hne]
    rfl
  · exact dropSlashesRight_append hne hp []

theorem dropSlashesRight_joined (hne : last ≠ []) (hl : '/' ∉ last) (hps : ps ≠ []) :
    dropSlashesRight (joined (ps ++ [last])) = joined (ps ++ [last]) := by
  rw [joined_append_singleton hps, ← List.singleton_append, ← List.append_assoc]
  exact dropSlashesRight_append hne hl _

theorem dropSlashesRight_joined_nil (hps : ps ≠ []) :
    dropSlashesRight (joined (ps ++ [[]])) = dropSlashesRight (joined ps) := by
  rw [joined_append_singleton hps]
  exact List.rdropWhile_concat_pos _ _ _ rfl

theorem exists_settled_dropSlashesRight (hs : Settled ps) (h : ∀ p ∈ ps, '/' ∉ p) :
    ∃ qs, qs ≠ [] ∧ Settled qs ∧ (∀ q ∈ qs, '/' ∉ q) ∧ joined qs = dropSlashesRight (joined ps) := by
  cases ps with
  | nil => exact ⟨[[]], List.cons_ne_nil _ _, List.forall_mem_nil _, by simp, rfl⟩
  | cons p ps =>
    rcases List.eq_nil_or_concat' ps with rfl | ⟨names, last, rfl⟩
    · rw [List.forall_mem_singleton] at h
      exact ⟨[p], List.cons_ne_nil _ _, hs, List.forall_mem_singleton.mpr h,
        (dropSlashesRight_of_notMem h).symm⟩
    · have hnames := hs
      rw [Settled, List.tail_cons, List.dropLast_concat] at hnames
      have hl := h last (List.mem_cons_of_mem p (List.mem_append_right names List.mem_cons_self))
      rw [← List.cons_append]
      by_cases hlast : last = []
      · rw [hlast, dropSlashesRight_joined_nil (List.cons_ne_nil p names)]
        have hslash : ∀ q ∈ p :: names, '/' ∉ q := fun q hq => h q (List.mem_append_left [last] hq)
        refine ⟨p :: names, List.cons_ne_nil _ _, fun q hq => hnames q (List.dropLast_subset _ hq),
          hslash, Eq.symm ?_⟩
        rcases List.eq_nil_or_concat' names with rfl | ⟨names, name, rfl⟩
        · exact dropSlashesRight_of_notMem (hslash p List.mem_cons_self)
        · have hmem : name ∈ names ++ [name] := List.mem_append_right names List.mem_cons_self
          exact dropSlashesRight_joined (hnames name hmem).1.1
            (hslash name (List.mem_cons_of_mem p hmem)) (List.cons_ne_nil p names)
      · exact ⟨_, List.cons_ne_nil _ _, hs, h,
          (dropSlashesRight_joined hlast hl (List.cons_ne_nil p names)).symm⟩

/-! ### Line feeds -/

theorem mem_joined {c : Char} (hc : c ≠ '/') : c ∈ joined ps ↔ ∃ p ∈ ps, c ∈ p := by
  induction ps with
  | nil => simp [joined]
  | cons p ps ih =>
    by_cases hne : ps = []
    · simp [hne, joined]
    · rw [joined_cons hne, List.mem_append, List.mem_cons, ih, or_iff_right hc]
      simp only [List.mem_cons, exists_eq_or_imp]

theorem dropAbove_subset (ps : List Part) : dropAbove ps ⊆ ps := by
  fun_induction dropAbove ps with
  | case1 q ps ih => exact List.subset_cons_of_subset above ih
  | case2 => exact List.Subset.refl _
  | case3 => exact List.Subset.refl _

theorem dropFirstRun_subset (ps : List Part) : dropFirstRun ps ⊆ ps := by
  fun_induction dropFirstRun ps with
  | case1 q ps => exact List.subset_cons_of_subset above (dropAbove_subset (q :: ps))
  | case2 p q ps hp ih => exact List.cons_subset_cons p ih
  | case3 => exact List.Subset.refl _

theorem collapsedParts_subset (ps : List Part) : collapsedParts ps ⊆ ps := by
  have hsub : dropParents (filterInner (· != here) (filterInner (!·.isEmpty) ps)) ⊆ ps :=
    List.Subset.trans (dropParents_subset _)
      (List.Subset.trans (filterInner_subset _) (filterInner_subset ps))
  rw [collapsedParts]
  split
  · rename_i q qs hqs
    rw [hqs] at hsub
    exact List.Subset.trans (List.cons_subset_cons q (dropFirstRun_subset qs)) hsub
  · exact List.nil_subset ps

theorem dropFinalSlashes_of_notMem {cs : List Char} (h : '\n' ∉ cs) :
    dropFinalSlashes cs = dropSlashesRight cs := by
  unfold dropFinalSlashes
  split
  · rename_i rest hrest
    exact absurd (List.mem_reverse.mp (hrest ▸ List.mem_cons_self)) h
  · rfl

section

variable {path : String} (hn : '\n' ∉ path.toList)

include hn

theorem newline_notMem_collapsedParts :
    '\n' ∉ joined (collapsedParts (parts path.toList)) := by
  intro hm
  obtain ⟨p, hp, hc⟩ := (mem_joined (by decide)).mp hm
  refine hn ?_
  rw [← joined_parts path.toList]
  exact (mem_joined (by decide)).mpr ⟨p, collapsedParts_subset _ hp, hc⟩

theorem collapse_eq_dropSlashesRight : collapse path =
    String.ofList (dropSlashesRight (joined (collapsedParts (parts path.toList)))) := by
  rw [collapse, dropFinalSlashes_of_notMem (newline_notMem_collapsedParts hn)]

theorem collapse_collapse : collapse (collapse path) = collapse path := by
  have hslash : ∀ p ∈ collapsedParts (parts path.toList), '/' ∉ p :=
    fun p hp => slash_notMem_of_mem_parts (collapsedParts_subset _ hp)
  obtain ⟨qs, hne, hs, hqs, hjoined⟩ :=
    exists_settled_dropSlashesRight (settled_collapsedParts (parts path.toList)) hslash
  have hcollapse : collapse path = String.ofList (joined qs) := by
    rw [hjoined, collapse_eq_dropSlashesRight hn]
  have hnewline : '\n' ∉ (collapse path).toList := by
    rw [collapse_eq_dropSlashesRight hn, String.toList_ofList]
    exact fun hm => newline_notMem_collapsedParts hn ((List.rdropWhile_prefix _ _).subset hm)
  rw [collapse_eq_dropSlashesRight hnewline, hcollapse, String.toList_ofList, parts_joined hne hqs,
    collapsedParts_of_settled hs, hjoined]
  exact congrArg String.ofList (List.rdropWhile_idempotent _ _)

end

theorem collapse_eq_walk {path : String} (hn : '\n' ∉ path.toList) (hroot : ['/'] <+: path.toList)
    (hlast : ['/'] <:+ path.toList ∨ lastPart path.toList ≠ here ∧ lastPart path.toList ≠ above) :
    collapse path = rooted (walk [] (parts path.toList)).reverse := by
  obtain ⟨cs, hcs⟩ := hroot
  obtain ⟨ps, last, hps⟩ := (List.eq_nil_or_concat' (parts cs)).resolve_left (parts_ne_nil cs)
  have hparts : parts path.toList = [] :: (ps ++ [last]) := by
    rw [← hcs, ← hps]
    exact parts_cons_slash cs
  have hslash : ∀ p ∈ ps ++ [last], '/' ∉ p := fun p hp => slash_notMem_of_mem_parts (hps ▸ hp)
  have hl := hslash last (List.mem_append_right ps List.mem_cons_self)
  have htext : path.toList = joined ([] :: ps) ++ '/' :: last := by
    rw [← joined_append_singleton (List.cons_ne_nil [] ps), List.cons_append, ← hparts, joined_parts]
  have hwalk : ∀ p ∈ walk [] ps, IsPart p :=
    isPart_walk (List.forall_mem_nil _) fun p hp => hslash p (List.mem_append_left [last] hp)
  rw [collapse_eq_dropSlashesRight hn, hparts, collapsedParts_eq, walk_cons, enter_nil, walk_append,
    walk_cons, walk_nil, rooted, ← List.cons_append]
  refine congrArg _ ?_
  by_cases hempty : last = []
  · rw [hempty, enter_nil, dropSlashesRight_joined_nil (List.cons_ne_nil _ _)]
    cases h : walk [] ps with
    | nil => rfl
    | cons name st =>
      obtain ⟨hname, hslash⟩ := hwalk name (h ▸ List.mem_cons_self)
      rw [List.reverse_cons, ← List.cons_append]
      exact dropSlashesRight_joined hname.1.1 hslash (List.cons_ne_nil _ _)
  · have hname : IsName last := by
      rcases hlast with hlast | ⟨hhere, habove⟩
      · exact absurd (eq_of_slash_suffix hl List.not_mem_nil (htext ▸ hlast)).symm hempty
      · rw [htext, lastPart_append hl] at hhere habove
        exact ⟨⟨hempty, hhere⟩, habove⟩
    rw [enter_name hname, List.reverse_cons]
    exact dropSlashesRight_joined hempty hl (List.cons_ne_nil _ _)

/-- Collapsing gives the lexical normal form of a path. The rewriting that it is done by ends, and
doing it again changes nothing. -/
theorem collapse_lexical (path : String) (hn : '\n' ∉ path.toList) :
    (['/'] <+: path.toList →
      (['/'] <:+ path.toList ∨ lastPart path.toList ≠ here ∧ lastPart path.toList ≠ above) →
      collapse path = rooted (walk [] (parts path.toList)).reverse) ∧
    (∃ cs ds : List Char,
      Exhausts (replaceFirst? replaceHere?) (squeezed path.toList) cs ∧
      Exhausts (replaceFirst? replaceParent?) cs ds ∧
      collapse path =
        String.ofList (dropSlashesRight ((replaceFirst? replaceAbove? ds).getD ds))) ∧
    collapse (collapse path) = collapse path := by
  refine ⟨collapse_eq_walk hn, ?_, collapse_collapse hn⟩
  obtain ⟨cs, ds, hcs, hds, hparts⟩ := exists_exhausts_collapsedParts path.toList
  exact ⟨cs, ds, hcs, hds, by rw [hparts, collapse_eq_dropSlashesRight hn]⟩

theorem collapse_lexical_above_root :
    let path := "/../a//./b/../../../c/../"
    '\n' ∉ path.toList ∧ ['/'] <+: path.toList ∧ ['/'] <:+ path.toList ∧
      collapse path = rooted [] ∧ collapse (collapse path) = collapse path := by
  have hn : '\n' ∉ "/../a//./b/../../../c/../".toList := by decide
  have hroot : ['/'] <+: "/../a//./b/../../../c/../".toList := by decide
  have hend : ['/'] <:+ "/../a//./b/../../../c/../".toList := by decide
  have hall := collapse_lexical "/../a//./b/../../../c/../" hn
  exact ⟨hn, hroot, hend, hall.1 hroot (Or.inl hend), hall.2.2⟩

end Legible.FilePath
