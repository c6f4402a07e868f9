import Legible.Proofs.FilePath.Collapse

/-!
Collapsing a path as rewriting of its text. Runs of slashes are squeezed, then `/./` is replaced as
long as it occurs, then a part with `/../` behind it, and then the first run of `/..`. Each time,
the leftmost match is replaced.
-/

namespace Legible.FilePath

/-- Replaces the leftmost match. What `replace?` gives is the text with its beginning replaced, if
there is a match at its beginning. -/
def replaceFirst? (replace? : List Char → Option (List Char)) : List Char → Option (List Char)
  | [] => replace? []
  | c :: cs => (replace? (c :: cs)).or ((replaceFirst? replace? cs).map (c :: ·))

/-- Repeating a step as long as there is one ends. -/
inductive Exhausts {α : Type} (step : α → Option α) : α → α → Prop
  | done {a} : step a = none → Exhausts step a a
  | next {a b c} : step a = some b → Exhausts step b c → Exhausts step a c

def squeezed : List Char → List Char
  | '/' :: '/' :: cs => squeezed ('/' :: cs)
  | c :: cs => c :: squeezed cs
  | [] => []

def behind? (p : Part) (cs : List Char) : Option (List Char) :=
  if '/' :: (p ++ ['/']) <+: cs then some (cs.drop (p.length + 1)) else none

def replaceHere? : List Char → Option (List Char) :=
  behind? here

def replaceParent? (cs : List Char) : Option (List Char) :=
  match cs.dropWhile (· != '/') with
  | '/' :: '.' :: '.' :: '/' :: rest => if cs.head? = some '/' then none else some rest
  | _ => none

def replaceAbove? : List Char → Option (List Char)
  | '/' :: '.' :: '.' :: '/' :: cs => some ((replaceAbove? ('/' :: cs)).getD ('/' :: cs))
  | _ => none

def dropHere? : List Part → Option (List Part)
  | p :: q :: ps => if p = here then some (q :: ps) else (dropHere? (q :: ps)).map (p :: ·)
  | _ => none

/-! ### Repeating steps -/

section

variable {α β : Type} {step : α → Option α} {a b : α}

theorem Exhausts.step_eq_none (h : Exhausts step a b) : step b = none := by
  induction h with
  | done hnone => exact hnone
  | next _ _ ih => exact ih

theorem Exhausts.keeps {P : α → Prop} (hkeep : ∀ a b, P a → step a = some b → P b)
    (h : Exhausts step a b) (ha : P a) : P b := by
  induction h with
  | done => exact ha
  | next hsome _ ih => exact ih (hkeep _ _ ha hsome)

theorem Exhausts.map {step' : β → Option β} {f : α → β} {P : α → Prop}
    (hkeep : ∀ a b, P a → step a = some b → P b) (hstep : ∀ a, P a → step' (f a) = (step a).map f)
    (h : Exhausts step a b) (ha : P a) : Exhausts step' (f a) (f b) := by
  induction h with
  | done hnone => exact .done (by rw [hstep _ ha, hnone, Option.map_none])
  | next hsome _ ih =>
    exact .next (by rw [hstep _ ha, hsome, Option.map_some]) (ih (hkeep _ _ ha hsome))

theorem exhausts_of_measure (size : α → Nat) (final : α → α)
    (hsome : ∀ a b, step a = some b → size b < size a ∧ final b = final a)
    (hnone : ∀ a, step a = none → final a = a) (a : α) : Exhausts step a (final a) := by
  induction hn : size a using Nat.strong_induction_on generalizing a with
  | _ n ih =>
    subst hn
    cases hs : step a with
    | none =>
      rw [hnone a hs]
      exact .done hs
    | some b =>
      obtain ⟨hlt, heq⟩ := hsome a b hs
      exact .next hs (heq ▸ ih (size b) hlt b rfl)

end

/-! ### Runs of slashes -/

theorem squeezed_eq (cs : List Char) :
    squeezed cs = joined (filterInner (!·.isEmpty) (parts cs)) := by
  fun_induction squeezed cs with
  | case1 cs ih =>
    obtain ⟨p, ps, hp⟩ := List.exists_cons_of_ne_nil (parts_ne_nil cs)
    rw [ih, parts_cons_slash, parts_cons_slash, parts_cons_slash, hp]
    rfl
  | case2 c cs hslash ih =>
    rw [ih]
    by_cases hc : c = '/'
    · subst hc
      rw [parts_cons_slash]
      cases cs with
      | nil => rfl
      | cons d ds =>
        have hd : d ≠ '/' := fun he => hslash ds rfl (he ▸ rfl)
        obtain ⟨p, ps, hp⟩ := List.exists_cons_of_ne_nil (parts_ne_nil ds)
        rw [parts, if_neg hd, hp]
        cases ps <;> rfl
    · rw [parts, if_neg hc]
      obtain ⟨p, ps, hp⟩ := List.exists_cons_of_ne_nil (parts_ne_nil cs)
      rw [hp]
      exact (joined_cons_append c p _).symm
  | case3 => rfl

/-! ### One part -/

section

variable {p q : Part} {ps : List Part} {cs ds : List Char}

theorem append_slash_inj (hp : '/' ∉ p) (hq : '/' ∉ q) (h : p ++ '/' :: cs = q ++ '/' :: ds) :
    p = q ∧ cs = ds := by
  have hparts := congrArg parts h
  rw [parts_append_slash, parts_append_slash, parts_of_notMem hp, parts_of_notMem hq] at hparts
  obtain ⟨rfl, -⟩ := List.cons.inj hparts
  exact ⟨rfl, (List.cons.inj (List.append_cancel_left h)).2⟩

theorem dropWhile_slash (hp : '/' ∉ p) (cs : List Char) :
    (p ++ '/' :: cs).dropWhile (· != '/') = '/' :: cs := by
  have hall : ∀ c ∈ p, (c != '/') = true := fun c hc => bne_iff_ne.mpr fun he => hp (he ▸ hc)
  rw [List.dropWhile_append_of_pos hall]
  rfl

theorem behind?_slash_append (hp : '/' ∉ p) (hq : '/' ∉ q) :
    behind? q ('/' :: (p ++ '/' :: cs)) = if p = q then some ('/' :: cs) else none := by
  unfold behind?
  split_ifs with hstart heq heq
  · rw [heq, List.drop_succ_cons, List.drop_left]
  · obtain ⟨t, ht⟩ := hstart
    rw [List.cons_append, List.append_assoc] at ht
    exact absurd (append_slash_inj hq hp (List.cons.inj ht).2).1.symm heq
  · refine absurd ⟨cs, ?_⟩ hstart
    rw [heq, List.cons_append, List.append_assoc]
    rfl
  · rfl

theorem behind?_slash_cons (hp : '/' ∉ p) : behind? q ('/' :: p) = none := by
  refine if_neg fun hstart => hp ?_
  exact (List.cons_prefix_cons.mp hstart).2.subset (List.mem_append_right q List.mem_cons_self)

theorem behind?_of_ne {c : Char} (hc : c ≠ '/') : behind? q (c :: cs) = none :=
  if_neg fun hstart => hc (List.cons_prefix_cons.mp hstart).1.symm

theorem behind?_of_notMem (hp : '/' ∉ p) : behind? q p = none :=
  if_neg fun hstart => hp (hstart.subset List.mem_cons_self)

theorem replaceAbove?_eq (cs : List Char) :
    replaceAbove? cs = (behind? above cs).map fun ds => (replaceAbove? ds).getD ds := by
  conv_lhs => unfold replaceAbove?
  split
  · rename_i ds
    rw [behind?, if_pos ⟨ds, rfl⟩]
    rfl
  · rename_i hno
    rw [behind?, if_neg]
    · rfl
    · rintro ⟨ds, rfl⟩
      exact hno ds rfl

theorem replaceFirst?_append {replace? : List Char → Option (List Char)}
    (h : ∀ c cs, c ≠ '/' → replace? (c :: cs) = none) (hp : '/' ∉ p) (cs : List Char) :
    replaceFirst? replace? (p ++ cs) = (replaceFirst? replace? cs).map (p ++ ·) := by
  induction p with
  | nil =>
    rw [List.nil_append]
    exact Option.map_id'.symm
  | cons c p ih =>
    rw [List.mem_cons, not_or] at hp
    rw [List.cons_append, replaceFirst?, h c _ (Ne.symm hp.1), Option.none_or, ih hp.2,
      Option.map_map]
    rfl

theorem replaceFirst?_of_notMem {replace? : List Char → Option (List Char)}
    (h : ∀ cs, '/' ∉ cs → replace? cs = none) (hp : '/' ∉ p) : replaceFirst? replace? p = none := by
  induction p with
  | nil => exact h [] hp
  | cons c p ih =>
    rw [replaceFirst?, h _ hp, ih (fun hm => hp (List.mem_cons_of_mem c hm))]
    rfl

end

/-! ### Replacing among the parts -/

section

variable {ps qs : List Part}

theorem dropHere?_eq_some (h : dropHere? ps = some qs) :
    qs ≠ [] ∧ qs.length < ps.length ∧ qs ⊆ ps ∧
      qs.dropLast.filter (· != here) = ps.dropLast.filter (· != here) ∧
      qs.getLast? = ps.getLast? := by
  fun_induction dropHere? ps generalizing qs with
  | case1 q ps =>
    obtain rfl := Option.some.inj h
    exact ⟨List.cons_ne_nil _ _, Nat.lt_succ_self _, List.subset_cons_self _ _, rfl, rfl⟩
  | case2 p q ps hp ih =>
    obtain ⟨rs, hrs, rfl⟩ := Option.map_eq_some_iff.mp h
    obtain ⟨hne, hlt, hsub, hfilter, hlast⟩ := ih hrs
    refine ⟨List.cons_ne_nil _ _, Nat.succ_lt_succ hlt, List.cons_subset_cons p hsub, ?_, ?_⟩
    · rw [List.dropLast_cons_of_ne_nil hne, List.dropLast_cons_of_ne_nil (List.cons_ne_nil q ps),
        List.filter_cons, List.filter_cons, hfilter]
    · rw [List.getLast?_cons, List.getLast?_cons, hlast]
  | case3 => cases h

theorem dropHere?_eq_none (h : dropHere? ps = none) : here ∉ ps.dropLast := by
  fun_induction dropHere? ps with
  | case1 => cases h
  | case2 p q ps hp ih =>
    rw [List.dropLast_cons_of_ne_nil (List.cons_ne_nil q ps), List.mem_cons, not_or]
    exact ⟨Ne.symm hp, ih (Option.map_eq_none_iff.mp h)⟩
  | case3 ps hno =>
    cases ps with
    | nil => exact List.not_mem_nil
    | cons p ps =>
      cases ps with
      | nil => exact List.not_mem_nil
      | cons q ps => exact absurd rfl (hno p q ps)

theorem replaceFirst?_here (h : ∀ p ∈ ps, '/' ∉ p) (hne : ps ≠ []) :
    replaceFirst? replaceHere? ('/' :: joined ps) = (dropHere? ps).map fun qs => '/' :: joined qs := by
  induction ps with
  | nil => exact absurd rfl hne
  | cons p ps ih =>
    rw [List.forall_mem_cons] at h
    cases ps with
    | nil =>
      rw [joined, replaceFirst?, replaceHere?, behind?_slash_cons h.1, Option.none_or,
        replaceFirst?_of_notMem (fun _ => behind?_of_notMem) h.1]
      rfl
    | cons q ps =>
      rw [joined, replaceFirst?, replaceHere?, behind?_slash_append h.1 (by decide), dropHere?]
      split_ifs with hp
      · rfl
      · rw [Option.none_or, replaceFirst?_append (fun _ _ => behind?_of_ne) h.1, ← replaceHere?,
          ih h.2 (List.cons_ne_nil q ps)]
        cases hrs : dropHere? (q :: ps) with
        | none => rfl
        | some rs =>
          exact congrArg (fun cs => some ('/' :: cs)) (joined_cons (dropHere?_eq_some hrs).1 _).symm

theorem filterInner_subset {keep : Part → Bool} (ps : List Part) : filterInner keep ps ⊆ ps := by
  cases ps with
  | nil => exact List.Subset.refl []
  | cons p ps =>
    refine List.cons_subset_cons p (List.append_subset.mpr ⟨?_, fun q hq => ?_⟩)
    · exact List.Subset.trans (List.filter_subset_self _) (List.dropLast_subset ps)
    · exact List.mem_of_getLast? (Option.mem_toList.mp hq)

theorem dropLast_append_getLast? (ps : List Part) : ps.dropLast ++ ps.getLast?.toList = ps := by
  cases h : ps.getLast? with
  | none => rw [List.getLast?_eq_none_iff.mp h]; rfl
  | some last => exact List.dropLast_append_getLast? last h

theorem exhausts_dropHere? (ps : List Part) :
    Exhausts dropHere? ps (ps.dropLast.filter (· != here) ++ ps.getLast?.toList) := by
  refine exhausts_of_measure List.length
    (fun ps => ps.dropLast.filter (· != here) ++ ps.getLast?.toList) ?_ ?_ ps
  · intro ps qs h
    obtain ⟨-, hlt, -, hfilter, hlast⟩ := dropHere?_eq_some h
    exact ⟨hlt, congrArg₂ _ hfilter (congrArg Option.toList hlast)⟩
  · intro ps h
    have hall : ∀ p ∈ ps.dropLast, (p != here) = true :=
      fun p hp => bne_iff_ne.mpr fun he => dropHere?_eq_none h (he ▸ hp)
    change ps.dropLast.filter _ ++ _ = _
    rw [List.filter_eq_self.mpr hall, dropLast_append_getLast?]

theorem exhausts_replaceHere? {p : Part} (h : ∀ q ∈ p :: ps, '/' ∉ q) :
    Exhausts (replaceFirst? replaceHere?) (joined (p :: ps))
      (joined (filterInner (· != here) (p :: ps))) := by
  rw [List.forall_mem_cons] at h
  refine (exhausts_dropHere? ps).map (f := fun qs => joined (p :: qs))
    (P := fun qs => ∀ q ∈ qs, '/' ∉ q) ?_ ?_ h.2
  · intro qs rs hqs hrs q hq
    exact hqs q ((dropHere?_eq_some hrs).2.2.1 hq)
  · intro qs hqs
    by_cases hne : qs = []
    · subst hne
      exact replaceFirst?_of_notMem (fun _ => behind?_of_notMem) h.1
    · rw [joined_cons hne, replaceHere?, replaceFirst?_append (fun _ _ => behind?_of_ne) h.1,
        ← replaceHere?, replaceFirst?_here hqs hne]
      cases hrs : dropHere? qs with
      | none => rfl
      | some rs => exact congrArg some (joined_cons (dropHere?_eq_some hrs).1 _).symm

/-! ### Leaving out a part and the one above -/

theorem dropParent?_eq_some_nonempty (h : dropParent? ps = some qs) : qs ≠ [] ∧ qs ⊆ ps := by
  fun_induction dropParent? ps generalizing qs with
  | case1 p q r ps hp =>
    obtain rfl := Option.some.inj h
    exact ⟨List.cons_ne_nil r ps, fun _ hx => List.mem_cons_of_mem p (List.mem_cons_of_mem q hx)⟩
  | case2 p q r ps hp ih =>
    obtain ⟨rs, hrs, rfl⟩ := Option.map_eq_some_iff.mp h
    exact ⟨List.cons_ne_nil p rs, List.cons_subset_cons p (ih hrs).2⟩
  | case3 => cases h

theorem dropParents_of_eq_none (h : dropParent? ps = none) : dropParents ps = ps := by
  rw [dropParents]
  split
  · rfl
  · rename_i hsome
    rw [h] at hsome
    cases hsome

theorem dropParents_of_eq_some (h : dropParent? ps = some qs) : dropParents ps = dropParents qs := by
  rw [dropParents]
  split
  · rename_i hnone
    rw [h] at hnone
    cases hnone
  · rename_i hsome
    rw [Option.some.inj (h.symm.trans hsome)]

theorem exhausts_dropParent? (ps : List Part) : Exhausts dropParent? ps (dropParents ps) := by
  refine exhausts_of_measure List.length dropParents ?_ (fun ps => dropParents_of_eq_none) ps
  intro ps qs h
  have hlength := dropParent?_length h
  exact ⟨by omega, (dropParents_of_eq_some h).symm⟩

theorem dropParents_subset (ps : List Part) : dropParents ps ⊆ ps := by
  refine (exhausts_dropParent? ps).keeps (P := fun qs => qs ⊆ ps) ?_ (List.Subset.refl ps)
  intro qs rs hqs hrs
  exact List.Subset.trans (dropParent?_eq_some_nonempty hrs).2 hqs

theorem replaceParent?_of_notMem {cs : List Char} (h : '/' ∉ cs) : replaceParent? cs = none := by
  have hdrop : cs.dropWhile (· != '/') = [] :=
    List.dropWhile_eq_nil_iff.mpr fun c hc => bne_iff_ne.mpr fun he => h (he ▸ hc)
  rw [replaceParent?, hdrop]

theorem replaceParent?_slash (cs : List Char) : replaceParent? ('/' :: cs) = none := by
  unfold replaceParent?
  split
  · exact if_pos rfl
  · rfl

theorem replaceParent?_append {c : Char} {p q : Part} (hc : c ≠ '/') (hp : '/' ∉ p) (hq : '/' ∉ q)
    (ps : List Part) : replaceParent? (c :: (p ++ '/' :: joined (q :: ps))) =
      if q = above ∧ ps ≠ [] then some (joined ps) else none := by
  have hcp : '/' ∉ c :: p := List.not_mem_cons_of_ne_of_not_mem (Ne.symm hc) hp
  have hhead : (c :: (p ++ '/' :: joined (q :: ps))).head? ≠ some '/' := fun h => hc (Option.some.inj h)
  rw [replaceParent?, ← List.cons_append, dropWhile_slash hcp, List.cons_append]
  by_cases hne : ps = []
  · rw [if_neg fun h => h.2 hne, hne]
    split
    · rename_i ds he
      have he : q = '.' :: '.' :: '/' :: ds := (List.cons.inj he).2
      exact absurd (he ▸ List.mem_cons_of_mem _ (List.mem_cons_of_mem _ List.mem_cons_self)) hq
    · rfl
  · rw [joined_cons hne] at hhead ⊢
    by_cases ha : q = above
    · rw [if_pos ⟨ha, hne⟩, ha]
      exact if_neg (ha ▸ hhead)
    · rw [if_neg fun h => ha h.1]
      split
      · rename_i ds he
        exact absurd (append_slash_inj (q := above) hq (by decide) (List.cons.inj he).2).1 ha
      · rfl

theorem replaceFirst?_parent_append {p q : Part} (hp : '/' ∉ p) (hq : '/' ∉ q)
    (h : p = [] ∨ ¬ (q = above ∧ ps ≠ [])) :
    replaceFirst? replaceParent? (p ++ '/' :: joined (q :: ps)) =
      (replaceFirst? replaceParent? (joined (q :: ps))).map fun cs => p ++ '/' :: cs := by
  induction p with
  | nil => rw [List.nil_append, replaceFirst?, replaceParent?_slash, Option.none_or]; rfl
  | cons c p ih =>
    rw [List.mem_cons, not_or] at hp
    have hno := h.resolve_left (List.cons_ne_nil c p)
    rw [List.cons_append, replaceFirst?, replaceParent?_append (Ne.symm hp.1) hp.2 hq, if_neg hno,
      Option.none_or, ih hp.2 (Or.inr hno), Option.map_map]
    rfl

theorem replaceFirst?_parent (h : ∀ p ∈ ps, '/' ∉ p) :
    replaceFirst? replaceParent? (joined ps) = (dropParent? ps).map joined := by
  fun_induction dropParent? ps with
  | case1 p q r ps hp =>
    rw [Bool.and_eq_true, decide_eq_true_iff, Bool.not_eq_true', List.isEmpty_eq_false_iff] at hp
    simp only [List.forall_mem_cons] at h
    obtain ⟨c, p, rfl⟩ := List.exists_cons_of_ne_nil hp.1
    have hcp := h.1
    rw [List.mem_cons, not_or] at hcp
    rw [joined, List.cons_append, replaceFirst?,
      replaceParent?_append (Ne.symm hcp.1) hcp.2 h.2.1, if_pos ⟨hp.2, List.cons_ne_nil r ps⟩]
    rfl
  | case2 p q r ps hp ih =>
    rw [Bool.and_eq_true, decide_eq_true_iff, Bool.not_eq_true', List.isEmpty_eq_false_iff,
      not_and] at hp
    rw [List.forall_mem_cons] at h
    have hq := h.2 q List.mem_cons_self
    rw [joined, replaceFirst?_parent_append h.1 hq, ih h.2]
    · cases hqs : dropParent? (q :: r :: ps) with
      | none => rfl
      | some qs => exact congrArg some (joined_cons (dropParent?_eq_some_nonempty hqs).1 _).symm
    · exact or_iff_not_imp_left.mpr fun hne hboth => hp hne hboth.1
  | case3 ps hno =>
    rcases ps with _ | ⟨p, _ | ⟨q, _ | ⟨r, ps⟩⟩⟩
    · rfl
    · rw [List.forall_mem_singleton] at h
      exact replaceFirst?_of_notMem (fun _ => replaceParent?_of_notMem) h
    · rw [List.forall_mem_cons, List.forall_mem_singleton] at h
      rw [joined, replaceFirst?_parent_append h.1 h.2 (Or.inr fun hboth => hboth.2 rfl), joined,
        replaceFirst?_of_notMem (fun _ => replaceParent?_of_notMem) h.2]
      rfl
    · exact absurd rfl (hno p q r ps)

theorem exhausts_replaceParent? (h : ∀ p ∈ ps, '/' ∉ p) :
    Exhausts (replaceFirst? replaceParent?) (joined ps) (joined (dropParents ps)) := by
  refine (exhausts_dropParent? ps).map (P := fun qs => ∀ q ∈ qs, '/' ∉ q) ?_ ?_ h
  · intro qs rs hqs hrs q hq
    exact hqs q ((dropParent?_eq_some_nonempty hrs).2 hq)
  · intro qs hqs
    exact replaceFirst?_parent hqs

/-! ### Leaving out the first run of `..` -/

theorem dropAbove_ne_nil (h : ps ≠ []) : dropAbove ps ≠ [] := by
  fun_induction dropAbove ps with
  | case1 q ps ih => exact ih (List.cons_ne_nil q ps)
  | case2 => exact List.cons_ne_nil _ _
  | case3 => exact h

theorem dropFirstRun_ne_nil (h : ps ≠ []) : dropFirstRun ps ≠ [] := by
  fun_cases dropFirstRun ps with
  | case1 q ps => exact dropAbove_ne_nil (List.cons_ne_nil q ps)
  | case2 => exact List.cons_ne_nil _ _
  | case3 => exact h

theorem getD_replaceAbove? (h : ∀ p ∈ ps, '/' ∉ p) (hne : ps ≠ []) :
    (replaceAbove? ('/' :: joined ps)).getD ('/' :: joined ps) = '/' :: joined (dropAbove ps) := by
  induction ps with
  | nil => exact absurd rfl hne
  | cons p ps ih =>
    rw [List.forall_mem_cons] at h
    cases ps with
    | nil =>
      rw [joined, replaceAbove?_eq, behind?_slash_cons h.1]
      rfl
    | cons q ps =>
      rw [joined, replaceAbove?_eq, behind?_slash_append h.1 (by decide), dropAbove]
      split_ifs with hp
      · exact ih h.2 (List.cons_ne_nil q ps)
      · rfl

theorem getD_replaceFirst?_above {p : Part} (h : ∀ q ∈ p :: ps, '/' ∉ q) :
    (replaceFirst? replaceAbove? (joined (p :: ps))).getD (joined (p :: ps)) =
      joined (p :: dropFirstRun ps) := by
  have hnone : ∀ {cs}, '/' ∉ cs → replaceAbove? cs = none := by
    intro cs hcs
    rw [replaceAbove?_eq, behind?_of_notMem hcs]
    rfl
  have hne : ∀ c cs, c ≠ '/' → replaceAbove? (c :: cs) = none := by
    intro c cs hc
    rw [replaceAbove?_eq, behind?_of_ne hc]
    rfl
  induction ps generalizing p with
  | nil =>
    rw [List.forall_mem_singleton] at h
    rw [joined, replaceFirst?_of_notMem (fun _ => hnone) h]
    rfl
  | cons q ps ih =>
    rw [List.forall_mem_cons] at h
    have hq := h.2 q List.mem_cons_self
    have hrest : (replaceFirst? replaceAbove? ('/' :: joined (q :: ps))).getD
        ('/' :: joined (q :: ps)) = '/' :: joined (dropFirstRun (q :: ps)) := by
      cases ps with
      | nil =>
        rw [joined, replaceFirst?, replaceAbove?_eq, behind?_slash_cons hq, Option.map_none,
          Option.none_or, replaceFirst?_of_notMem (fun _ => hnone) hq]
        rfl
      | cons r ps =>
        have habove := getD_replaceAbove? h.2 (List.cons_ne_nil q (r :: ps))
        rw [joined, replaceFirst?]
        rw [joined] at habove
        by_cases hp : q = above
        · rw [replaceAbove?_eq, behind?_slash_append hq (by decide), if_pos hp] at habove ⊢
          rw [dropFirstRun, if_pos hp]
          rw [dropAbove, if_pos hp] at habove
          exact habove
        · rw [replaceAbove?_eq, behind?_slash_append hq (by decide), if_neg hp, Option.map_none,
            Option.none_or, Option.getD_map, ← joined, ih h.2, dropFirstRun, if_neg hp]
    rw [joined, replaceFirst?_append hne h.1, Option.getD_map, hrest,
      joined_cons (dropFirstRun_ne_nil (List.cons_ne_nil q ps))]

end

theorem exists_exhausts_collapsedParts (text : List Char) : ∃ cs ds : List Char,
    Exhausts (replaceFirst? replaceHere?) (squeezed text) cs ∧
      Exhausts (replaceFirst? replaceParent?) cs ds ∧
      (replaceFirst? replaceAbove? ds).getD ds = joined (collapsedParts (parts text)) := by
  have hslash : ∀ q ∈ parts text, '/' ∉ q := fun q hq => slash_notMem_of_mem_parts hq
  have hfilter : ∀ q ∈ filterInner (!·.isEmpty) (parts text), '/' ∉ q :=
    fun q hq => hslash q (filterInner_subset _ hq)
  have hfilter' : ∀ q ∈ filterInner (· != here) (filterInner (!·.isEmpty) (parts text)), '/' ∉ q :=
    fun q hq => hfilter q (filterInner_subset _ hq)
  refine ⟨_, _, ?_, exhausts_replaceParent? hfilter', ?_⟩
  · obtain ⟨p, ps, hp⟩ := List.exists_cons_of_ne_nil (parts_ne_nil text)
    rw [squeezed_eq]
    rw [hp] at hfilter ⊢
    exact exhausts_replaceHere? hfilter
  · have hparents := fun q hq => hfilter' q (dropParents_subset _ hq)
    rw [collapsedParts]
    split
    · rename_i q qs hqs
      rw [hqs] at hparents ⊢
      exact getD_replaceFirst?_above hparents
    · rename_i hqs
      rw [hqs]
      rfl

end Legible.FilePath
