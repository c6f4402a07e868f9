import Legible.FilePath.Collapse
import Mathlib.Data.List.Infix
import Mathlib.Data.List.TakeWhile

namespace Legible.FilePath

/-! ### Parts -/

theorem parts_cons_slash (cs : List Char) : parts ('/' :: cs) = [] :: parts cs := by
  rw [parts, if_pos rfl]

theorem slash_notMem_of_mem_parts {cs : List Char} {p : Part} (h : p ∈ parts cs) : '/' ∉ p := by
  induction cs generalizing p with
  | nil =>
    rw [List.mem_singleton.mp h]
    exact List.not_mem_nil
  | cons c cs ih =>
    by_cases hc : c = '/'
    · rw [hc, parts_cons_slash, List.mem_cons] at h
      rcases h with rfl | h
      · exact List.not_mem_nil
      · exact ih h
    · rw [parts, if_neg hc] at h
      cases hp : parts cs with
      | nil => exact absurd hp (parts_ne_nil cs)
      | cons q qs =>
        rw [hp] at h ih
        rcases List.mem_cons.mp h with rfl | h
        · rw [List.mem_cons, not_or]
          exact ⟨Ne.symm hc, ih List.mem_cons_self⟩
        · exact ih (List.mem_cons_of_mem _ h)

theorem parts_of_notMem {cs : List Char} (h : '/' ∉ cs) : parts cs = [cs] := by
  induction cs with
  | nil => rfl
  | cons c cs ih =>
    rw [List.mem_cons, not_or] at h
    rw [parts, if_neg (Ne.symm h.1), ih h.2]

theorem parts_append_slash (as bs : List Char) : parts (as ++ '/' :: bs) = parts as ++ parts bs := by
  induction as with
  | nil => exact parts_cons_slash bs
  | cons a as ih =>
    rw [List.cons_append, parts, parts, ih]
    by_cases ha : a = '/'
    · rw [if_pos ha, if_pos ha, List.cons_append]
    · rw [if_neg ha, if_neg ha]
      cases hp : parts as with
      | nil => exact absurd hp (parts_ne_nil as)
      | cons p ps => rfl

theorem joined_cons_append (c : Char) (p : Part) (ps : List Part) :
    joined ((c :: p) :: ps) = c :: joined (p :: ps) := by
  cases ps <;> rfl

theorem joined_cons {ps : List Part} (h : ps ≠ []) (p : Part) :
    joined (p :: ps) = p ++ '/' :: joined ps := by
  cases ps with
  | nil => exact absurd rfl h
  | cons q ps => rfl

theorem joined_append_singleton {ps : List Part} (h : ps ≠ []) (p : Part) :
    joined (ps ++ [p]) = joined ps ++ '/' :: p := by
  induction ps with
  | nil => exact absurd rfl h
  | cons q ps ih =>
    cases ps with
    | nil => rfl
    | cons r ps =>
      have hcons := ih (List.cons_ne_nil r ps)
      rw [List.cons_append] at hcons
      rw [List.cons_append, List.cons_append, joined, hcons, joined, List.append_assoc]
      rfl

theorem parts_joined {ps : List Part} (hne : ps ≠ []) (h : ∀ p ∈ ps, '/' ∉ p) :
    parts (joined ps) = ps := by
  induction ps with
  | nil => exact absurd rfl hne
  | cons p ps ih =>
    rw [List.forall_mem_cons] at h
    cases ps with
    | nil => exact parts_of_notMem h.1
    | cons q ps =>
      rw [joined, parts_append_slash, parts_of_notMem h.1, ih (List.cons_ne_nil q ps) h.2]
      rfl

theorem eq_of_slash_suffix {as s t : List Char} (hs : '/' ∉ s) (ht : '/' ∉ t)
    (h : '/' :: t <:+ as ++ '/' :: s) : t = s := by
  rcases List.suffix_or_suffix_of_suffix h (List.suffix_append as ('/' :: s)) with h | h
  · rcases List.suffix_cons_iff.mp h with he | hm
    · exact (List.cons.inj he).2
    · exact absurd (hm.subset List.mem_cons_self) hs
  · rcases List.suffix_cons_iff.mp h with he | hm
    · exact (List.cons.inj he).2.symm
    · exact absurd (hm.subset List.mem_cons_self) ht

theorem withoutLastPart_append {as p : List Char} (h : '/' ∉ p) :
    withoutLastPart (as ++ '/' :: p) = as ++ ['/'] := by
  have hdrop : p.reverse.dropWhile (· != '/') = [] := by
    rw [List.dropWhile_eq_nil_iff]
    intro c hc
    rw [List.mem_reverse] at hc
    exact bne_iff_ne.mpr fun he => h (he ▸ hc)
  rw [withoutLastPart, List.reverse_append, List.reverse_cons, List.append_assoc,
    List.dropWhile_append, hdrop]
  simp

theorem lastPart_append {as p : List Char} (h : '/' ∉ p) : lastPart (as ++ '/' :: p) = p := by
  have htake : (p.reverse ++ '/' :: as.reverse).takeWhile (· != '/') = p.reverse := by
    rw [List.takeWhile_append_of_pos]
    · simp
    · intro c hc
      simpa using fun he : c = '/' => h (List.mem_reverse.mp (he ▸ hc))
  simp [lastPart, htake]

/-! ### Walking -/

def enter (st : List Part) (p : Part) : List Part :=
  if p = [] ∨ p = here then st else if p = above then st.tail else p :: st

/-- Where the parts lead from a place. A place is the way to it from the root, its last part first. -/
def walk (st ps : List Part) : List Part :=
  ps.foldl enter st

@[simp]
theorem walk_nil (st : List Part) : walk st [] = st := rfl

@[simp]
theorem walk_cons (st : List Part) (p : Part) (ps : List Part) :
    walk st (p :: ps) = walk (enter st p) ps := rfl

theorem walk_append (st ps qs : List Part) : walk st (ps ++ qs) = walk (walk st ps) qs :=
  List.foldl_append

def IsStep (p : Part) : Prop := p ≠ [] ∧ p ≠ here

def IsName (p : Part) : Prop := IsStep p ∧ p ≠ above

theorem enter_name {p : Part} (h : IsName p) (st : List Part) : enter st p = p :: st := by
  rw [enter, if_neg (not_or.mpr h.1), if_neg h.2]

@[simp]
theorem enter_nil (st : List Part) : enter st [] = st := if_pos (Or.inl rfl)

@[simp]
theorem enter_above (st : List Part) : enter st above = st.tail := rfl

theorem enter_above_enter {p : Part} (h : IsStep p) {st : List Part} (hp : p ≠ above ∨ st = []) :
    enter (enter st p) above = st := by
  by_cases ha : p = above
  · obtain rfl := hp.resolve_left (not_not.mpr ha)
    rw [ha]
    rfl
  · rw [enter_name ⟨h, ha⟩]
    rfl

theorem walk_names {ps : List Part} (h : ∀ p ∈ ps, IsName p) (st : List Part) :
    walk st ps = ps.reverse ++ st := by
  induction ps generalizing st with
  | nil => rfl
  | cons p ps ih =>
    rw [List.forall_mem_cons] at h
    rw [walk_cons, enter_name h.1, ih h.2, List.reverse_cons, List.append_assoc]
    rfl

theorem walk_filter {keep : Part → Bool} (h : ∀ p, keep p = false → p = [] ∨ p = here)
    (st ps : List Part) : walk st (ps.filter keep) = walk st ps := by
  induction ps generalizing st with
  | nil => rfl
  | cons p ps ih =>
    cases hk : keep p with
    | true => rw [List.filter_cons_of_pos hk, walk_cons, walk_cons, ih]
    | false =>
      rw [List.filter_cons_of_neg (ne_true_of_eq_false hk), ih, walk_cons, enter, if_pos (h p hk)]

/-! ### Leaving out parts -/

theorem filterInner_append (keep : Part → Bool) (p : Part) (ps : List Part) (last : Part) :
    filterInner keep (p :: (ps ++ [last])) = p :: (ps.filter keep ++ [last]) := by
  rw [filterInner, List.dropLast_concat, List.getLast?_concat]
  rfl

theorem dropParent?_eq_some {ps qs : List Part} {last : Part} (hs : ∀ p ∈ ps, IsStep p)
    (h : dropParent? (ps ++ [last]) = some qs) : ∃ rs, qs = rs ++ [last] ∧ (∀ p ∈ rs, IsStep p) ∧
      ∀ st, ps.head? ≠ some above ∨ st = [] → walk st rs = walk st ps := by
  induction ps generalizing qs with
  | nil => cases h
  | cons p ps ih =>
    rw [List.forall_mem_cons] at hs
    cases ps with
    | nil => cases h
    | cons q ps =>
      obtain ⟨r, t, ht⟩ := List.exists_cons_of_ne_nil
        (List.append_ne_nil_of_right_ne_nil ps (List.cons_ne_nil last []))
      rw [List.cons_append, List.cons_append, ht, dropParent?] at h
      split at h
      · rename_i hc
        rw [Bool.and_eq_true, decide_eq_true_iff] at hc
        rw [hc.2, ← ht] at *
        refine ⟨ps, (Option.some.inj h).symm, (List.forall_mem_cons.mp hs.2).2, fun st hst => ?_⟩
        rw [walk_cons, walk_cons, enter_above_enter hs.1]
        exact hst.imp_left fun hne he => hne (congrArg some he)
      · rename_i hc
        rw [Bool.and_eq_true, decide_eq_true_iff, Bool.not_eq_true', List.isEmpty_eq_false_iff,
          not_and] at hc
        obtain ⟨us, hus, rfl⟩ := Option.map_eq_some_iff.mp h
        rw [← ht, ← List.cons_append] at hus
        obtain ⟨rs, rfl, hrs, hwalk⟩ := ih hs.2 hus
        refine ⟨p :: rs, rfl, List.forall_mem_cons.mpr ⟨hs.1, hrs⟩, fun st _ => ?_⟩
        rw [walk_cons, walk_cons]
        exact hwalk _ (Or.inl fun he => hc hs.1.1 (Option.some.inj he))

theorem dropParent?_eq_none {ps : List Part} {last : Part} (hs : ∀ p ∈ ps, IsStep p)
    (h : dropParent? (ps ++ [last]) = none) : above ∉ ps.tail := by
  induction ps with
  | nil => exact List.not_mem_nil
  | cons p ps ih =>
    rw [List.forall_mem_cons] at hs
    cases ps with
    | nil => exact List.not_mem_nil
    | cons q ps =>
      obtain ⟨r, t, ht⟩ := List.exists_cons_of_ne_nil
        (List.append_ne_nil_of_right_ne_nil ps (List.cons_ne_nil last []))
      rw [List.cons_append, List.cons_append, ht, dropParent?] at h
      split at h
      · cases h
      · rename_i hc
        rw [Bool.and_eq_true, decide_eq_true_iff, Bool.not_eq_true', List.isEmpty_eq_false_iff,
          not_and] at hc
        rw [Option.map_eq_none_iff, ← ht, ← List.cons_append] at h
        rw [List.tail_cons, List.mem_cons, not_or]
        exact ⟨Ne.symm (hc hs.1.1), ih hs.2 h⟩

theorem dropParents_eq (ps : List Part) (last : Part) (hs : ∀ p ∈ ps, IsStep p) :
    ∃ rs, dropParents ([] :: (ps ++ [last])) = [] :: (rs ++ [last]) ∧ (∀ p ∈ rs, IsStep p) ∧
      above ∉ rs.tail ∧ walk [] rs = walk [] ps := by
  have hroot : dropParent? ([] :: (ps ++ [last])) = (dropParent? (ps ++ [last])).map ([] :: ·) := by
    cases ps with
    | nil => rfl
    | cons p ps =>
      obtain ⟨r, t, ht⟩ := List.exists_cons_of_ne_nil
        (List.append_ne_nil_of_right_ne_nil ps (List.cons_ne_nil last []))
      rw [List.cons_append, ht]
      rfl
  rw [dropParents]
  split
  · rename_i h
    rw [hroot, Option.map_eq_none_iff] at h
    exact ⟨ps, rfl, hs, dropParent?_eq_none hs h, rfl⟩
  · rename_i qs h
    have hlength := dropParent?_length h
    rw [hroot, Option.map_eq_some_iff] at h
    obtain ⟨us, hus, rfl⟩ := h
    obtain ⟨rs, rfl, hrs, hwalk⟩ := dropParent?_eq_some hs hus
    obtain ⟨ts, heq, hts, hno, hwalk'⟩ := dropParents_eq rs last hrs
    exact ⟨ts, heq, hts, hno, hwalk'.trans (hwalk [] (Or.inr rfl))⟩
termination_by ps.length
decreasing_by simp_all; omega

theorem dropFirstRun_eq_self {ps : List Part} {last : Part} (h : above ∉ ps) :
    dropFirstRun (ps ++ [last]) = ps ++ [last] := by
  induction ps with
  | nil => rfl
  | cons p ps ih =>
    rw [List.mem_cons, not_or] at h
    obtain ⟨r, t, ht⟩ := List.exists_cons_of_ne_nil
      (List.append_ne_nil_of_right_ne_nil ps (List.cons_ne_nil last []))
    rw [List.cons_append, ht, dropFirstRun, if_neg (Ne.symm h.1), ← ht, ih h.2]

theorem dropAbove_eq_self {ps : List Part} {last : Part} (h : above ∉ ps) :
    dropAbove (ps ++ [last]) = ps ++ [last] := by
  cases ps with
  | nil => rfl
  | cons p ps =>
    rw [List.mem_cons, not_or] at h
    obtain ⟨r, t, ht⟩ := List.exists_cons_of_ne_nil
      (List.append_ne_nil_of_right_ne_nil ps (List.cons_ne_nil last []))
    rw [List.cons_append, ht, dropAbove, if_neg (Ne.symm h.1)]

theorem dropFirstRun_eq {ps : List Part} {last : Part} (hs : ∀ p ∈ ps, IsStep p)
    (h : above ∉ ps.tail) : dropFirstRun (ps ++ [last]) = (walk [] ps).reverse ++ [last] := by
  cases ps with
  | nil => rfl
  | cons p ps =>
    rw [List.forall_mem_cons] at hs
    rw [List.tail_cons] at h
    have hnames : ∀ p ∈ ps, IsName p := fun q hq => ⟨hs.2 q hq, fun he => h (he ▸ hq)⟩
    by_cases hp : p = above
    · obtain ⟨r, t, ht⟩ := List.exists_cons_of_ne_nil
        (List.append_ne_nil_of_right_ne_nil ps (List.cons_ne_nil last []))
      rw [walk_cons, hp, enter_above, List.tail_nil, walk_names hnames, List.append_nil,
        List.reverse_reverse, List.cons_append, ht, dropFirstRun, if_pos rfl, ← ht,
        dropAbove_eq_self h]
    · have hall : ∀ q ∈ p :: ps, IsName q := List.forall_mem_cons.mpr ⟨⟨hs.1, hp⟩, hnames⟩
      rw [walk_names hall, List.append_nil, List.reverse_reverse]
      refine dropFirstRun_eq_self ?_
      rw [List.mem_cons, not_or]
      exact ⟨Ne.symm hp, h⟩

theorem collapsedParts_eq (ps : List Part) (last : Part) :
    collapsedParts ([] :: (ps ++ [last])) = [] :: ((walk [] ps).reverse ++ [last]) := by
  have hsteps : ∀ p ∈ (ps.filter (!·.isEmpty)).filter (· != here), IsStep p := by
    intro p hp
    simp only [List.mem_filter, bne_iff_ne, Bool.not_eq_true', List.isEmpty_eq_false_iff] at hp
    exact ⟨hp.1.2, hp.2⟩
  have hwalk : walk [] ((ps.filter (!·.isEmpty)).filter (· != here)) = walk [] ps := by
    rw [walk_filter, walk_filter]
    · intro p hp
      exact Or.inl (List.isEmpty_iff.mp (by simpa using hp))
    · intro p hp
      exact Or.inr (by simpa using hp)
  obtain ⟨rs, hrs, hs, hno, hw⟩ := dropParents_eq _ last hsteps
  rw [collapsedParts, filterInner_append, filterInner_append, hrs]
  change [] :: dropFirstRun (rs ++ [last]) = _
  rw [dropFirstRun_eq hs hno, hw, hwalk]

/-! ### Slashes at the end -/

theorem not_slash_prefix_dropSlashes (cs : List Char) : ¬ ['/'] <+: dropSlashes cs := by
  rintro ⟨t, ht⟩
  have h := List.head?_dropWhile_not (· == '/') cs
  rw [← dropSlashes, ← ht] at h
  cases h

theorem dropFinalSlashes_eq_self {cs : List Char} (h₁ : ¬ ['/'] <:+ cs)
    (h₂ : ¬ ['/', '\n'] <:+ cs) : dropFinalSlashes cs = cs := by
  rw [← List.reverse_prefix] at h₁ h₂
  unfold dropFinalSlashes
  split
  · rename_i rest h
    exact absurd ⟨rest, h.symm⟩ h₂
  · rw [dropSlashes]
    cases h : cs.reverse with
    | nil => exact (List.reverse_eq_nil_iff.mp h).symm
    | cons c ds =>
      rw [h] at h₁
      have hc : c ≠ '/' := fun he => h₁ ⟨ds, by rw [he]; rfl⟩
      rw [List.dropWhile_cons_of_neg (by simpa using hc), ← h, List.reverse_reverse]

theorem not_suffix_dropFinalSlashes (cs : List Char) :
    ¬ ['/', '\n'] <:+ dropFinalSlashes (cs ++ ['/', '\n']) := by
  have h : dropFinalSlashes (cs ++ ['/', '\n']) = (dropSlashes cs.reverse).reverse ++ ['\n'] := by
    rw [dropFinalSlashes, List.reverse_append]
    rfl
  rw [h, ← List.reverse_prefix, List.reverse_append, List.reverse_reverse]
  exact fun hp => not_slash_prefix_dropSlashes _ (List.cons_prefix_cons.mp hp).2

/-! ### Files -/

def rooted (ps : List Part) : String :=
  String.ofList (joined ([] :: ps))

def IsPart (p : Part) : Prop := IsName p ∧ '/' ∉ p

instance (p : Part) : Decidable (IsPart p) :=
  inferInstanceAs (Decidable (((p ≠ [] ∧ p ≠ here) ∧ p ≠ above) ∧ '/' ∉ p))

theorem mem_walk {st ps : List Part} {p : Part} (h : p ∈ walk st ps) : p ∈ st ∨ p ∈ ps := by
  induction ps generalizing st with
  | nil => exact Or.inl h
  | cons q ps ih =>
    rw [List.mem_cons]
    rcases ih h with h | h
    · rw [enter] at h
      split_ifs at h
      · exact Or.inl h
      · exact Or.inl (List.mem_of_mem_tail h)
      · exact (List.mem_cons.mp h).elim (fun he => Or.inr (Or.inl he)) Or.inl
    · exact Or.inr (Or.inr h)

theorem rooted_injective {ps qs : List Part} (hps : ∀ p ∈ ps, '/' ∉ p) (hqs : ∀ p ∈ qs, '/' ∉ p)
    (h : rooted ps = rooted qs) : ps = qs := by
  have hroot : ∀ {rs : List Part}, (∀ p ∈ rs, '/' ∉ p) → parts (joined ([] :: rs)) = [] :: rs :=
    fun hrs => parts_joined (List.cons_ne_nil _ _)
      (List.forall_mem_cons.mpr ⟨List.not_mem_nil, hrs⟩)
  have hjoined := String.ofList_injective h
  have hparts := congrArg parts hjoined
  rw [hroot hps, hroot hqs] at hparts
  exact (List.cons.inj hparts).2

section

variable {cs : List Char} {ps : List Part} {last : Part} (h : parts cs = [] :: (ps ++ [last]))

include h

theorem collapse_ofList : collapse (String.ofList cs) =
    String.ofList (dropFinalSlashes (joined ([] :: ((walk [] ps).reverse ++ [last])))) := by
  rw [collapse, String.toList_ofList, h, collapsedParts_eq]

theorem collapse_eq_rooted (hne : last ≠ []) (hn : last ≠ ['\n']) :
    collapse (String.ofList cs) = rooted ((walk [] ps).reverse ++ [last]) := by
  have hslash : '/' ∉ last := by
    have hm : last ∈ parts cs := by
      rw [h]
      exact List.mem_cons_of_mem _ (List.mem_append_right _ (List.mem_singleton_self _))
    exact slash_notMem_of_mem_parts hm
  rw [collapse_ofList h, rooted, ← List.cons_append,
    joined_append_singleton (List.cons_ne_nil _ _)]
  refine congrArg _ (dropFinalSlashes_eq_self (fun hs => hne ?_) fun hs => hn ?_)
  · exact (eq_of_slash_suffix hslash List.not_mem_nil hs).symm
  · exact (eq_of_slash_suffix hslash (by decide) hs).symm

theorem collapse_eq_rooted_iff (hne : last ≠ []) (hn : last ≠ ['\n']) {target : List Part}
    (ht : ∀ p ∈ target, '/' ∉ p) :
    collapse (String.ofList cs) = rooted target ↔ (walk [] ps).reverse ++ [last] = target := by
  have hslash : ∀ p ∈ (walk [] ps).reverse ++ [last], '/' ∉ p := by
    intro p hp
    rw [List.mem_append, List.mem_reverse] at hp
    have hm : p ∈ ps ++ [last] := by
      rw [List.mem_append]
      exact hp.imp_left fun hw => (mem_walk hw).resolve_left List.not_mem_nil
    have hparts : p ∈ parts cs := by
      rw [h]
      exact List.mem_cons_of_mem _ hm
    exact slash_notMem_of_mem_parts hparts
  rw [collapse_eq_rooted h hne hn]
  exact ⟨rooted_injective hslash ht, congrArg rooted⟩

theorem collapse_ne_rooted (hn : last = ['\n']) (ds : List Part) :
    collapse (String.ofList cs) ≠ rooted (ds ++ [last]) := by
  intro he
  rw [collapse_ofList h, rooted, hn] at he
  have hj := String.ofList_injective he
  rw [← List.cons_append, ← List.cons_append, joined_append_singleton (List.cons_ne_nil _ _),
    joined_append_singleton (List.cons_ne_nil _ _)] at hj
  refine not_suffix_dropFinalSlashes (joined ([] :: (walk [] ps).reverse)) ?_
  rw [hj]
  exact List.suffix_append _ _

end

/-! ### Staying below the root -/

def enter? (st : List Part) (p : Part) : Option (List Part) :=
  if p = above ∧ st = [] then none else some (enter st p)

def walk? (st ps : List Part) : Option (List Part) :=
  ps.foldlM enter? st

theorem walk?_cons {st ps st' : List Part} {p : Part} : walk? st (p :: ps) = some st' ↔
    ¬ (p = above ∧ st = []) ∧ walk? (enter st p) ps = some st' := by
  rw [walk?, List.foldlM_cons, enter?]
  split
  · rename_i h
    exact iff_of_false nofun fun hc => hc.1 h
  · rename_i h
    exact (and_iff_right h).symm

theorem walk?_append {st ps qs st' : List Part} : walk? st (ps ++ qs) = some st' ↔
    ∃ mid, walk? st ps = some mid ∧ walk? mid qs = some st' := by
  rw [walk?, List.foldlM_append]
  exact Option.bind_eq_some_iff

theorem walk_eq_of_walk? {st ps st' : List Part} (h : walk? st ps = some st') : walk st ps = st' := by
  induction ps generalizing st with
  | nil => exact Option.some.inj h
  | cons p ps ih => exact ih (walk?_cons.mp h).2

theorem length_walk {st ps st' far : List Part} (h : walk? st ps = some st')
    (hfar : st.length ≤ far.length) : (walk far ps).length + st.length = st'.length + far.length := by
  induction ps generalizing st far with
  | nil =>
    obtain rfl := Option.some.inj h
    exact Nat.add_comm _ _
  | cons p ps ih =>
    obtain ⟨hroot, h⟩ := walk?_cons.mp h
    have hstep : (enter st p).length ≤ (enter far p).length ∧
        (enter far p).length + st.length = (enter st p).length + far.length := by
      unfold enter
      split_ifs with hskip habove
      · exact ⟨hfar, Nat.add_comm _ _⟩
      · have hpos := List.length_pos_of_ne_nil fun hnil => hroot ⟨habove, hnil⟩
        simp only [List.length_tail]
        omega
      · simp only [List.length_cons]
        omega
    have hrest := ih h hstep.1
    rw [walk_cons]
    omega

end Legible.FilePath
