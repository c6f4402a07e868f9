import Legible.Chain
import Mathlib.Data.List.Basic

/-!
However a chain has been built, its plugins are the stable sort by priority of those that are left, in
the order in which they were added. A run passes a context through those that are enabled for what
they receive.
-/

namespace Legible

namespace Chain

variable {σ ε : Type}

theorem run_of_disabled {c : Chain σ ε} {t : σ} (h : ∀ p ∈ c, p.isEnabled t = false) :
    c.run t = .ok t := by
  rw [run]
  induction c with
  | nil => rfl
  | cons p c ih =>
    rw [List.forall_mem_cons] at h
    rw [List.foldlM_cons, h.1]
    exact ih h.2

/-! ### Stable sorting -/

/-- The second list is the first one in order of priority, plugins of equal priority as they were. -/
structure StableSort (ps qs : List (Plugin σ ε)) : Prop where
  sorted : qs.Pairwise fun p q => p.priority ≤ q.priority
  stable : ∀ k : Int, qs.filter (·.priority == k) = ps.filter (·.priority == k)

variable {ps qs rs : List (Plugin σ ε)}

theorem filter_eq_of_cons {p : Plugin σ ε} (hq : ∀ k : Int,
    (p :: qs).filter (·.priority == k) = (p :: rs).filter (·.priority == k)) (k : Int) :
    qs.filter (·.priority == k) = rs.filter (·.priority == k) := by
  have h := hq k
  simp only [List.filter_cons] at h
  split at h
  · exact (List.cons.inj h).2
  · exact h

theorem priority_le_head {p q : Plugin σ ε} (hs : (q :: rs).Pairwise fun a b => a.priority ≤ b.priority)
    (h : ∀ k : Int, (p :: qs).filter (·.priority == k) = (q :: rs).filter (·.priority == k)) :
    q.priority ≤ p.priority := by
  have hp : p ∈ (q :: rs).filter (·.priority == p.priority) := by
    rw [← h]
    simp
  rcases List.mem_cons.mp (List.mem_filter.mp hp).1 with rfl | hm
  · exact Int.le_refl _
  · exact List.rel_of_pairwise_cons hs hm

theorem eq_of_sorted (hqs : qs.Pairwise fun p q => p.priority ≤ q.priority)
    (hrs : rs.Pairwise fun p q => p.priority ≤ q.priority)
    (h : ∀ k : Int, qs.filter (·.priority == k) = rs.filter (·.priority == k)) : qs = rs := by
  induction qs generalizing rs with
  | nil =>
    cases rs with
    | nil => rfl
    | cons r rs => simpa using h r.priority
  | cons q qs ih =>
    cases rs with
    | nil => simpa using h q.priority
    | cons r rs =>
      have hpriority : q.priority = r.priority :=
        Int.le_antisymm (priority_le_head hqs fun k => (h k).symm) (priority_le_head hrs h)
      have hhead := h q.priority
      simp only [List.filter_cons, ← hpriority, beq_self_eq_true, if_true] at hhead
      obtain rfl := (List.cons.inj hhead).1
      rw [ih hqs.of_cons hrs.of_cons (filter_eq_of_cons h)]

theorem StableSort.unique (hq : StableSort ps qs) (hr : StableSort ps rs) : qs = rs :=
  eq_of_sorted hq.sorted hr.sorted fun k => (hq.stable k).trans (hr.stable k).symm

theorem stableSort_byPriority (ps : List (Plugin σ ε)) : StableSort ps (byPriority ps) := by
  have htrans : ∀ p q r : Plugin σ ε, decide (p.priority ≤ q.priority) = true →
      decide (q.priority ≤ r.priority) = true → decide (p.priority ≤ r.priority) = true := by
    simp only [decide_eq_true_eq]
    omega
  have htotal : ∀ p q : Plugin σ ε,
      (decide (p.priority ≤ q.priority) || decide (q.priority ≤ p.priority)) = true := by
    simp only [Bool.or_eq_true, decide_eq_true_eq]
    omega
  constructor
  · simpa [byPriority] using List.pairwise_mergeSort htrans htotal ps
  · intro k
    -- Plugins of one priority are a sorted sublist, and as many before as after.
    have hequal : (ps.filter (·.priority == k)).Pairwise
        fun p q => decide (p.priority ≤ q.priority) = true := by
      apply List.pairwise_of_forall_mem_list
      intro p hp q hq
      simp only [List.mem_filter, beq_iff_eq] at hp hq
      simp [hp.2, hq.2]
    have hsub := List.sublist_mergeSort htrans htotal hequal List.filter_sublist
    have hfilter := hsub.filter (·.priority == k)
    rw [List.filter_filter] at hfilter
    simp only [Bool.and_self] at hfilter
    refine (hfilter.eq_of_length ?_).symm
    exact (((List.mergeSort_perm ps _).filter _).length_eq).symm

theorem byPriority_eq_iff : byPriority ps = qs ↔ StableSort ps qs := by
  constructor
  · rintro rfl
    exact stableSort_byPriority ps
  · exact (stableSort_byPriority ps).unique

theorem byPriority_congr
    (h : ∀ k : Int, ps.filter (·.priority == k) = qs.filter (·.priority == k)) :
    byPriority ps = byPriority qs := by
  apply byPriority_eq_iff.mpr
  constructor
  · exact (stableSort_byPriority qs).sorted
  · intro k
    rw [(stableSort_byPriority qs).stable, h]

theorem filter_byPriority_append (ps qs : List (Plugin σ ε)) (k : Int) :
    (byPriority ps ++ byPriority qs).filter (·.priority == k) =
      (ps ++ qs).filter (·.priority == k) := by
  rw [List.filter_append, List.filter_append, (stableSort_byPriority ps).stable,
    (stableSort_byPriority qs).stable]

@[simp]
theorem byPriority_nil : byPriority ([] : List (Plugin σ ε)) = [] := by
  simp [byPriority]

@[simp]
theorem byPriority_singleton (p : Plugin σ ε) : byPriority [p] = [p] := by
  simp [byPriority]

theorem add_byPriority (ps : List (Plugin σ ε)) (p : Plugin σ ε) :
    add (byPriority ps) p = byPriority (ps ++ [p]) := by
  apply byPriority_congr
  simpa using filter_byPriority_append ps [p]

theorem remove_byPriority (ps : List (Plugin σ ε)) (name : String) :
    remove (byPriority ps) name = byPriority (ps.filter (·.name != name)) := by
  apply Eq.symm
  apply byPriority_eq_iff.mpr
  constructor
  · exact (stableSort_byPriority ps).sorted.filter _
  · intro k
    rw [remove, List.filter_comm, (stableSort_byPriority ps).stable, List.filter_comm]

theorem union_byPriority (ps qs : List (Plugin σ ε)) :
    union (byPriority ps) (byPriority qs) = byPriority (ps ++ qs) :=
  byPriority_congr (filter_byPriority_append ps qs)

theorem union_assoc (a b c : Chain σ ε) : (a.union b).union c = a.union (b.union c) := by
  apply byPriority_congr
  intro k
  simp only [union, List.filter_append, (stableSort_byPriority _).stable, List.append_assoc]

/-! ### Building chains -/

inductive Building (σ ε : Type) where
  | empty
  | add (chain : Nat) (p : Plugin σ ε)
  | remove (chain : Nat) (name : String)
  | union (first second : Nat)

namespace Building

def changed? : Building σ ε → Option Nat
  | .add i _ | .remove i _ => some i
  | _ => none

def apply (chains : List (Chain σ ε)) : Building σ ε → List (Chain σ ε)
  | .empty => chains ++ [[]]
  | .add i p => chains.modify i (·.add p)
  | .remove i name => chains.modify i (·.remove name)
  | .union i j => chains ++ [(chains[i]?.getD []).union (chains[j]?.getD [])]

def keep (kept : List (List (Plugin σ ε))) : Building σ ε → List (List (Plugin σ ε))
  | .empty => kept ++ [[]]
  | .add i p => kept.modify i (· ++ [p])
  | .remove i name => kept.modify i fun ps => ps.filter (·.name != name)
  | .union i j => kept ++ [kept[i]?.getD [] ++ kept[j]?.getD []]

theorem apply_map_byPriority (kept : List (List (Plugin σ ε))) (b : Building σ ε) :
    b.apply (kept.map byPriority) = (b.keep kept).map byPriority := by
  have hget : ∀ i : Nat, ((kept.map byPriority)[i]?).getD [] = byPriority (kept[i]?.getD []) := by
    intro i
    rw [List.getElem?_map]
    cases kept[i]? <;> simp
  have hmodify : ∀ (i : Nat) (f g : List (Plugin σ ε) → List (Plugin σ ε)),
      (∀ ps, f (byPriority ps) = byPriority (g ps)) →
        (kept.map byPriority).modify i f = (kept.modify i g).map byPriority := by
    intro i f g hfg
    apply List.ext_getElem?
    intro j
    simp only [List.getElem?_modify, List.getElem?_map]
    cases kept[j]? with
    | none => simp
    | some ps => by_cases h : i = j <;> simp [h, hfg]
  cases b with
  | empty => simp [apply, keep]
  | add i p => exact hmodify i _ _ fun ps => add_byPriority ps p
  | remove i name => exact hmodify i _ _ fun ps => remove_byPriority ps name
  | union i j =>
    rw [apply, keep, hget, hget, union_byPriority]
    simp

theorem getElem?_apply (chains : List (Chain σ ε)) {b : Building σ ε} {k : Nat}
    (hk : k < chains.length) (hb : b.changed? ≠ some k) : (b.apply chains)[k]? = chains[k]? := by
  cases b with
  | empty => exact List.getElem?_append_left hk
  | union i j => exact List.getElem?_append_left hk
  | add i p =>
    have hik : i ≠ k := fun h => hb (congrArg some h)
    simp [apply, hik]
  | remove i name =>
    have hik : i ≠ k := fun h => hb (congrArg some h)
    simp [apply, hik]

theorem foldl_apply (history : List (Building σ ε)) (kept : List (List (Plugin σ ε))) :
    history.foldl apply (kept.map byPriority) = (history.foldl keep kept).map byPriority := by
  induction history generalizing kept with
  | nil => rfl
  | cons b history ih => rw [List.foldl_cons, List.foldl_cons, apply_map_byPriority, ih]

end Building

/-! ### Runs -/

/-- A context passes through plugins: those that process it, each with what it receives, and the
outcome. -/
inductive Passes : List (Plugin σ ε) → σ → List (Plugin σ ε × σ) → Except ε σ → Prop
  | done {s} : Passes [] s [] (.ok s)
  | skip {p ps s log r} (off : p.isEnabled s = false) (rest : Passes ps s log r) :
      Passes (p :: ps) s log r
  | process {p ps s s' log r} (on : p.isEnabled s = true) (ok : p.process s = .ok s')
      (rest : Passes ps s' log r) : Passes (p :: ps) s ((p, s) :: log) r
  | fail {p ps s e} (on : p.isEnabled s = true) (error : p.process s = .error e) :
      Passes (p :: ps) s [(p, s)] (.error e)

theorem run_cons (p : Plugin σ ε) (c : Chain σ ε) (s : σ) :
    run (p :: c) s = if p.isEnabled s then (p.process s).bind c.run else c.run s := by
  rw [run, List.foldlM_cons]
  split <;> rfl

def recording (p : Plugin σ ε) :
    Plugin (σ × List (Plugin σ ε × σ)) (ε × List (Plugin σ ε × σ)) where
  name := p.name
  priority := p.priority
  isEnabled x := p.isEnabled x.1
  process x :=
    match p.process x.1 with
    | .ok s => .ok (s, x.2 ++ [(p, x.1)])
    | .error e => .error (e, x.2 ++ [(p, x.1)])

def noted (r : Except ε σ) (log : List (Plugin σ ε × σ)) :
    Except (ε × List (Plugin σ ε × σ)) (σ × List (Plugin σ ε × σ)) :=
  match r with
  | .ok s => .ok (s, log)
  | .error e => .error (e, log)

theorem exists_passes (c : Chain σ ε) (s : σ) (before : List (Plugin σ ε × σ)) :
    ∃ log, Passes c s log (c.run s) ∧
      run (c.map recording) (s, before) = noted (c.run s) (before ++ log) := by
  induction c generalizing s before with
  | nil => exact ⟨[], .done, by rw [List.append_nil]; rfl⟩
  | cons p c ih =>
    rw [List.map_cons, run_cons, run_cons]
    by_cases hon : p.isEnabled s = true
    · have hon' : (recording p).isEnabled (s, before) = true := hon
      rw [if_pos hon, if_pos hon']
      cases hp : p.process s with
      | ok s' =>
        obtain ⟨log, hpasses, hrun⟩ := ih s' (before ++ [(p, s)])
        refine ⟨(p, s) :: log, .process hon hp hpasses, ?_⟩
        rw [List.append_assoc] at hrun
        simp only [recording, hp]
        exact hrun
      | error e =>
        refine ⟨[(p, s)], .fail hon hp, ?_⟩
        simp only [recording, hp]
        rfl
    · have hoff : (recording p).isEnabled (s, before) = false := Bool.of_not_eq_true hon
      rw [if_neg hon, hoff]
      obtain ⟨log, hpasses, hrun⟩ := ih s before
      exact ⟨log, .skip hoff hpasses, hrun⟩

theorem Passes.unique {c : Chain σ ε} {s : σ} {log log' : List (Plugin σ ε × σ)} {r r' : Except ε σ}
    (h : Passes c s log r) (h' : Passes c s log' r') : log = log' ∧ r = r' := by
  induction h generalizing log' with
  | done =>
    cases h'
    exact ⟨rfl, rfl⟩
  | skip off _ ih =>
    cases h' with
    | skip _ rest => exact ih rest
    | process on _ _ => simp [off] at on
    | fail on _ => simp [off] at on
  | process on ok _ ih =>
    cases h' with
    | skip off _ => simp [off] at on
    | fail _ error => simp [ok] at error
    | process _ ok' rest =>
      obtain rfl := Except.ok.inj (ok.symm.trans ok')
      obtain ⟨rfl, rfl⟩ := ih rest
      exact ⟨rfl, rfl⟩
  | fail on error =>
    cases h' with
    | skip off _ => simp [off] at on
    | process _ ok _ => simp [ok] at error
    | fail _ error' =>
      obtain rfl := Except.error.inj (error.symm.trans error')
      exact ⟨rfl, rfl⟩

/-! ### Chains of any history -/

/-- Chains that have been built in any way are stably sorted, no step changes a chain that it does not
name, and a run processes just what is enabled when its turn comes. -/
theorem built_stable (history : List (Building σ ε)) :
    let chains := history.foldl Building.apply []
    let kept := history.foldl Building.keep []
    chains.length = kept.length ∧
      (∀ (i : Nat) c, chains[i]? = some c → ∃ ps, kept[i]? = some ps ∧ ∀ qs, StableSort ps qs ↔ qs = c) ∧
      (∀ c ∈ chains, ∀ s, ∃ log, run (c.map recording) (s, []) = noted (c.run s) log ∧
        ∀ log' r, Passes c s log' r ↔ log' = log ∧ r = c.run s) ∧
      (∀ (b : Building σ ε) (k : Nat), k < chains.length → b.changed? ≠ some k →
        (b.apply chains)[k]? = chains[k]?) ∧
      (∀ (i j : Nat) a b, chains[i]? = some a → chains[j]? = some b →
        (Building.union i j).apply chains = chains ++ [a.union b]) ∧
      ∀ a ∈ chains, ∀ b ∈ chains, ∀ c ∈ chains, (a.union b).union c = a.union (b.union c) := by
  intro chains kept
  have hchains : chains = kept.map byPriority := Building.foldl_apply history []
  refine ⟨by rw [hchains, List.length_map], ?_, ?_, ?_, ?_, ?_⟩
  · intro i c hc
    rw [hchains, List.getElem?_map, Option.map_eq_some_iff] at hc
    obtain ⟨ps, hps, rfl⟩ := hc
    exact ⟨ps, hps, fun qs => by rw [← byPriority_eq_iff, eq_comm]⟩
  · intro c _ s
    obtain ⟨log, hpasses, hrun⟩ := exists_passes c s []
    refine ⟨log, hrun, fun log' r => ⟨fun h => h.unique hpasses, ?_⟩⟩
    rintro ⟨rfl, rfl⟩
    exact hpasses
  · exact fun b k hk hb => Building.getElem?_apply chains hk hb
  · intro i j a b ha hb
    simp [Building.apply, ha, hb]
  · exact fun a _ b _ c _ => union_assoc a b c

def signer (name : String) (priority : Int) : Plugin (List String) String where
  name := name
  priority := priority
  isEnabled s := !s.contains name
  process s := .ok (s ++ [name])

def sharedHistory : List (Building (List String) String) :=
  [.empty, .add 0 (signer "late" 2), .add 0 (signer "early" 1), .empty, .add 1 (signer "other" 1),
    .union 0 1, .remove 0 "early", .add 0 (signer "first" 0)]

theorem built_stable_shared :
    let chains := sharedHistory.foldl Building.apply []
    let whole : Chain (List String) String := [signer "early" 1, signer "other" 1, signer "late" 2]
    chains.length = 3 ∧ chains[0]? = some [signer "first" 0, signer "late" 2] ∧
      chains[2]? = some whole ∧
      (∃ log, run (whole.map recording) ([], []) = noted (.ok ["early", "other", "late"]) log ∧
        Passes whole [] log (.ok ["early", "other", "late"])) ∧
      ((Building.union 2 0).apply chains)[2]? = chains[2]? ∧
      (Building.union 2 0).apply chains =
        chains ++ [union whole [signer "first" 0, signer "late" 2]] ∧
      (whole.union whole).union whole = whole.union (whole.union whole) := by
  intro chains whole
  obtain ⟨hlength, hsorted, hrun, hframe, hunion, hassoc⟩ := built_stable sharedHistory
  have hfirst : chains[0]? = some [signer "first" 0, signer "late" 2] := by
    obtain ⟨ps, hps, hstable⟩ := hsorted 0 _ rfl
    obtain rfl : ps = [signer "late" 2, signer "first" 0] := (Option.some.inj hps).symm
    refine congrArg some ((hstable _).mp ⟨by simp [signer], fun k => ?_⟩).symm
    obtain rfl | h0 := eq_or_ne k 0
    · rfl
    · obtain rfl | h2 := eq_or_ne k 2
      · rfl
      · simp [signer, h0.symm, h2.symm]
  have hwhole : chains[2]? = some whole := by
    obtain ⟨ps, hps, hstable⟩ := hsorted 2 _ rfl
    obtain rfl : ps = [signer "late" 2, signer "early" 1, signer "other" 1] :=
      (Option.some.inj hps).symm
    refine congrArg some ((hstable _).mp ⟨by simp [whole, signer], fun k => ?_⟩).symm
    obtain rfl | h1 := eq_or_ne k 1
    · rfl
    · obtain rfl | h2 := eq_or_ne k 2
      · rfl
      · simp [whole, signer, h1.symm, h2.symm]
  have hmem : whole ∈ chains := List.mem_of_getElem? hwhole
  obtain ⟨log, hlog, hpasses⟩ := hrun whole hmem []
  have hresult : run whole [] = .ok ["early", "other", "late"] := by decide
  rw [hresult] at hlog hpasses
  exact ⟨hlength, hfirst, hwhole, ⟨log, hlog, (hpasses log _).mpr ⟨rfl, rfl⟩⟩,
    hframe (.union 2 0) 2 (by rw [hlength]; decide) (by simp [Building.changed?]),
    hunion 2 0 whole _ hwhole hfirst, hassoc whole hmem whole hmem whole hmem⟩

end Chain

end Legible
