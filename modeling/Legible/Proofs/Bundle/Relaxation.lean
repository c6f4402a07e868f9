import Legible.Proofs.Bundle.Seeds
import Mathlib.Data.List.Infix
import Mathlib.Logic.Function.Iterate
import Mathlib.Logic.Relation

/-!
Following the dependencies of a bundle: the rounds come to an end, and then exactly the ids that
can be reached have a name, and exactly the inconsistent ones a warning.
-/

namespace Legible.Bundle

/-! ### One dependency -/

variable {absolute : List Id} {r s : Resolution} {e : Edge}

def Resolution.Warned (r : Resolution) (id : Id) : Prop :=
  ∃ w ∈ r.warnings, Key.of w.target = Key.of id

inductive Followed (absolute : List Id) (r : Resolution) (e : Edge) : Resolution → Prop
  | skip : containsId absolute e.target = true ∨ r.names.get? e.parent = none →
      Followed absolute r e r
  | name {parent : String} : containsId absolute e.target = false →
      r.names.get? e.parent = some parent → r.names.get? e.target = none →
      Followed absolute r e
        { r with names := r.names ++ [(e.target, requiredName parent e.required)] }
  | keep {parent kept : String} : r.names.get? e.parent = some parent →
      r.names.get? e.target = some kept →
      kept = requiredName parent e.required ∨ r.Warned e.target → Followed absolute r e r
  | warn {parent kept : String} : containsId absolute e.target = false →
      r.names.get? e.parent = some parent → r.names.get? e.target = some kept →
      kept ≠ requiredName parent e.required → ¬ r.Warned e.target →
      Followed absolute r e
        { r with warnings :=
          r.warnings ++ [⟨e.target, parent, requiredName parent e.required, kept⟩] }

theorem warned_iff {id : Id} : r.warnings.any (sameId ·.target id) = true ↔ r.Warned id := by
  simp only [List.any_eq_true, sameId_iff, Resolution.Warned]

theorem followed (absolute : List Id) (r : Resolution) (e : Edge) :
    Followed absolute r e (follow absolute r e) := by
  unfold follow
  split
  · rename_i ha
    exact .skip (Or.inl ha)
  · rename_i ha
    rw [Bool.not_eq_true] at ha
    split
    · rename_i hp
      exact .skip (Or.inr hp)
    · rename_i parent hp
      dsimp only
      split
      · rename_i ht
        rw [Table.insert_of_notMem (Table.get?_eq_none_iff.mp ht)]
        exact .name ha hp ht
      · rename_i kept ht
        split
        · rename_i hk
          rw [Bool.or_eq_true, decide_eq_true_iff, warned_iff] at hk
          exact .keep hp ht hk
        · rename_i hk
          rw [Bool.or_eq_true, decide_eq_true_iff, warned_iff, not_or] at hk
          exact .warn ha hp ht hk.1 hk.2

theorem Followed.names_grow (h : Followed absolute r e s) : r.names <+: s.names := by
  cases h with
  | name => exact List.prefix_append _ _
  | _ => exact List.prefix_refl _

theorem Followed.warnings_grow (h : Followed absolute r e s) : r.warnings <+: s.warnings := by
  cases h with
  | warn => exact List.prefix_append _ _
  | _ => exact List.prefix_refl _

/-! ### Rounds -/

theorem rounds_induction {P : Resolution → Prop} {es : List Edge}
    (step : ∀ r e s, e ∈ es → Followed absolute r e s → P r → P s) (h : P r) (n : Nat) :
    P ((round absolute es)^[n] r) := by
  induction n with
  | zero => exact h
  | succ n ih =>
    rw [Function.iterate_succ_apply']
    exact List.foldlRecOn es (follow absolute) ih fun r hr e he =>
      step r e _ he (followed absolute r e) hr

theorem names_prefix_foldl (absolute : List Id) (es : List Edge) (r : Resolution) :
    r.names <+: (es.foldl (follow absolute) r).names :=
  List.foldlRecOn es (follow absolute) (motive := fun s => r.names <+: s.names)
    (List.prefix_refl _) fun s hs e _ => hs.trans (followed absolute s e).names_grow

theorem warnings_prefix_foldl (absolute : List Id) (es : List Edge) (r : Resolution) :
    r.warnings <+: (es.foldl (follow absolute) r).warnings :=
  List.foldlRecOn es (follow absolute) (motive := fun s => r.warnings <+: s.warnings)
    (List.prefix_refl _) fun s hs e _ => hs.trans (followed absolute s e).warnings_grow

theorem names_prefix_take (absolute : List Id) (es : List Edge) (j : Nat) (r : Resolution) :
    ((es.take j).foldl (follow absolute) r).names <+: (round absolute es r).names := by
  have hp := names_prefix_foldl absolute (es.drop j)
    ((es.take j).foldl (follow absolute) r)
  rwa [← List.foldl_append, List.take_append_drop] at hp

theorem names_prefix_iterate (es : List Edge) {m n : Nat} (h : m ≤ n) (r : Resolution) :
    ((round absolute es)^[m] r).names <+: ((round absolute es)^[n] r).names := by
  induction h with
  | refl => exact List.prefix_refl _
  | step _ ih =>
    rw [Function.iterate_succ_apply']
    exact ih.trans (names_prefix_foldl absolute es _)

theorem Resolution.Warned.mono {id : Id} (h : r.Warned id) (hp : r.warnings <+: s.warnings) :
    s.Warned id := by
  obtain ⟨w, hw, he⟩ := h
  exact ⟨w, hp.subset hw, he⟩

def Done (absolute : List Id) (r : Resolution) (e : Edge) : Prop :=
  containsId absolute e.target = false → ∀ parent, r.names.get? e.parent = some parent →
    ∃ kept, r.names.get? e.target = some kept ∧
      (kept = requiredName parent e.required ∨ r.Warned e.target)

theorem done_of_round {es : List Edge} (h : (round absolute es r).names = r.names) :
    ∀ e ∈ es, Done absolute (round absolute es r) e := by
  unfold round at h ⊢
  induction es generalizing r with
  | nil => exact fun e he => absurd he List.not_mem_nil
  | cons e es ih =>
    rw [List.foldl_cons] at h ⊢
    have hnames := names_prefix_foldl absolute es (follow absolute r e)
    have hwarnings := warnings_prefix_foldl absolute es (follow absolute r e)
    have hf := followed absolute r e
    -- Nothing is named, so nothing is named by the first dependency.
    have heq : (follow absolute r e).names = r.names := by
      rw [h] at hnames
      exact hnames.eq_of_length (Nat.le_antisymm hnames.length_le hf.names_grow.length_le)
    refine List.forall_mem_cons.mpr ⟨fun ha parent hp => ?_, ih (h.trans heq.symm)⟩
    rw [h] at hp ⊢
    generalize follow absolute r e = s at hf heq hwarnings
    cases hf with
    | skip hs => 
      rw [ha, hp] at hs
      simp at hs
    | name => simp at heq
    | keep hp' ht hk =>
      obtain rfl := Option.some.inj (hp.symm.trans hp')
      exact ⟨_, ht, hk.imp_right fun hw => hw.mono hwarnings⟩
    | warn _ hp' ht =>
      refine ⟨_, ht, Or.inr (Resolution.Warned.mono ?_ hwarnings)⟩
      exact ⟨_, List.mem_append_right _ (List.mem_singleton_self _), rfl⟩

theorem round_cases (absolute : List Id) (es : List Edge) (r : Resolution) :
    (round absolute es r).names = r.names ∨ ∃ e ∈ es, Key.of e.target ∉ r.names.keys ∧
      Key.of e.target ∈ (round absolute es r).names.keys := by
  refine List.foldlRecOn es (follow absolute) (motive := fun s => s.names = r.names ∨
    ∃ e ∈ es, Key.of e.target ∉ r.names.keys ∧ Key.of e.target ∈ s.names.keys) (Or.inl rfl) ?_
  rintro s (hs | ⟨x, hx, hno, hyes⟩) e he
  · have hf := followed absolute s e
    generalize follow absolute s e = u at hf
    cases hf with
    | name _ _ ht =>
      refine Or.inr ⟨e, he, hs ▸ Table.get?_eq_none_iff.mp ht, ?_⟩
      rw [Table.keys_append]
      exact List.mem_append_right _ (List.mem_singleton_self _)
    | _ => exact Or.inl hs
  · obtain ⟨t, ht⟩ := (followed absolute s e).names_grow
    refine Or.inr ⟨x, hx, hno, ?_⟩
    rw [← ht, Table.keys_append]
    exact List.mem_append_left _ hyes

def unnamed (es : List Edge) (r : Resolution) : Nat :=
  es.countP fun e => Key.of e.target ∉ r.names.keys

theorem unnamed_lt {es : List Edge} (hp : r.names <+: s.names) {e : Edge} (he : e ∈ es)
    (hno : Key.of e.target ∉ r.names.keys) (hyes : Key.of e.target ∈ s.names.keys) :
    unnamed es s < unnamed es r := by
  obtain ⟨t, ht⟩ := hp
  have hmono : ∀ x : Edge, Key.of x.target ∉ s.names.keys → Key.of x.target ∉ r.names.keys := by
    intro x hx hm
    rw [← ht, Table.keys_append] at hx
    exact hx (List.mem_append_left _ hm)
  obtain ⟨l₁, l₂, rfl⟩ := List.append_of_mem he
  have h₁ : unnamed l₁ s ≤ unnamed l₁ r :=
    List.countP_mono_left fun x _ => by simpa using hmono x
  have h₂ : unnamed l₂ s ≤ unnamed l₂ r :=
    List.countP_mono_left fun x _ => by simpa using hmono x
  simp only [unnamed, List.countP_append, List.countP_cons, hno, hyes, not_true, not_false_iff,
    decide_true, decide_false, if_true, Bool.false_eq_true, if_false] at h₁ h₂ ⊢
  omega

structure Rounds (absolute : List Id) (es : List Edge) (start final : Resolution) (n : Nat) :
    Prop where
  eq : final = (round absolute es)^[n + 1] start
  last : final.names = ((round absolute es)^[n] start).names
  before : ∀ m < n, ((round absolute es)^[m + 1] start).names ≠ ((round absolute es)^[m] start).names

theorem exists_rounds {es : List Edge} {fuel : Nat} (h : unnamed es r < fuel) :
    ∃ n, Rounds absolute es r (settle absolute es fuel r) n := by
  induction fuel generalizing r with
  | zero => exact absurd h (Nat.not_lt_zero _)
  | succ fuel ih =>
    have hp : r.names <+: (round absolute es r).names := names_prefix_foldl absolute es r
    rw [settle]
    split
    · rename_i hl
      exact ⟨0, rfl, (hp.eq_of_length hl.symm).symm, fun m hm => absurd hm (Nat.not_lt_zero _)⟩
    · rename_i hl
      have hne : (round absolute es r).names ≠ r.names := fun he => hl (by rw [he])
      obtain ⟨e, he, hno, hyes⟩ := (round_cases absolute es r).resolve_left hne
      have hlt := unnamed_lt hp he hno hyes
      obtain ⟨n, hn⟩ := ih (r := round absolute es r) (by omega)
      refine ⟨n + 1, hn.eq, hn.last, fun m hm => ?_⟩
      cases m with
      | zero => exact hne
      | succ m => exact hn.before m (by omega)

/-! ### What has been found out -/

namespace Layout

variable (l : Layout)

def Leads (a b : Key) : Prop :=
  ∃ e ∈ l.dependencyEdges, Key.of e.parent = a ∧ Key.of e.target = b

def Reachable (k : Key) : Prop :=
  ∃ a, l.IsSeed a ∧ Relation.ReflTransGen l.Leads a k

def Names (names : Table String) (id : Id) (name : String) : Prop :=
  ∃ e ∈ l.dependencyEdges, Key.of e.target = Key.of id ∧ ∃ before : Table String, before <+: names ∧
    Key.of id ∉ before.keys ∧ ∃ parent, before.get? e.parent = some parent ∧
      name = requiredName parent e.required

def Inconsistent (names : Table String) (w : Warning) : Prop :=
  ∃ e ∈ l.dependencyEdges, w.target = e.target ∧ ¬ l.IsAbsolute (Key.of e.target) ∧
    names.get? e.parent = some w.parentName ∧ w.rejected = requiredName w.parentName e.required ∧
      names.get? e.target = some w.kept ∧ w.kept ≠ w.rejected

structure Derived (r : Resolution) : Prop where
  nodup : r.names.keys.Nodup
  seeded : l.seeds.names <+: r.names
  reachable : ∀ k ∈ r.names.keys, l.Reachable k
  added : ∀ id name, Key.of id ∉ l.seeds.names.keys → r.names.get? id = some name →
    l.Names r.names id name
  warned : ∀ w ∈ r.warnings, l.Inconsistent r.names w
  once : (r.warnings.map fun w => Key.of w.target).Nodup

def start : Resolution := ⟨l.seeds.names, []⟩

def relaxed : Resolution :=
  settle l.seeds.absolute l.dependencyEdges (l.dependencyEdges.length + 1) l.start

variable {l}

theorem Names.mono {names names' : Table String} {id : Id} {name : String}
    (h : l.Names names id name) (hp : names <+: names') : l.Names names' id name := by
  obtain ⟨e, he, ht, before, hb, hrest⟩ := h
  exact ⟨e, he, ht, before, hb.trans hp, hrest⟩

theorem Inconsistent.mono {names names' : Table String} {w : Warning} (h : l.Inconsistent names w)
    (hp : names <+: names') : l.Inconsistent names' w := by
  obtain ⟨e, he, ht, ha, hparent, hr, hk, hne⟩ := h
  exact ⟨e, he, ht, ha, Table.get?_of_prefix hp hparent, hr, Table.get?_of_prefix hp hk, hne⟩

theorem Reachable.target {e : Edge} (h : l.Reachable (Key.of e.parent))
    (he : e ∈ l.dependencyEdges) : l.Reachable (Key.of e.target) := by
  obtain ⟨a, ha, hp⟩ := h
  exact ⟨a, ha, hp.tail ⟨e, he, rfl, rfl⟩⟩

theorem Derived.name {e : Edge} (h : l.Derived r) (he : e ∈ l.dependencyEdges) {parent : String}
    (hp : r.names.get? e.parent = some parent) (ht : r.names.get? e.target = none) :
    l.Derived { r with names := r.names ++ [(e.target, requiredName parent e.required)] } := by
  have hprefix := List.prefix_append r.names [(e.target, requiredName parent e.required)]
  have hnew : Key.of e.target ∉ r.names.keys := Table.get?_eq_none_iff.mp ht
  refine ⟨?_, h.seeded.trans hprefix, fun k hk => ?_, fun id name hid hname => ?_,
    fun w hw => (h.warned w hw).mono hprefix, h.once⟩
  · rw [Table.keys_append, List.nodup_append]
    refine ⟨h.nodup, List.nodup_singleton _, fun a ha b hb hab => hnew ?_⟩
    obtain rfl : b = Key.of e.target := List.mem_singleton.mp hb
    exact hab ▸ ha
  · rw [Table.keys_append, List.mem_append] at hk
    rcases hk with hk | hk
    · exact h.reachable k hk
    · rw [List.mem_singleton.mp hk]
      exact (h.reachable _ (Table.mem_keys_of_get? hp)).target he
  · rw [Table.get?_append] at hname
    cases hold : r.names.get? id with
    | some old =>
      rw [hold, Option.some_or] at hname
      obtain rfl := Option.some.inj hname
      exact (h.added id old hid hold).mono hprefix
    | none =>
      rw [hold, Option.none_or, Table.get?_cons] at hname
      split at hname
      · rename_i hsame
        refine ⟨e, he, hsame, r.names, hprefix, Table.get?_eq_none_iff.mp hold, parent, hp, ?_⟩
        exact (Option.some.inj hname).symm
      · cases hname

section

variable (hn : l.modules.keys.Nodup)

include hn

theorem derived_start : l.Derived l.start where
  nodup := nodup_seeds hn
  seeded := List.prefix_refl _
  reachable k hk := ⟨k, (mem_seeds hn).mp hk, .refl⟩
  added _ _ hid h := absurd (Table.mem_keys_of_get? h) hid
  warned _ hw := absurd hw List.not_mem_nil
  once := List.nodup_nil

theorem Derived.warn {e : Edge} (h : l.Derived r) (he : e ∈ l.dependencyEdges)
    (ha : containsId l.seeds.absolute e.target = false) {parent kept : String}
    (hp : r.names.get? e.parent = some parent) (ht : r.names.get? e.target = some kept)
    (hne : kept ≠ requiredName parent e.required) (hw : ¬ r.Warned e.target) :
    l.Derived { r with warnings :=
      r.warnings ++ [⟨e.target, parent, requiredName parent e.required, kept⟩] } := by
  refine ⟨h.nodup, h.seeded, h.reachable, h.added, fun w hw => ?_, ?_⟩
  · rcases List.mem_append.mp hw with hw | hw
    · exact h.warned w hw
    · obtain rfl := List.mem_singleton.mp hw
      refine ⟨e, he, rfl, ?_, hp, rfl, ht, hne⟩
      rw [← containsId_absolute hn, ha]
      exact Bool.false_ne_true
  · rw [List.map_append, List.nodup_append]
    refine ⟨h.once, List.nodup_singleton _, fun a ha b hb hab => hw ?_⟩
    obtain ⟨w, hm, rfl⟩ := List.mem_map.mp ha
    exact ⟨w, hm, hab.trans (List.mem_singleton.mp hb)⟩

theorem Derived.followed {e : Edge} (h : l.Derived r) (he : e ∈ l.dependencyEdges)
    (hf : Followed l.seeds.absolute r e s) : l.Derived s := by
  cases hf with
  | skip => exact h
  | name _ hp ht => exact h.name he hp ht
  | keep => exact h
  | warn ha hp ht hne hw => exact h.warn hn he ha hp ht hne hw

theorem derived_rounds (n : Nat) :
    l.Derived ((round l.seeds.absolute l.dependencyEdges)^[n] l.start) :=
  rounds_induction (fun _ _ _ he hf h => h.followed hn he hf) (derived_start hn) n

end

theorem exists_rounds (l : Layout) :
    ∃ n, Rounds l.seeds.absolute l.dependencyEdges l.start l.relaxed n :=
  Bundle.exists_rounds (Nat.lt_succ_of_le List.countP_le_length)

theorem relaxed_derived (hn : l.modules.keys.Nodup) : l.Derived l.relaxed := by
  obtain ⟨n, h⟩ := l.exists_rounds
  rw [h.eq]
  exact derived_rounds hn (n + 1)

theorem relaxed_done (l : Layout) :
    ∀ e ∈ l.dependencyEdges, Done l.seeds.absolute l.relaxed e := by
  obtain ⟨n, h⟩ := l.exists_rounds
  have hlast := h.last
  rw [h.eq, Function.iterate_succ_apply'] at hlast ⊢
  exact done_of_round hlast

theorem mem_relaxed (hn : l.modules.keys.Nodup) {k : Key} :
    k ∈ l.relaxed.names.keys ↔ l.Reachable k := by
  have hd := relaxed_derived hn
  refine ⟨hd.reachable k, ?_⟩
  have hseeds : ∀ k ∈ l.seeds.names.keys, k ∈ l.relaxed.names.keys := by
    obtain ⟨t, ht⟩ := hd.seeded
    rw [← ht, Table.keys_append]
    exact fun k hk => List.mem_append_left _ hk
  rintro ⟨a, ha, hp⟩
  induction hp with
  | refl => exact hseeds a ((mem_seeds hn).mpr ha)
  | tail _ hlead ih =>
    obtain ⟨e, he, rfl, rfl⟩ := hlead
    by_cases habs : l.IsAbsolute (Key.of e.target)
    · exact hseeds _ ((mem_seeds hn).mpr (Or.inr habs))
    · obtain ⟨parent, hparent⟩ := Table.exists_get?_iff.mpr ih
      have hno : containsId l.seeds.absolute e.target = false := by
        rw [← Bool.not_eq_true, containsId_absolute hn]
        exact habs
      obtain ⟨kept, hk, -⟩ := l.relaxed_done e he hno parent hparent
      exact Table.mem_keys_of_get? hk

theorem warned_relaxed_iff (hn : l.modules.keys.Nodup) {names : Table String}
    (hp : l.relaxed.names <+: names) {id : Id} :
    l.relaxed.Warned id ↔ ¬ l.IsAbsolute (Key.of id) ∧ ∃ e ∈ l.dependencyEdges,
      Key.of e.target = Key.of id ∧ ∃ parent kept, l.relaxed.names.get? e.parent = some parent ∧
        names.get? id = some kept ∧ kept ≠ requiredName parent e.required := by
  constructor
  · rintro ⟨w, hw, hid⟩
    obtain ⟨e, he, ht, ha, hparent, hr, hk, hne⟩ := (relaxed_derived hn).warned w hw
    rw [ht] at hid
    refine ⟨hid ▸ ha, e, he, hid, w.parentName, w.kept, hparent, ?_, hr ▸ hne⟩
    rw [← Table.get?_congr hid]
    exact Table.get?_of_prefix hp hk
  · rintro ⟨ha, e, he, hid, parent, kept, hparent, hk, hne⟩
    have hno : containsId l.seeds.absolute e.target = false := by
      rw [← Bool.not_eq_true, containsId_absolute hn, hid]
      exact ha
    obtain ⟨kept', hk', hdone⟩ := l.relaxed_done e he hno parent hparent
    rw [← Table.get?_congr hid, Table.get?_of_prefix hp hk'] at hk
    obtain rfl := Option.some.inj hk
    obtain ⟨w, hw, ht⟩ := hdone.resolve_left hne
    exact ⟨w, hw, ht.trans hid⟩

/-! ### The final names -/

def during (l : Layout) (m j : Nat) : Resolution :=
  (l.dependencyEdges.take j).foldl (follow l.seeds.absolute)
    ((round l.seeds.absolute l.dependencyEdges)^[m] l.start)

/-- What following the dependencies comes to, when `r` is the state at its end. -/
structure Resolved (l : Layout) (r : Resolution) (names : Table String) : Prop where
  ends : ∃ n, Rounds l.seeds.absolute l.dependencyEdges l.start r n ∧
    ∀ m ≤ n, ∀ j, (l.during m j).names <+: names
  seeded : ∀ id, l.start.names.contains id = true ↔ l.IsSeed (Key.of id)
  named : ∀ id, r.names.contains id = true ↔ l.Reachable (Key.of id)
  added : ∀ id name, ¬ l.IsSeed (Key.of id) → r.names.get? id = some name →
    l.Names r.names id name
  kept : r.names <+: names
  rest : ∀ m ∈ l.modules, r.names.contains m.1 = false →
    names.get? m.1 = some ("/" ++ spelled m.1)
  all : ∀ id, names.contains id = true ↔
    r.names.contains id = true ∨ ∃ m ∈ l.modules, Key.of m.1 = Key.of id
  warned : ∀ id, r.Warned id ↔ ¬ l.IsAbsolute (Key.of id) ∧ ∃ e ∈ l.dependencyEdges,
    Key.of e.target = Key.of id ∧ ∃ parent kept, r.names.get? e.parent = some parent ∧
      names.get? id = some kept ∧ kept ≠ requiredName parent e.required
  once : (r.warnings.map fun w => Key.of w.target).Nodup

theorem resolve_eq {l : Layout} (hf : l.format = .browserify) (hs : l.wellShaped = true) :
    resolve l = .ok { l.relaxed with names := nameRest l.ids l.relaxed.names } := by
  have hedges : edges l = .ok l.dependencyEdges := edges_eq_ok_iff.mpr ⟨hs, rfl⟩
  rw [resolve, resolveFormat, hf]
  change Except.map _ (Except.map _ (edges l)) = _
  rw [hedges]
  rfl

theorem wellShaped_of_resolve {l : Layout} (hf : l.format = .browserify)
    (h : resolve l = .ok r) : l.wellShaped = true := by
  rw [resolve, resolveFormat, hf] at h
  change Except.map _ (Except.map _ (edges l)) = _ at h
  cases he : edges l with
  | error x =>
    rw [he] at h
    cases h
  | ok es => exact (edges_eq_ok_iff.mp he).1

theorem resolve_webpack {l : Layout} (hf : l.format = .webpack) :
    resolve l = .ok ⟨nameRest l.ids (entryNames l.entries), []⟩ := by
  rw [resolve, resolveFormat, hf]
  rfl

theorem mem_restWrites {modules : List Id} {names : Table String} {w : Id × String} :
    w ∈ restWrites modules names ↔
      w.1 ∈ modules ∧ Key.of w.1 ∉ names.keys ∧ w.2 = "/" ++ spelled w.1 := by
  rw [restWrites, List.mem_filterMap]
  constructor
  · rintro ⟨id, hid, hw⟩
    split at hw
    · cases hw
    · rename_i hc
      obtain rfl := Option.some.inj hw
      exact ⟨hid, mt Table.contains_iff.mpr hc, rfl⟩
  · rintro ⟨hm, hno, hname⟩
    refine ⟨w.1, hm, ?_⟩
    rw [if_neg (mt Table.contains_iff.mp hno), ← hname]

theorem nodup_restWrites {modules : List Id} {names : Table String}
    (hm : (modules.map Key.of).Nodup) (hn : names.keys.Nodup) :
    (names.keys ++ (restWrites modules names).map fun w => Key.of w.1).Nodup := by
  rw [List.nodup_append]
  refine ⟨hn, nodup_filterMap (fun id w hw => ?_) hm, fun a ha b hb hab => ?_⟩
  · split at hw
    · cases hw
    · exact (congrArg (·.1) (Option.some.inj hw)).symm
  · obtain ⟨w, hw, rfl⟩ := List.mem_map.mp hb
    exact (mem_restWrites.mp hw).2.1 (hab ▸ ha)

theorem nameRest_eq_append {modules : List Id} {names : Table String}
    (hm : (modules.map Key.of).Nodup) (hn : names.keys.Nodup) :
    nameRest modules names = names ++ restWrites modules names := by
  rw [nameRest_eq hm, Table.insertAll_of_nodup (nodup_restWrites hm hn)]

theorem get?_nameRest {modules : List Id} {names : Table String} (hm : (modules.map Key.of).Nodup)
    (hn : names.keys.Nodup) {id : Id} (hid : id ∈ modules) (hno : Key.of id ∉ names.keys) :
    (nameRest modules names).get? id = some ("/" ++ spelled id) := by
  have hw := mem_restWrites (w := (id, "/" ++ spelled id)).mpr ⟨hid, hno, rfl⟩
  have hnodup := (List.nodup_append.mp (nodup_restWrites hm hn)).2.1
  rw [nameRest_eq_append hm hn, Table.get?_append, Table.get?_eq_none_iff.mpr hno, Option.none_or]
  exact Table.get?_of_mem hnodup hw

theorem mem_keys_nameRest {modules : List Id} {names : Table String}
    (hm : (modules.map Key.of).Nodup) {k : Key} :
    k ∈ (nameRest modules names).keys ↔ k ∈ names.keys ∨ ∃ id ∈ modules, Key.of id = k := by
  rw [nameRest_eq hm, Table.mem_keys_insertAll]
  constructor
  · exact Or.imp_right fun ⟨w, hw, he⟩ => ⟨w.1, (mem_restWrites.mp hw).1, he⟩
  · rintro (h | ⟨id, hid, rfl⟩)
    · exact Or.inl h
    · by_cases hno : Key.of id ∈ names.keys
      · exact Or.inl hno
      · exact Or.inr ⟨_, mem_restWrites (w := (id, "/" ++ spelled id)).mpr ⟨hid, hno, rfl⟩, rfl⟩

theorem names_prefix_during {n m : Nat} {s : Resolution}
    (h : Rounds l.seeds.absolute l.dependencyEdges l.start s n) (hm : m ≤ n) (j : Nat) :
    (l.during m j).names <+: s.names := by
  have hround := names_prefix_take l.seeds.absolute l.dependencyEdges j
    ((round l.seeds.absolute l.dependencyEdges)^[m] l.start)
  rw [← Function.iterate_succ_apply' (round _ _)] at hround
  rw [h.eq]
  exact hround.trans (names_prefix_iterate _ (Nat.succ_le_succ hm) _)

/-- Following the dependencies comes to an end. It names exactly what can be reached, each id once and
for all by a dependency of a module that had a name before, and it warns once of exactly those ids
that some dependency calls by another name. All other modules are named by their ids. -/
theorem resolve_relaxes {l : Layout} (hf : l.format = .browserify) (hn : l.modules.keys.Nodup)
    (hs : l.wellShaped = true) :
    ∃ r names, resolve l = .ok ⟨names, r.warnings⟩ ∧ l.Resolved r names := by
  have hd := relaxed_derived hn
  have hids := nodup_ids hn
  have hkept : l.relaxed.names <+: nameRest l.ids l.relaxed.names := by
    rw [nameRest_eq_append hids hd.nodup]
    exact List.prefix_append _ _
  refine ⟨l.relaxed, nameRest l.ids l.relaxed.names, resolve_eq hf hs, ?_⟩
  refine ⟨?_, fun id => ?_, fun id => ?_, fun id name hid => ?_, hkept, fun m hm hno => ?_,
    fun id => ?_, fun id => warned_relaxed_iff hn hkept, hd.once⟩
  · obtain ⟨n, h⟩ := l.exists_rounds
    exact ⟨n, h, fun m hm j => (names_prefix_during h hm j).trans hkept⟩
  · rw [Table.contains_iff]
    exact mem_seeds hn
  · rw [Table.contains_iff]
    exact mem_relaxed hn
  · exact hd.added id name (mt (mem_seeds hn).mp hid)
  · exact get?_nameRest hids hd.nodup (List.mem_map_of_mem hm) (Table.contains_eq_false_iff.mp hno)
  · rw [Table.contains_iff, Table.contains_iff, mem_keys_nameRest hids, ids]
    simp only [List.mem_map, exists_exists_and_eq_and]

def cyclicLayout : Layout :=
  .ofDependencies [.number (.ofInt 1)]
    [(.number (.ofInt 1), [("./a", .number (.ofInt 2)), ("tool", .number (.ofInt 3))]),
     (.number (.ofInt 2), [("./lib/b", .number (.ofInt 4))]), (.number (.ofInt 3), []),
     (.number (.ofInt 4), [("../c", .number (.ofInt 2))]),
     (.number (.ofInt 5), [("./d", .number (.ofInt 4))])]

theorem resolve_relaxes_cyclic : (cyclicLayout.format = .browserify ∧
      cyclicLayout.modules.keys.Nodup ∧ cyclicLayout.wellShaped = true) ∧
    ∃ r names, resolve cyclicLayout = .ok ⟨names, r.warnings⟩ ∧ cyclicLayout.Resolved r names :=
  ⟨⟨rfl, by decide, wellShaped_ofDependencies _ _⟩,
    resolve_relaxes rfl (by decide) (wellShaped_ofDependencies _ _)⟩

end Layout

end Legible.Bundle
