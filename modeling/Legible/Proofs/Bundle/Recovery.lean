import Legible.Proofs.Bundle.Relaxation
import Legible.Proofs.FilePath.Collapse

namespace Legible.Bundle

open FilePath

/-! ### What a file requires -/

def requiredFile (required : String) : String :=
  if hasFinalSlash required then required ++ "index" else required

def requiredParts (required : String) : List Part :=
  parts (requiredFile required).toList

def LeadsTo (file : List Part) (required : String) (target : List Part) : Prop :=
  walk? file.dropLast.reverse (requiredParts required) = some target.reverse

instance (file : List Part) (required : String) (target : List Part) :
    Decidable (LeadsTo file required target) :=
  inferInstanceAs (Decidable (_ = _))

/-- It starts in the directory of the file, and its last part is a name. A line feed is no name. -/
def Plain (required : String) : Prop :=
  hasStart "./" required = true ∧
    ∀ last ∈ (requiredParts required).getLast?, last ≠ here ∧ last ≠ above ∧ last ≠ ['\n']

theorem hasStart_append {start s : String} (t : String) (h : hasStart start s = true) :
    hasStart start (s ++ t) = true := by
  rw [hasStart, List.isPrefixOf_iff_prefix] at h ⊢
  rw [String.toList_append]
  exact h.trans (List.prefix_append _ _)

theorem not_hasStart_of_above {s : String} (h : hasStart "../" s = true) : hasStart "./" s = false := by
  rw [hasStart, List.isPrefixOf_iff_prefix] at h
  obtain ⟨t, ht⟩ := h
  rw [hasStart, ← ht]
  rfl

theorem hasStart_requiredFile {required : String} (h : isRelative required = true) :
    hasStart "./" (requiredFile required) = hasStart "./" required := by
  rw [isRelative, Bool.or_eq_true] at h
  rw [requiredFile]
  split
  · rcases h with h | h
    · rw [h, hasStart_append _ h]
    · rw [not_hasStart_of_above h, not_hasStart_of_above (hasStart_append _ h)]
  · rfl

theorem isRelative_requiredFile {required : String} (h : isRelative required = true) :
    isRelative (requiredFile required) = true := by
  rw [requiredFile]
  split
  · rw [isRelative, Bool.or_eq_true] at h ⊢
    exact h.imp (hasStart_append _) (hasStart_append _)
  · exact h

theorem hasFinalSlash_requiredFile (required : String) :
    hasFinalSlash (requiredFile required) = false := by
  rw [requiredFile]
  split
  · rw [hasFinalSlash_append (by decide)]
    decide
  · rename_i h
    exact Bool.of_not_eq_true h

theorem requiredParts_ne {required : String} (h : isRelative required = true) {rs : List Part}
    {last : Part} (hp : requiredParts required = rs ++ [last]) : last ≠ [] := by
  rintro rfl
  have hjoined := joined_parts (requiredFile required).toList
  rw [← requiredParts, hp] at hjoined
  have hslash := hasFinalSlash_requiredFile required
  have hrelative := isRelative_requiredFile h
  by_cases hrs : rs = []
  · have hnil : requiredFile required = "" := String.toList_injective (by rw [← hjoined, hrs]; rfl)
    rw [hnil] at hrelative
    exact absurd hrelative (by decide)
  · rw [joined_append_singleton hrs] at hjoined
    rw [hasFinalSlash, ← hjoined] at hslash
    simp at hslash

theorem requiredName_eq (parent required : String) : requiredName parent required =
    collapse (String.ofList ((if hasStart "./" (requiredFile required) = true then
      withoutLastPart parent.toList else parent.toList) ++ '/' :: (requiredFile required).toList)) := by
  rw [requiredName, ← requiredFile]
  refine congrArg collapse (String.toList_injective ?_)
  split <;> simp

theorem exists_parts_required {dir : List Part} {name : Part} {required : String}
    (hf : ∀ p ∈ dir ++ [name], IsPart p) {rs : List Part} {last : Part}
    (hp : requiredParts required = rs ++ [last]) : ∃ cs ps, parts cs = [] :: (ps ++ [last]) ∧
      requiredName (rooted (dir ++ [name])) required = collapse (String.ofList cs) ∧
      walk [] ps = walk (if hasStart "./" (requiredFile required) = true then dir.reverse
        else name :: dir.reverse) rs := by
  have hdir : ∀ p ∈ dir, IsPart p := fun p hm => hf p (List.mem_append_left _ hm)
  have hname : '/' ∉ name := (hf name (List.mem_append_right _ (List.mem_singleton_self _))).2
  have habs : (rooted (dir ++ [name])).toList = joined ([] :: dir) ++ '/' :: name := by
    rw [rooted, String.toList_ofList, ← List.cons_append,
      joined_append_singleton (List.cons_ne_nil _ _)]
  have hroot : parts (joined ([] :: dir)) = [] :: dir :=
    parts_joined (List.cons_ne_nil _ _)
      (List.forall_mem_cons.mpr ⟨List.not_mem_nil, fun p hm => (hdir p hm).2⟩)
  have hwalk : ∀ st, walk st dir = dir.reverse ++ st := walk_names fun p hm => (hdir p hm).1
  refine ⟨_, if hasStart "./" (requiredFile required) = true then dir ++ [] :: rs
    else dir ++ name :: rs, ?_, requiredName_eq _ _, ?_⟩
  · rw [parts_append_slash, ← requiredParts, hp, habs]
    split
    · rw [withoutLastPart_append hname, parts_append_slash, hroot]
      simp [parts]
    · rw [parts_append_slash, hroot, parts_of_notMem hname]
      simp
  · split
    · rw [walk_append, hwalk, walk_cons, enter_nil, List.append_nil]
    · rw [walk_append, hwalk, walk_cons, List.append_nil,
        enter_name (hf name (List.mem_append_right _ (List.mem_singleton_self _))).1]

theorem requiredName_eq_iff {dir : List Part} {name : Part} {required : String} {target : List Part}
    (hf : ∀ p ∈ dir ++ [name], IsPart p) (ht : ∀ p ∈ target, IsPart p)
    (hr : isRelative required = true) (h : LeadsTo (dir ++ [name]) required target) :
    requiredName (rooted (dir ++ [name])) required = rooted target ↔ Plain required := by
  obtain ⟨rs, last, hp⟩ : ∃ rs last, requiredParts required = rs ++ [last] :=
    ⟨_, _, (List.dropLast_append_getLast (parts_ne_nil _)).symm⟩
  obtain ⟨cs, ps, hcs, hname, hwalk⟩ := exists_parts_required hf hp
  rw [hasStart_requiredFile hr] at hwalk
  rw [LeadsTo, hp, List.dropLast_concat, walk?_append] at h
  obtain ⟨st, hst, hlast⟩ := h
  have htarget : IsName last → target = st.reverse ++ [last] := by
    intro hl
    have henter : walk st [last] = target.reverse := walk_eq_of_walk? hlast
    rw [← List.reverse_reverse target, ← henter, walk_cons, enter_name hl]
    exact List.reverse_cons
  have hne := requiredParts_ne hr hp
  have hslash : ∀ p ∈ target, '/' ∉ p := fun p hm => (ht p hm).2
  have hplain : Plain required ↔
      hasStart "./" required = true ∧ last ≠ here ∧ last ≠ above ∧ last ≠ ['\n'] := by
    rw [Plain, hp, List.getLast?_concat]
    simp
  rw [hname, hplain]
  by_cases hn : last = ['\n']
  · rw [htarget (hn ▸ ⟨⟨by decide, by decide⟩, by decide⟩)]
    exact iff_of_false (collapse_ne_rooted hcs hn _) fun hc => hc.2.2.2 hn
  · rw [collapse_eq_rooted_iff hcs hne hn hslash]
    by_cases hl : last ≠ here ∧ last ≠ above
    · rw [htarget ⟨⟨hne, hl.1⟩, hl.2⟩, List.append_left_inj, List.reverse_inj, hwalk]
      cases hs : hasStart "./" required with
      | true => exact iff_of_true (walk_eq_of_walk? hst) ⟨rfl, hl.1, hl.2, hn⟩
      | false =>
        refine iff_of_false (fun heq => ?_) fun hc => absurd hc.1 Bool.false_ne_true
        -- From the file, the parts lead one part further down than from its directory.
        have hfar : dir.reverse.length ≤ (name :: dir.reverse).length := Nat.le_succ _
        have hlength := length_walk hst hfar
        rw [if_neg Bool.false_ne_true] at heq
        rw [heq, List.length_cons] at hlength
        omega
    · refine iff_of_false (fun heq => hl ?_) fun hc => hl ⟨hc.2.1, hc.2.2.1⟩
      have hpart := ht last (heq ▸ List.mem_append_right _ (List.mem_singleton_self _))
      exact ⟨hpart.1.1.2, hpart.1.2⟩

/-! ### Bundles of files -/

namespace Layout

/-- The modules have been files, and what they require leads from file to file. -/
structure FromFiles (l : Layout) (entry : Id) (file : Key → List Part) : Prop where
  format : l.format = .browserify
  nodup : l.modules.keys.Nodup
  shaped : l.wellShaped = true
  integers : ∀ m ∈ l.modules, ∃ n : Int, m.1 = .number (.ofInt n)
  entries : l.entries = [entry]
  present : ∃ m ∈ l.modules, m.1 = entry
  main : file (Key.of entry) = ["main".toList]
  paths : ∀ m ∈ l.modules, file (Key.of m.1) ≠ [] ∧ ∀ p ∈ file (Key.of m.1), IsPart p
  distinct : ∀ m ∈ l.modules, ∀ n ∈ l.modules,
    file (Key.of m.1) = file (Key.of n.1) → Key.of m.1 = Key.of n.1
  exact : ∀ e ∈ l.dependencyEdges, isRelative e.required = true ∧
    (∃ m ∈ l.modules, Key.of m.1 = Key.of e.target) ∧
      LeadsTo (file (Key.of e.parent)) e.required (file (Key.of e.target))

theorem exists_module_of_mem {l : Layout} {e : Edge} (h : e ∈ l.dependencyEdges) :
    ∃ m ∈ l.modules, m.1 = e.parent := by
  obtain ⟨m, hm, he⟩ := List.mem_flatMap.mp h
  obtain ⟨pair, -, hp⟩ := List.mem_filterMap.mp he
  refine ⟨m, hm, ?_⟩
  cases pair with
  | error x => cases hp
  | ok x =>
    rw [edgeOf] at hp
    split at hp
    · cases hp
    · rw [← Option.some.inj hp]

section

variable {l : Layout} {entry : Id} {file : Key → List Part} (h : l.FromFiles entry file)

include h

theorem FromFiles.requiredName_iff {e : Edge} (he : e ∈ l.dependencyEdges) :
    requiredName (rooted (file (Key.of e.parent))) e.required =
      rooted (file (Key.of e.target)) ↔ Plain e.required := by
  obtain ⟨hr, ⟨t, ht, htarget⟩, hleads⟩ := h.exact e he
  obtain ⟨m, hm, hparent⟩ := exists_module_of_mem he
  obtain ⟨hne, hparts⟩ := h.paths m hm
  have htparts := (h.paths t ht).2
  rw [hparent] at hne hparts
  rw [htarget] at htparts
  rw [← List.dropLast_append_getLast hne] at hparts hleads ⊢
  exact requiredName_eq_iff hparts htparts hr hleads

theorem FromFiles.not_isAbsolute (k : Key) : ¬ l.IsAbsolute k := by
  rintro (⟨e, he, hr, -⟩ | ⟨m, hm, s, hs, -⟩)
  · exact absurd ((h.exact e he).1.symm.trans hr) (by decide)
  · obtain ⟨n, hn⟩ := h.integers m hm
    cases hs.symm.trans hn

theorem FromFiles.reachable_iff {k : Key} :
    l.Reachable k ↔ Relation.ReflTransGen l.Leads (Key.of entry) k := by
  constructor
  · rintro ⟨a, ha, hp⟩
    obtain ⟨id, hid, rfl⟩ := ha.resolve_right (h.not_isAbsolute a)
    rw [h.entries, List.mem_singleton] at hid
    exact hid ▸ hp
  · exact fun hp => ⟨_, Or.inl ⟨entry, h.entries ▸ List.mem_singleton_self _, rfl⟩, hp⟩

theorem FromFiles.seeds_names : l.seeds.names = [(entry, "/main")] := by
  have hpackages : packageWrites l.dependencyEdges = [] := by
    refine List.eq_nil_iff_forall_not_mem.mpr fun w hw => ?_
    exact h.not_isAbsolute _ (Or.inl (mem_packageWrites.mp ⟨w, hw, rfl⟩))
  have htexts : l.textWrites = [] := by
    refine List.eq_nil_iff_forall_not_mem.mpr fun w hw => ?_
    exact h.not_isAbsolute _ (mem_textWrites.mp (Or.inr ⟨w, hw, rfl⟩))
  rw [seeds_eq h.nodup, hpackages, htexts, h.entries]
  rfl

def Recovered (file : Key → List Part) (r : Resolution) : Prop :=
  r.warnings = [] ∧ ∀ id name, r.names.get? id = some name → name = rooted (file (Key.of id))

theorem FromFiles.recovered_relaxed (hp : ∀ e ∈ l.dependencyEdges, l.Reachable (Key.of e.parent) →
    Plain e.required) : Recovered file l.relaxed := by
  obtain ⟨n, hn⟩ := l.exists_rounds
  rw [hn.eq]
  refine (rounds_induction (P := fun r => l.Derived r ∧ Recovered file r) ?_ ⟨derived_start h.nodup, ?_⟩
    (n + 1)).2
  · rintro r e s he hf ⟨hd, hr⟩
    refine ⟨hd.followed h.nodup he hf, ?_⟩
    have hname : ∀ parent, r.names.get? e.parent = some parent →
        requiredName parent e.required = rooted (file (Key.of e.target)) := by
      intro parent hparent
      rw [hr.2 _ _ hparent, h.requiredName_iff he]
      exact hp e he (hd.reachable _ (Table.mem_keys_of_get? hparent))
    cases hf with
    | skip => exact hr
    | keep => exact hr
    | name _ hparent ht =>
      refine ⟨hr.1, fun id name hget => ?_⟩
      rw [Table.get?_append, Option.or_eq_some_iff, Table.get?_cons] at hget
      rcases hget with hget | ⟨-, hget⟩
      · exact hr.2 id name hget
      · split at hget
        · rename_i hsame
          rw [← Option.some.inj hget, hname _ hparent, hsame]
        · cases hget
    | warn _ hparent ht hne =>
      exact absurd ((hr.2 _ _ ht).trans (hname _ hparent).symm) hne
  · refine ⟨rfl, fun id name hget => ?_⟩
    rw [start, h.seeds_names, Table.get?_cons] at hget
    split at hget
    · rename_i hsame
      rw [← Option.some.inj hget, ← hsame, h.main]
      rfl
    · cases hget

end

/-- All modules that can be reached get their paths back, without a warning, exactly if they require
nothing but plain names. -/
theorem resolve_recovers_iff {l : Layout} {entry : Id} {file : Key → List Part}
    (h : l.FromFiles entry file) : ∃ r, resolve l = .ok r ∧
      ((r.warnings = [] ∧ ∀ m ∈ l.modules,
          Relation.ReflTransGen l.Leads (Key.of entry) (Key.of m.1) →
            r.names.get? m.1 = some (rooted (file (Key.of m.1)))) ↔
        ∀ e ∈ l.dependencyEdges, Relation.ReflTransGen l.Leads (Key.of entry) (Key.of e.parent) →
          Plain e.required) := by
  simp_rw [← h.reachable_iff]
  have hd := relaxed_derived h.nodup
  have hkept : l.relaxed.names <+: nameRest l.ids l.relaxed.names := by
    rw [nameRest_eq_append (nodup_ids h.nodup) hd.nodup]
    exact List.prefix_append _ _
  refine ⟨_, resolve_eq h.format h.shaped, ?_⟩
  constructor
  · rintro ⟨hwarnings, hnames⟩ e he hreach
    have hname : ∀ m ∈ l.modules, l.Reachable (Key.of m.1) →
        l.relaxed.names.get? m.1 = some (rooted (file (Key.of m.1))) := by
      intro m hm hr
      obtain ⟨name, hget⟩ := Table.exists_get?_iff.mpr ((mem_relaxed h.nodup).mpr hr)
      have hfinal := Table.get?_of_prefix hkept hget
      rw [hget, ← hfinal]
      exact hnames m hm hr
    obtain ⟨m, hm, hparent⟩ := exists_module_of_mem he
    obtain ⟨-, ⟨t, ht, htarget⟩, -⟩ := h.exact e he
    have hp := hname m hm (hparent ▸ hreach)
    have hk := hname t ht (htarget ▸ hreach.target he)
    rw [hparent] at hp
    rw [Table.get?_congr htarget, htarget] at hk
    have hno : containsId l.seeds.absolute e.target = false := by
      rw [← Bool.not_eq_true, containsId_absolute h.nodup]
      exact h.not_isAbsolute _
    obtain ⟨kept, hkept, hdone⟩ := l.relaxed_done e he hno _ hp
    obtain rfl := Option.some.inj (hk.symm.trans hkept)
    rw [← h.requiredName_iff he]
    refine (hdone.resolve_right ?_).symm
    rintro ⟨w, hw, -⟩
    rw [hwarnings] at hw
    exact List.not_mem_nil hw
  · intro hplain
    obtain ⟨hwarnings, hnames⟩ := h.recovered_relaxed hplain
    refine ⟨hwarnings, fun m hm hr => ?_⟩
    obtain ⟨name, hget⟩ := Table.exists_get?_iff.mpr ((mem_relaxed h.nodup).mpr hr)
    rw [← hnames m.1 name hget]
    exact Table.get?_of_prefix hkept hget

def climbingLayout : Layout :=
  .ofDependencies [.number (.ofInt 1)]
    [(.number (.ofInt 1), [("./lib/a", .number (.ofInt 2))]),
     (.number (.ofInt 2), [("../x", .number (.ofInt 3))]), (.number (.ofInt 3), [])]

def climbingFile (k : Key) : List Part :=
  if k = .of (.number (.ofInt 1)) then ["main".toList]
  else if k = .of (.number (.ofInt 2)) then ["lib".toList, "a".toList]
  else ["x".toList]

theorem climbing_edges : climbingLayout.dependencyEdges =
    [⟨.number (.ofInt 1), "./lib/a", .number (.ofInt 2)⟩,
      ⟨.number (.ofInt 2), "../x", .number (.ofInt 3)⟩] :=
  dependencyEdges_ofDependencies _ _

theorem fromFiles_climbing : climbingLayout.FromFiles (.number (.ofInt 1)) climbingFile where
  format := rfl
  nodup := by decide
  shaped := wellShaped_ofDependencies _ _
  integers := by
    simp [climbingLayout, ofDependencies]
  entries := rfl
  present := ⟨_, List.mem_cons_self, rfl⟩
  main := rfl
  paths := by decide
  distinct := by decide
  exact := by
    rw [climbing_edges]
    simp only [List.forall_mem_cons]
    refine ⟨⟨rfl, ?_, ?_⟩, ⟨rfl, ?_, ?_⟩, fun _ h => absurd h List.not_mem_nil⟩
    · decide
    · decide
    · decide
    · decide

theorem resolve_recovers_iff_climbing :
    climbingLayout.FromFiles (.number (.ofInt 1)) climbingFile ∧ ∃ r, resolve climbingLayout = .ok r ∧
      ((r.warnings = [] ∧ ∀ m ∈ climbingLayout.modules,
          Relation.ReflTransGen climbingLayout.Leads (Key.of (.number (.ofInt 1))) (Key.of m.1) →
            r.names.get? m.1 = some (rooted (climbingFile (Key.of m.1)))) ↔
        ∀ e ∈ climbingLayout.dependencyEdges,
          Relation.ReflTransGen climbingLayout.Leads (Key.of (.number (.ofInt 1)))
            (Key.of e.parent) → Plain e.required) :=
  ⟨fromFiles_climbing, resolve_recovers_iff fromFiles_climbing⟩

theorem resolve_misplaces : ¬ ∀ (l : Layout) (entry : Id) (file : Key → List Part),
    l.FromFiles entry file → ∃ r, resolve l = .ok r ∧ ∀ m ∈ l.modules,
      Relation.ReflTransGen l.Leads (Key.of entry) (Key.of m.1) →
        r.names.get? m.1 = some (rooted (file (Key.of m.1))) := by
  intro h
  obtain ⟨r, hr, hnames⟩ := h _ _ _ fromFiles_climbing
  have hname : (resolve climbingLayout).map (·.names.get? (.number (.ofInt 3))) =
      .ok (some "/lib/x") := by decide +kernel
  rw [hr] at hname
  have hfirst : climbingLayout.Leads (Key.of (.number (.ofInt 1))) (Key.of (.number (.ofInt 2))) :=
    ⟨_, climbing_edges ▸ List.mem_cons_self, rfl, rfl⟩
  have hsecond : climbingLayout.Leads (Key.of (.number (.ofInt 2))) (Key.of (.number (.ofInt 3))) :=
    ⟨_, climbing_edges ▸ List.mem_cons_of_mem _ List.mem_cons_self, rfl, rfl⟩
  have hpath := hnames (.number (.ofInt 3), _) (List.mem_cons_of_mem _ (List.mem_cons_of_mem _
    List.mem_cons_self)) ((Relation.ReflTransGen.single hfirst).tail hsecond)
  exact absurd ((Except.ok.inj hname).symm.trans hpath) (by decide)

end Layout

end Legible.Bundle
