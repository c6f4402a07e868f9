import Legible.Proofs.Simplify.Exhaustion

/-!
Two runs are enough: the second only puts braces around statements, and the third finds nothing to do.
-/

namespace Legible.Simplify

open Pattern

/-! ### The rules that a run applies -/

def enterLogged : Replacer (State × List Rule) := fun t place (s, log) =>
  if !t.isNode || isLoopHead t place then (none, s, log)
  else
    match settleLogged rules.length rules (s.current t) s with
    | (used, some u, s) => (some u, { s with count := s.count + 1 }, log ++ used)
    | (used, none, s) => (none, s, log ++ used)

def leaveLogged : Replacer (State × List Rule) := fun t place (s, log) =>
  ((leave t place s).1, s, log)

def walkLogged (t : Tree) : Option (Tree × State × List Rule) :=
  (Tree.replace? enterLogged leaveLogged (t.weight + 1) ⟨none, none⟩ t).run
    (⟨Scope.ofTree t, ∅, 0⟩, [])

theorem enterLogged_eq (t : Tree) (place : Place) (x : State × List Rule) :
    enter t place x.1 = ((enterLogged t place x).1, (enterLogged t place x).2.1) := by
  obtain ⟨s, log⟩ := x
  rw [enter, enterLogged, ← State.current, ← settleLogged_snd]
  split
  · rfl
  · generalize settleLogged rules.length rules (s.current t) s = r
    obtain ⟨used, v, s'⟩ := r
    cases v <;> rfl

theorem walkLogged_erase (t : Tree) :
    (walkLogged t).map (fun x => (x.1, x.2.1)) = walk t := by
  have hleave : ∀ t place (x : State × List Rule),
      leave t place x.1 = ((leaveLogged t place x).1, (leaveLogged t place x).2.1) :=
    fun t place x => leave_state t place x.1
  exact (Tree.replace?_projects (π := Prod.fst) enterLogged_eq hleave (t.weight + 1) ⟨none, none⟩ t
    (⟨Scope.ofTree t, ∅, 0⟩, [])).symm

/-! ### Braces -/

def keepsField (r : Rule) (key : String) : Bool :=
  !isIgnored key && match r.pattern.field? key, r.replacement.field? key with
    | some (.hole g), some (.hole h) => h.name == g.name
    | _, _ => false

structure Braces (r : Rule) (kind key name : String) : Prop where
  pattern : r.pattern.kind? = some kind
  replacement : r.replacement.kind? = some kind
  keys : ∃ keys, childTable.lookup kind = some keys ∧ key ∈ keys ∧
    ∀ k ∈ keys, k ≠ key → keepsField r k = true
  unlisted : statementField? kind = none
  head : isHeadKey (some key) = false
  field : isIgnored key = false
  before : r.pattern.field? key = some (multiLineStatement name)
  after : r.replacement.field? key = some (braced name)

theorem exists_braces : ∀ r ∈ braceRules, ∃ kind key name, Braces r kind key name := by
  intro r hr
  simp only [braceRules, loopBraceRules, List.mem_cons, List.not_mem_nil, or_false] at hr
  rcases hr with rfl | rfl | rfl | rfl | rfl | rfl | rfl
  · exact ⟨_, "consequent", _, rfl, rfl, ⟨_, rfl, by decide, by decide⟩, rfl, rfl, rfl, rfl, rfl⟩
  · exact ⟨_, "alternate", _, rfl, rfl, ⟨_, rfl, by decide, by decide⟩, rfl, rfl, rfl, rfl, rfl⟩
  all_goals exact ⟨_, "body", _, rfl, rfl, ⟨_, rfl, by decide, by decide⟩, rfl, rfl, rfl, rfl, rfl⟩

theorem mem_captured_of_field? {p : Pattern} {key : String} {h : Placeholder}
    (hf : p.field? key = some (.hole h)) (hi : isIgnored key = false) (t : Tree) :
    (h.name, t.get key) ∈ p.captured t := by
  cases p with
  | hole _ => cases hf
  | scalar _ => cases hf
  | list _ => cases hf
  | object fs =>
    rw [captured]
    rw [field?] at hf
    induction fs with
    | nil => cases hf
    | cons f fs ih =>
      obtain ⟨k, q⟩ := f
      rw [capturedFields, List.mem_append]
      by_cases hk : key = k
      · subst hk
        rw [List.lookup_cons_self] at hf
        rw [Option.some.inj hf, if_neg (by simp [hi])]
        exact Or.inl (List.mem_singleton_self _)
      · rw [List.lookup_cons, beq_false_of_ne hk] at hf
        exact Or.inr (ih hf)

theorem assignment_captured {p : Pattern} (hn : p.names.Nodup) {key : String} {h : Placeholder}
    (hf : p.field? key = some (.hole h)) (hi : isIgnored key = false) (t : Tree) :
    (p.captured t).assignment h.name = t.get key := by
  rw [Captures.assignment, lookup_captured hn (mem_captured_of_field? hf hi t), Option.getD_some]

theorem built_of_field? {p q : Pattern} {key : String} (hf : p.field? key = some q) (s : Assignment) :
    (p.built s).get key = q.built s := by
  cases p with
  | hole _ => cases hf
  | scalar _ => cases hf
  | list _ => cases hf
  | object fs => exact get_built hf s

theorem get_result {r : Rule} (hr : r ∈ simpleRules ++ braceRules) {key : String}
    (h : keepsField r key = true) (t : Tree) : (r.result t).get key = t.get key := by
  rw [keepsField, Bool.and_eq_true, Bool.not_eq_true'] at h
  obtain ⟨hi, h⟩ := h
  split at h
  · rename_i g g' hp hq
    rw [Rule.result, built_of_field? hq, built, beq_iff_eq.mp h]
    exact assignment_captured (linear_iff hr).1 hp hi t
  · cases h

section

variable {r : Rule} (hr : r ∈ braceRules) {kind key name : String} (h : Braces r kind key name)
  {t : Tree} (hf : r.pattern.fits t = true)

include h hf

theorem kind?_result : (r.result t).kind? = t.kind? :=
  (kind?_built h.replacement _).trans (kind?_of_fits h.pattern hf).symm

theorem childKeys_result : (r.result t).childKeys = t.childKeys := by
  obtain ⟨keys, hkeys, -⟩ := h.keys
  have ht := kind?_of_fits h.pattern hf
  rw [Tree.childKeys_of_kind? ((kind?_result h hf).trans ht) hkeys, Tree.childKeys_of_kind? ht hkeys]

theorem node_of_fits : (t.get key).isNode = true ∧ (t.get key).isKind "Program" = false := by
  have hm := fits_get key h.before h.field hf
  simp only [multiLineStatement, fits, Placeholder.accepts] at hm
  split at hm
  · cases hm
  · rw [Bool.and_eq_true] at hm
    refine ⟨hm.1, ?_⟩
    rw [← Bool.not_eq_true, Tree.isKind_iff]
    intro hk
    rw [Tree.kind_of_kind? hk] at hm
    cases hm.2

include hr

theorem get_result_braced : ((r.result t).get key).kind? = some "BlockStatement" ∧
    ((r.result t).get key).get "body" = .list [t.get key] := by
  have hname : (r.pattern.captured t).assignment name = t.get key :=
    assignment_captured (linear_iff (List.mem_append_right _ hr)).1 h.before h.field t
  have hspliced : (anyStatement name).spliced (t.get key) = [t.get key] :=
    spliced_of_not_list (not_list_of_fits (fits_get key h.before h.field hf))
  rw [Rule.result, built_of_field? h.after]
  refine ⟨kind?_built rfl _, ?_⟩
  change Tree.list ((anyStatement name).spliced ((r.pattern.captured t).assignment name) ++ []) = _
  rw [hname, hspliced]
  rfl

theorem get_result_of_ne {k : String} (hk : k ∈ t.childKeys) (hne : k ≠ key) :
    (r.result t).get k = t.get k := by
  obtain ⟨keys, hkeys, -, hkeeps⟩ := h.keys
  rw [Tree.childKeys_of_kind? (kind?_of_fits h.pattern hf) hkeys] at hk
  exact get_result (List.mem_append_right _ hr) (hkeeps k hk hne) t

end

theorem not_refits {r : Rule} (hr : r ∈ braceRules) (t : Tree) : r.pattern.fits (r.result t) = false := by
  rw [braceRules, List.mem_cons, List.mem_cons] at hr
  rcases hr with rfl | rfl | hr
  · exact fits_of_clash (clash_thenBrace thenBraceRule (by simp)) _
  · exact fits_of_clash (clash_elseBrace elseBraceRule (by simp)) _
  · refine fits_of_clash (clash_loopBrace r hr r (mem_rules.mpr (Or.inr (Or.inl ?_)))) _
    exact List.mem_cons_of_mem _ (List.mem_cons_of_mem _ hr)

theorem fits_of_result {q r : Rule} (hq : q ∈ braceRules) (hr : r ∈ braceRules) {t : Tree}
    (ht : r.pattern.fits t = true) (h : q.pattern.fits (r.result t) = true) :
    q.pattern.fits t = true := by
  have hr' : r ∈ rules := mem_rules.mpr (Or.inr (Or.inl hr))
  rw [braceRules, List.mem_cons, List.mem_cons] at hq
  rcases hq with rfl | rfl | hq
  · obtain rfl := eq_elseBrace_of_fits hr' h
    exact fits_thenBrace_of_result ht h
  · obtain rfl := eq_thenBrace_of_fits hr' h
    exact fits_elseBrace_of_result ht h
  · rw [Rule.result, fits_of_clash (clash_loopBrace q hq r hr')] at h
    cases h

def Orderly : Place → Tree → Prop :=
  Tree.Throughout fun p c => Calm p c ∧ Level p c

theorem Calm.move {p : Place} {t : Tree} (h : Calm p t) (hp : isHeadKey p.key = false) (q : Place) :
    Calm q t :=
  fun _ => h (isLoopHead_of_isHeadKey hp t)

theorem orderly_block {b c : Tree} (hb : b.kind? = some "BlockStatement")
    (hbody : b.get "body" = .list [c]) (hc : c.isNode = true) (hprogram : c.isKind "Program" = false)
    {q : Place} (hq : isHeadKey q.key = false) (h : Orderly q c) (place : Place) : Orderly place b := by
  have hplain : ∀ r ∈ plainRules, r.pattern.kind?.isSome = true ∧
      r.pattern.kind? ≠ some "BlockStatement" := by decide
  have hnot : b.isKind "Program" = false := by
    rw [Tree.isKind, hb]
    rfl
  refine Tree.throughout_iff.mpr ⟨⟨fun _ r hr => ?_, fun hk => ?_, fun field hf d hd => ?_⟩,
    fun key hkey d hd => ?_⟩
  · obtain ⟨hsome, hne⟩ := hplain r hr
    obtain ⟨kind, hk⟩ := Option.isSome_iff_exists.mp hsome
    exact not_fits_of_kind hk hb fun he => hne (he ▸ hk)
  · rw [hnot] at hk
    cases hk
  · rw [Tree.kind_of_kind? hb] at hf
    obtain rfl : "body" = field := Option.some.inj hf
    rw [hbody] at hd
    rwa [List.mem_singleton.mp hd]
  · rw [Tree.childKeys_of_kind? hb rfl, List.mem_singleton] at hkey
    subst hkey
    rw [Tree.mem_items_of_mem_childrenAt hbody, List.mem_singleton] at hd
    obtain rfl := hd.1
    obtain ⟨hcalm, hlevel⟩ := (Tree.throughout_iff.mp h).1
    refine Tree.Throughout.move h ⟨hcalm.move hq _, fun hk => ?_, hlevel.2⟩
    rw [hprogram] at hk
    cases hk

structure Bracing (place : Place) (t : Tree) (rs : List Rule) (u : Tree) (s : State) : Prop where
  names : s.names = ∅
  kind : u.kind? = t.kind?
  level : Level place u
  plain : ∀ r ∈ plainRules, r.pattern.fits u = false
  used : ∀ r ∈ braceRules, r ∈ rs ∨ r.pattern.fits u = false
  below : ∀ p : Tree, p.kind? = u.kind? → ∀ key ∈ u.childKeys, ∀ c ∈ u.childrenAt key,
    Orderly ⟨some p, some key⟩ c

theorem carried_of_not_isFunction {t : Tree} (h : isFunction t = false) (u : Tree) (s : State) :
    carried t u s = (u, s) := by
  rw [carried, h]
  rfl

theorem Bracing.mem_braceRules {place : Place} {t : Tree} {rs : List Rule} {u : Tree} {s : State}
    (h : Bracing place t rs u s) {r : Rule} (hr : r ∈ rules) (hfits : r.pattern.fits u = true) :
    r ∈ braceRules := by
  have hplain : r ∉ plainRules := fun hm => by
    rw [h.plain r hm] at hfits
    cases hfits
  rw [plainRules, List.mem_append, List.mem_singleton] at hplain
  have := mem_rules.mp hr
  tauto

theorem Bracing.orderly_result {place : Place} {t : Tree} {rs : List Rule} {u : Tree} {s : State}
    (h : Bracing place t rs u s) {r : Rule} (hr : r ∈ braceRules) {kind key name : String}
    (hb : Braces r kind key name) (hfits : r.pattern.fits u = true) {p : Tree}
    (hp : p.kind? = u.kind?) {k : String} (hk : k ∈ (r.result u).childKeys) {c : Tree}
    (hc : c ∈ (r.result u).childrenAt k) : Orderly ⟨some p, some k⟩ c := by
  rw [childKeys_result hb hfits] at hk
  by_cases hne : k = key
  · subst hne
    obtain ⟨hblock, hbody⟩ := get_result_braced hr hb hfits
    obtain ⟨hnode, hprogram⟩ := node_of_fits hb hfits
    rw [Tree.childrenAt, Tree.heldNodes_of_isNode (isNode_of_kind? hblock)] at hc
    rw [List.mem_singleton.mp hc]
    refine orderly_block hblock hbody hnode hprogram (q := ⟨some u, some k⟩) hb.head
      (h.below u rfl k hk _ (Tree.self_mem_heldNodes hnode)) _
  · rw [Tree.childrenAt, get_result_of_ne hr hb hfits hk hne] at hc
    exact h.below p hp k hk c hc

theorem Bracing.step {place : Place} {t : Tree} {rs : List Rule} {u : Tree} {s : State}
    (h : Bracing place t rs u s) (hrs : rs ⊆ rules) {r : Rule} {rs' : List Rule}
    (hp : rs.Perm (r :: rs')) {v : Tree} (hv : r.apply? u = some v) :
    r ∈ braceRules ∧ Bracing place t rs' (carried u v s).1 (carried u v s).2 := by
  have hrules : r ∈ rules := hrs (hp.symm.subset List.mem_cons_self)
  have hfits := (fits_of_applied hrules hv).1
  have hr := h.mem_braceRules hrules hfits
  refine ⟨hr, ?_⟩
  obtain ⟨kind, key, name, hb⟩ := exists_braces r hr
  obtain ⟨-, rfl⟩ := apply?_linear (List.mem_append_right _ hr) hv
  have hkind := kind?_result hb hfits
  have hfunction : isFunction u = false := by
    rw [← Bool.not_eq_true]
    intro hu
    rw [not_fits_of_isFunction hu (List.mem_append_right _ hr)] at hfits
    cases hfits
  rw [carried_of_not_isFunction hfunction]
  refine ⟨h.names, hkind.trans h.kind, ⟨fun hk => ?_, fun field hfield => ?_⟩, fun q hq => ?_,
    fun q hq => ?_, fun p hpk k hk c hc => ?_⟩
  · rw [Tree.isKind, hkind, ← Tree.isKind] at hk
    exact h.level.1 hk
  · change statementField? (r.result u).kind = some field at hfield
    rw [Tree.kind_of_kind? (hkind.trans (kind?_of_fits hb.pattern hfits)), hb.unlisted] at hfield
    cases hfield
  · rcases List.mem_append.mp hq with hq | hq
    · exact fits_of_clash (clash_simple q hq r hrules) _
    · rw [List.mem_singleton.mp hq]
      exact fits_of_clash (clash_interop r (List.mem_append_right _ hr)) _
  · rcases h.used q hq with hm | hno
    · rcases List.mem_cons.mp (hp.subset hm) with rfl | hm
      · exact Or.inr (not_refits hr u)
      · exact Or.inl hm
    · refine Or.inr (Bool.eq_false_iff.mpr fun hf => ?_)
      rw [fits_of_result hq hr hfits hf] at hno
      cases hno
  · exact h.orderly_result hr hb hfits (hpk.trans hkind) hk hc

/-! ### The second run -/

def Braced (t : Tree) : Prop :=
  ∀ r ∈ braceRules, r.pattern.fits t = false

theorem orderly_congr {a b : Tree} (hab : a.kind? = b.kind?) {key : Option String} {t : Tree}
    (h : Orderly ⟨some a, key⟩ t) : Orderly ⟨some b, key⟩ t := by
  have hlike : Place.Like ⟨some a, key⟩ ⟨some b, key⟩ := ⟨rfl, congrArg some hab⟩
  obtain ⟨hcalm, hlevel⟩ := (Tree.throughout_iff.mp h).1
  refine Tree.Throughout.move h ⟨fun hl => hcalm ?_, level_like Tree.likeness_numbered hlike rfl hlevel⟩
  rwa [isLoopHead_like Tree.likeness_numbered hlike rfl] at hl

theorem below_of_orderly {place : Place} {t : Tree} (h : Orderly place t) (p : Tree)
    (hp : p.kind? = t.kind?) {key : String} (hk : key ∈ t.childKeys) {c : Tree}
    (hc : c ∈ t.childrenAt key) : Orderly ⟨some p, some key⟩ c :=
  orderly_congr hp.symm ((Tree.throughout_iff.mp h).2 key hk c hc)

theorem bracing_start {place : Place} {t : Tree} {s : State} (hs : s.names = ∅)
    (h : Orderly place t) (hhead : isLoopHead t place = false) : Bracing place t rules t s := by
  obtain ⟨hcalm, hlevel⟩ := (Tree.throughout_iff.mp h).1
  exact ⟨hs, rfl, hlevel, hcalm hhead, fun r hr => Or.inl (mem_rules.mpr (Or.inr (Or.inl hr))),
    fun p hp key hk c hc => below_of_orderly h p hp hk hc⟩

theorem current_of_empty {s : State} (hs : s.names = ∅) (t : Tree) : s.current t = t := by
  rw [State.current, hs]
  exact if_pos (by simp)

theorem braced_of_isLoopHead {t : Tree} {place : Place} (h : isLoopHead t place = true) :
    Braced t := by
  have hkind : ∀ r ∈ braceRules, r.pattern.kind?.isSome = true ∧
      r.pattern.kind? ≠ some "VariableDeclaration" := by decide
  rw [isLoopHead, Bool.and_eq_true, Bool.and_eq_true, Tree.isKind_iff] at h
  intro r hr
  obtain ⟨hsome, hne⟩ := hkind r hr
  obtain ⟨kind, hk⟩ := Option.isSome_iff_exists.mp hsome
  exact not_fits_of_kind hk h.1.1 fun he => hne (he ▸ hk)

theorem not_fits_of_idle {r : Rule} (hr : r ∈ simpleRules ++ braceRules) {t : Tree}
    (h : r.apply? t = none) : r.pattern.fits t = false := by
  rw [← Bool.not_eq_true]
  intro hf
  rw [Rule.apply?_eq (linear_of_mem r hr), if_pos hf] at h
  cases h

theorem entered_orderly {place : Place} {t : Tree} {s : State} (hs : s.names = ∅)
    (h : Orderly place t) : (enter t place s).2.names = ∅ ∧ Level place (entered t place s) ∧
      (entered t place s).kind? = t.kind? ∧ (t.isNode = true → Braced (entered t place s)) ∧
      ∀ p : Tree, p.kind? = (entered t place s).kind? → ∀ key ∈ (entered t place s).childKeys,
        ∀ c ∈ (entered t place s).childrenAt key, Orderly ⟨some p, some key⟩ c := by
  have hlevel := (Tree.throughout_iff.mp h).1.2
  cases hhead : isLoopHead t place with
  | true =>
    have he : enter t place s = (none, s) := by
      rw [enter, hhead, Bool.or_true]
      rfl
    rw [entered, he]
    exact ⟨hs, hlevel, rfl, fun _ => braced_of_isLoopHead hhead,
      fun p hp key hk c hc => below_of_orderly h p hp hk hc⟩
  | false =>
    have hstart : Bracing place t rules (s.current t) s := by
      rw [current_of_empty hs]
      exact bracing_start hs h hhead
    rcases enter_cases place (fun rs r rs' u s v hrs hb hp hv => (hb.step hrs hp hv).2) hstart with
      ⟨he, hwhy⟩ | ⟨rs', u, s', he, -, hb, hnone, -⟩
    · rw [entered, he]
      refine ⟨hs, hlevel, rfl, fun hn r hr => ?_, fun p hp key hk c hc => below_of_orderly h p hp hk hc⟩
      rcases hwhy with hno | hl | hnone
      · rw [hn] at hno
        cases hno
      · rw [hhead] at hl
        cases hl
      · have hno := hnone r (mem_rules.mpr (Or.inr (Or.inl hr)))
        rw [current_of_empty hs] at hno
        exact not_fits_of_idle (List.mem_append_right _ hr) hno
    · rw [entered, he]
      refine ⟨hb.names, hb.level, hb.kind, fun _ r hr => ?_, hb.below⟩
      rcases hb.used r hr with hm | hno
      · exact not_fits_of_idle (List.mem_append_right _ hr) (hnone r hm)
      · exact hno

theorem used_orderly {place : Place} {t : Tree} {s : State} {log : List Rule} (hs : s.names = ∅)
    (h : Orderly place t) (hlog : log ⊆ braceRules) :
    (enterLogged t place (s, log)).2.2 ⊆ braceRules := by
  rw [enterLogged]
  split
  · exact hlog
  · rename_i hskip
    rw [Bool.or_eq_true, not_or, Bool.not_eq_true] at hskip
    have hused := (settleLogged_spec (P := fun rs u s => rs ⊆ rules ∧ Bracing place t rs u s)
      (Q := fun r => r ∈ braceRules) (fun rs r rs' u s v hb hp hv => by
        obtain ⟨hr, hb'⟩ := hb.2.step hb.1 hp hv
        exact ⟨hr, fun q hq => hb.1 (hp.symm.subset (List.mem_cons_of_mem _ hq)), hb'⟩)
      (Nat.le_refl rules.length) ⟨List.Subset.refl _, bracing_start hs h (by simpa using hskip.2)⟩).1
    rw [current_of_empty hs]
    generalize settleLogged rules.length rules t s = x at hused ⊢
    obtain ⟨used, v, s'⟩ := x
    cases v <;> exact List.append_subset.mpr ⟨hlog, hused⟩

def shallow : Pattern → Bool
  | .object fs => fs.all fun f =>
    match f.2 with
    | .hole _ => true
    | .scalar _ => true
    | _ => false
  | _ => false

theorem shallow_brace : ∀ r ∈ braceRules, shallow r.pattern = true := by
  decide

structure Steadied (place : Place) (t u : Tree) : Prop where
  node : u.isNode = true
  distinct : u.distinct = true
  kind : u.kind? = t.kind?
  braced : Tree.Throughout (fun _ c => Braced c) place u

section

variable {R : Place → Tree → Tree → Prop}
  (hR : ∀ place c d, R place c d → d.isNode = true ∧ d.kind? = c.kind?) {keys : List String}
  {t u : Tree}

include hR

theorem fits_shallow_of_walked (ht : t.isNode = true) (h : Tree.Walked R keys t u) {p : Pattern}
    (hp : shallow p = true) (hf : p.fits u = true) : p.fits t = true := by
  cases p with
  | hole _ => cases hp
  | scalar _ => cases hp
  | list _ => cases hp
  | object fs =>
    rw [fits_object_iff] at hf ⊢
    refine ⟨Tree.eq_object_of_isNode ht, fun f hfm hi => ?_⟩
    have hfit := hf.2 f hfm hi
    have hshape := List.all_eq_true.mp hp f hfm
    by_cases hk : f.1 ∈ keys
    · have hg := h.child f.1 hk
      generalize t.get f.1 = c at hg ⊢
      generalize u.get f.1 = d at hg hfit
      cases hg with
      | other _ => exact hfit
      | node hc hcd =>
        obtain ⟨p, -, hcd⟩ := hcd
        obtain ⟨hd, hkind⟩ := hR _ _ _ hcd
        split at hshape
        · rename_i g hg
          rw [hg] at hfit ⊢
          rw [fits, accepts_of_isNode g hd, Tree.kind, hkind, ← Tree.kind] at hfit
          rwa [fits, accepts_of_isNode g hc]
        · rename_i a ha
          rw [ha] at hfit
          obtain ⟨tag, gs, rfl⟩ := Tree.eq_object_of_isNode hd
          cases hfit
        · cases hshape
      | @list cs ds hs =>
        split at hshape
        · rename_i g hg
          rw [hg] at hfit
          exact absurd rfl (not_list_of_accepts hfit ds)
        · rename_i a ha
          rw [ha] at hfit
          cases hfit
        · cases hshape
    · rwa [h.other f.1 hk] at hfit

theorem level_walked {place : Place} (hkind : u.kind? = t.kind?) (hkeys : t.childKeys ⊆ keys)
    (h : Tree.Walked R keys t u) (hl : Level place t) : Level place u := by
  constructor
  · rw [Tree.isKind, hkind, ← Tree.isKind]
    exact hl.1
  · intro field hfield d hd
    rw [Tree.kind, hkind, ← Tree.kind] at hfield
    have hkey : field ∈ keys := by
      refine hkeys ?_
      have ht : ∀ kind, t.kind = kind → kind ≠ "" → t.kind? = some kind := fun _ => Tree.kind?_of_kind
      rcases statementField?_cases hfield with ⟨hk, rfl⟩ | ⟨hk, rfl⟩ | ⟨hk, rfl⟩ <;>
        rw [Tree.childKeys_of_kind? (ht _ hk (by decide)) rfl] <;> decide
    have hitems := hl.2 field hfield
    have hg := h.child field hkey
    generalize t.get field = c at hg hitems
    generalize u.get field = v at hg hd
    cases hg with
    | other _ => exact hitems d hd
    | node _ hcd =>
      obtain ⟨p, -, hcd⟩ := hcd
      obtain ⟨tag, fs, rfl⟩ := Tree.eq_object_of_isNode (hR _ _ _ hcd).1
      cases hd
    | list hs =>
      obtain ⟨c, hc, hcd⟩ := exists_of_forall₂ hs hd
      have hc' := hitems c hc
      rw [Tree.Held] at hcd
      split at hcd
      · obtain ⟨p, -, hcd⟩ := hcd
        rwa [Tree.isKind, (hR _ _ _ hcd).2, ← Tree.isKind]
      · rwa [hcd]

end

section

variable {t : Tree} {place : Place} {s : State} (hn : t.isNode = true) (hd : t.distinct = true)
  (hs : s.names = ∅) (h : Orderly place t) {v : Tree}
  (hv : Tree.Walked Steadied (entered t place s).childKeys (entered t place s) v)

include hn hd hs h hv

theorem steadied_left : Steadied place t (left v place) := by
  have hR : ∀ place c d, Steadied place c d → d.isNode = true ∧ d.distinct = true :=
    fun _ _ _ h => ⟨h.node, h.distinct⟩
  have hkinds : ∀ place c d, Steadied place c d → d.isNode = true ∧ d.kind? = c.kind? :=
    fun _ _ _ h => ⟨h.node, h.kind⟩
  obtain ⟨-, hlevel, hkind, hbraced, -⟩ := entered_orderly hs h
  have hun := isNode_entered hn place s
  have hud := distinct_entered hd place s
  have hkind' := hv.kind? hR hud (List.Subset.refl _)
  rw [left_of_level (level_walked hkinds hkind' (List.Subset.refl _) hv hlevel)]
  refine ⟨hv.node, hv.distinct hR hun hud, hkind'.trans hkind, Tree.throughout_iff.mpr
    ⟨fun r hr => Bool.eq_false_iff.mpr fun hf => ?_, fun key hkey d hd => ?_⟩⟩
  · have hno := hbraced hn r hr
    rw [fits_shallow_of_walked hkinds hun hv (shallow_brace r hr) hf] at hno
    cases hno
  · rw [hv.childKeys hR hun hud (List.Subset.refl _)] at hkey
    have hheld := (hv.child key hkey).heldNodes (Tree.distinct_replaced hR)
    obtain ⟨c, -, p, -, hcd⟩ := exists_of_forall₂ hheld hd
    exact hcd.braced.move (Tree.throughout_iff.mp hcd.braced).1

end

theorem steadies {t : Tree} (hn : t.isNode = true) (hd : t.distinct = true)
    (h : Orderly ⟨none, none⟩ t) : ∃ u s log, walkLogged t = some (u, s, log) ∧
      Steadied ⟨none, none⟩ t u ∧ s.names = ∅ ∧ log ⊆ braceRules := by
  have hsure : Sure (fun x : State × List Rule => x.1.names = ∅ ∧ x.2 ⊆ braceRules)
      (Tree.replace? enterLogged leaveLogged (t.weight + 1) ⟨none, none⟩ t)
      (Steadied ⟨none, none⟩ t) := by
    refine walk_sure Prod.fst Steadied Orderly (fun t place x => ?_) (fun _ _ _ => rfl)
      (fun _ _ _ h => ⟨h.node, h.distinct⟩) (fun t place x _ _ hp hx => ?_)
      (fun t place x hn hd hp hx v hv => steadied_left hn hd hx.1 hp hv) hn hd h
    · rw [enterLogged_eq]
    · obtain ⟨hnames, -, -, -, hbelow⟩ := entered_orderly hx.1 hp
      rw [enterLogged_eq] at hnames
      exact ⟨hbelow, hnames, used_orderly hx.1 hp hx.2⟩
  obtain ⟨u, x, he, hu, hx⟩ := hsure (⟨Scope.ofTree t, ∅, 0⟩, []) ⟨rfl, List.nil_subset _⟩
  exact ⟨u, x.1, x.2, he, hu, hx.1, hx.2⟩

/-! ### The third run -/

def Settled (place : Place) (t : Tree) : Prop :=
  Orderly place t ∧ Tree.Throughout (fun _ c => Braced c) place t

theorem enter_of_settled {t : Tree} {place : Place} {s : State} (hs : s.names = ∅)
    (h : Settled place t) : enter t place s = (none, s) := by
  cases hhead : isLoopHead t place with
  | true =>
    rw [enter, hhead, Bool.or_true]
    rfl
  | false =>
    rcases enter_cases (P := fun _ _ _ => True) (t := t) place (s := s)
      (fun _ _ _ _ _ _ _ _ _ _ => trivial) trivial with
      ⟨he, -⟩ | ⟨rs', w, s', -, -, -, -, hc⟩
    · exact he
    · obtain ⟨u, ⟨r, hr, v, hv, -⟩, -⟩ := Relation.TransGen.head'_iff.mp hc
      have hfits := (fits_of_applied hr hv).1
      rw [current_of_empty hs] at hfits
      have hno : r.pattern.fits t = false := by
        rcases mem_rules.mp hr with hm | hm | hm
        · exact (Tree.throughout_iff.mp h.1).1.1 hhead r (List.mem_append_left _ hm)
        · exact (Tree.throughout_iff.mp h.2).1 r hm
        · exact (Tree.throughout_iff.mp h.1).1.1 hhead r
            (List.mem_append_right _ (List.mem_singleton.mpr hm))
      rw [hno] at hfits
      cases hfits

theorem rests {t : Tree} (hn : t.isNode = true) (hd : t.distinct = true)
    (h : Settled ⟨none, none⟩ t) : ∃ s, walk t = some (t, s) ∧ s.names = ∅ ∧ s.count = 0 := by
  have hsure : Sure (fun s : State => s.names = ∅ ∧ s.count = 0)
      (Tree.replace? enter leave (t.weight + 1) ⟨none, none⟩ t)
      (fun u => u = t ∧ u.isNode = true ∧ u.distinct = true) := by
    refine walk_sure id (fun _ c d => d = c ∧ d.isNode = true ∧ d.distinct = true) Settled
      (fun _ _ _ => rfl) leave_state
      (fun _ _ _ h => h.2) (fun t place s _ _ hp hs => ?_) (fun t place s hn hd hp hs v hv => ?_)
      hn hd h
    · have he := enter_of_settled hs.1 hp
      rw [entered, id, he]
      refine ⟨fun p hpk key hk c hc => ⟨below_of_orderly hp.1 p hpk hk hc, ?_⟩, hs⟩
      have hbraced := (Tree.throughout_iff.mp hp.2).2 key hk c hc
      exact hbraced.move (Tree.throughout_iff.mp hbraced).1
    · rw [entered, id, enter_of_settled hs.1 hp] at hv
      obtain rfl := Tree.eq_of_walked (fun _ _ _ h => h.1) hn hd hv
      rw [left_of_level (Tree.throughout_iff.mp hp.1).1.2]
      exact ⟨rfl, hn, hd⟩
  obtain ⟨u, s, he, ⟨rfl, -, -⟩, hs⟩ := hsure ⟨Scope.ofTree t, ∅, 0⟩ ⟨rfl, rfl⟩
  exact ⟨s, he, hs⟩

/-! ### Three runs -/

theorem orderly_of_spent {place : Place} {t : Tree}
    (h : Tree.Throughout (fun p c => Spent p c ∧ Level p c) place t) : Orderly place t :=
  (calm_of_spent (h.imp fun _ _ h => h.1)).and (h.imp fun _ _ h => h.2)

theorem nameless_brace : ∀ r ∈ braceRules, r.pattern.nameless = true := by
  decide

theorem braced_like {L : Tree → Tree → Prop} (hL : Tree.Likeness L) {t u : Tree} (htu : L t u)
    (h : Braced t) : Braced u := by
  intro r hr
  rw [fits_alike hL (nameless_brace r hr) htu]
  exact h r hr

theorem orderly_numbered {t : Tree} (hk : t.kind? = some "Program") (hd : t.distinct = true) :
    Orderly ⟨none, none⟩ (simplify t).1.numbered := by
  obtain ⟨-, hd', h⟩ := exhausted_simplify hk hd
  have hlike := Tree.likeness_numbered
  exact orderly_of_spent (h.alike hlike (fun hpq htu h =>
    ⟨spent_like hlike hpq htu h.1, level_like hlike hpq htu h.2⟩) ⟨rfl, rfl⟩
    (Tree.untagged_numbered _) hd')

theorem matches?_of_not_fits {p : Pattern} {t : Tree} (h : p.fits t = false) :
    p.matches? t = none := by
  cases hm : p.matches? t with
  | none => rfl
  | some x =>
    rw [fits_of_matches? hm] at h
    cases h

theorem braces_simplify {t : Tree} (hk : t.kind? = some "Program") (hd : t.distinct = true) :
    (∃ u s log, walkLogged (simplify t).1.numbered = some (u, s, log) ∧
        walk (simplify t).1.numbered = some (u, s) ∧ ∀ r ∈ log, r ∈ braceRules) ∧
      Tree.Throughout (fun _ c => Braced c) ⟨none, none⟩ (simplify (simplify t).1).1.numbered := by
  obtain ⟨hk₁, hd₁, -⟩ := exhausted_simplify hk hd
  have hn₁ := isNode_of_kind? ((kind?_numbered _).trans hk₁)
  obtain ⟨u, s, log, hlogged, hu, -, hlog⟩ :=
    steadies hn₁ (distinct_numbered hd₁) (orderly_numbered hk hd)
  have hwalk : walk (simplify t).1.numbered = some (u, s) := by
    rw [← walkLogged_erase, hlogged]
    rfl
  refine ⟨⟨u, s, log, hlogged, hwalk, hlog⟩, ?_⟩
  obtain ⟨u', s', hwalk', hsimplify, -⟩ := exists_walk hk₁ hd₁
  obtain ⟨rfl, rfl⟩ := Prod.mk.inj (Option.some.inj (hwalk.symm.trans hwalk'))
  have hnames := Tree.likeness_apply s.names
  have hnumbers := Tree.likeness_numbered
  have hrenamed := hu.braced.alike hnames (fun _ htu h => braced_like hnames htu h) ⟨rfl, rfl⟩ rfl
    hu.distinct
  rw [hsimplify]
  exact hrenamed.alike hnumbers (fun _ htu h => braced_like hnumbers htu h) ⟨rfl, rfl⟩
    (Tree.untagged_numbered _) (s.names.distinct_apply hu.distinct)

theorem simplify_of_settled {t : Tree} (hk : t.kind? = some "Program") (hd : t.distinct = true)
    (h : Settled ⟨none, none⟩ t.numbered) :
    (simplify t).2 = 0 ∧ (simplify t).1.same t = true := by
  obtain ⟨s, hrest, hnames, hcount⟩ :=
    rests (isNode_of_kind? ((kind?_numbered t).trans hk)) (distinct_numbered hd) h
  obtain ⟨u, s', hwalk, hsimplify, -⟩ := exists_walk hk hd
  obtain ⟨rfl, rfl⟩ := Prod.mk.inj (Option.some.inj (hrest.symm.trans hwalk))
  rw [hsimplify]
  refine ⟨hcount, ?_⟩
  rw [hnames, Names.apply_empty]
  exact Tree.same_numbered hd

/-- After one run no rule but those for braces matches, apart from declarations in the heads of loops;
the second run puts braces only; the third one finds nothing to do. -/
theorem stabilises {t : Tree} (hk : t.kind? = some "Program") (hd : t.distinct = true) :
    (∀ v ∈ (simplify t).1.traverse, ∃ p : Place, p.parent = v.parent ∧
        Tree.Reaches ⟨none, none⟩ (simplify t).1 p v.node) ∧
      (∀ p c, Tree.Reaches ⟨none, none⟩ (simplify t).1 p c → isLoopHead c p = false →
        ∀ r ∈ rules, r ∈ braceRules ∨ r.pattern.matches? c = none) ∧
      (∃ u s log, walkLogged (simplify t).1.numbered = some (u, s, log) ∧
        walk (simplify t).1.numbered = some (u, s) ∧ ∀ r ∈ log, r ∈ braceRules) ∧
      (simplify (simplify (simplify t).1).1).2 = 0 ∧
      (simplify (simplify (simplify t).1).1).1.same (simplify (simplify t).1).1 = true := by
  obtain ⟨hk₁, hd₁, hspent⟩ := exhausted_simplify hk hd
  obtain ⟨hk₂, hd₂, -⟩ := exhausted_simplify hk₁ hd₁
  obtain ⟨hsecond, hbraced⟩ := braces_simplify hk hd
  have hthird := simplify_of_settled hk₂ hd₂ ⟨orderly_numbered hk₁ hd₁, hbraced⟩
  refine ⟨fun v hv => Tree.exists_reaches_of_mem_visits (p := ⟨none, none⟩) hv,
    fun p c hr hhead r hrule => ?_, hsecond, hthird⟩
  have hcalm := calm_of_spent (hspent.imp fun _ _ h => h.1) p c hr hhead
  rcases mem_rules.mp hrule with hm | hm | hm
  · exact Or.inr (matches?_of_not_fits (hcalm r (List.mem_append_left _ hm)))
  · exact Or.inl hm
  · exact Or.inr (matches?_of_not_fits
      (hcalm r (List.mem_append_right _ (List.mem_singleton.mpr hm))))

def nestedCondition : Tree :=
  Form.program
    [Form.ifStatement (Form.identifier "x")
      (Form.expressionStatement
        (Form.binaryExpression "&&" (Form.identifier "a") (Form.identifier "b"))) Form.null]

theorem stabilises_nestedCondition :
    nestedCondition.kind? = some "Program" ∧ nestedCondition.distinct = true ∧
      (∃ u s log, walkLogged (simplify nestedCondition).1.numbered = some (u, s, log) ∧
        walk (simplify nestedCondition).1.numbered = some (u, s) ∧ ∀ r ∈ log, r ∈ braceRules) ∧
      (simplify (simplify (simplify nestedCondition).1).1).2 = 0 := by
  have hd : nestedCondition.distinct = true := by decide
  obtain ⟨-, -, hlog, hcount, -⟩ := stabilises (t := nestedCondition) rfl hd
  exact ⟨rfl, hd, hlog, hcount⟩

end Legible.Simplify
