import Legible.Proofs.Pattern.Grammar
import Legible.Proofs.Simplify.Exhaustion

namespace Legible.Simplify

open Pattern

variable {several : Bool} {place : Place} {c : Contents} {t u : Tree}

/-! ### Rules -/

def ownContents (p : Pattern) : Contents := .one p.kind?.toList

def Rule.keepsGrammar (r : Rule) : Bool :=
  r.pattern.suits (ownContents r.pattern) && r.replacement.suits (ownContents r.replacement) &&
    (r.replacement.needs (ownContents r.replacement)).all (fun n =>
      (r.pattern.provides (ownContents r.pattern)).any fun e => e.1 == n.1 && e.2.goesInto n.2) &&
    (r.pattern.provides (ownContents r.pattern)).all fun e =>
      (r.replacement.needs (ownContents r.replacement)).any fun n => e.1 == n.1 && e.2.goesInto n.2

theorem keepsGrammar_of_mem : ∀ r ∈ rules, r.keepsGrammar = true := by
  decide +kernel

theorem holds_ownContents {p : Pattern} {kind : String} (hp : p.kind? = some kind)
    (ht : t.kind? = some kind) : (ownContents p).holds several t ↔ t.formed several = true := by
  rw [ownContents, Contents.holds_node rfl ht, hp]
  exact and_iff_right (List.mem_singleton_self kind)

theorem exists_assignment {r : Rule} (hr : r ∈ rules) (h : r.apply? t = some u) :
    ∃ s, u = r.replacement.built s ∧ ∀ e ∈ r.pattern.captured t,
      e.1 ∈ (r.pattern.provides (ownContents r.pattern)).map (·.1) → s e.1 = e.2 := by
  rcases cases_of_mem_rules hr with hr' | rfl
  · obtain ⟨-, rfl⟩ := apply?_linear hr' h
    refine ⟨_, rfl, fun e he _ => ?_⟩
    rw [Captures.assignment, lookup_captured (linear_iff hr').1 he]
    rfl
  · obtain ⟨s, rfl⟩ := (fits_of_applied hr h).2
    have hnone : interopRule.pattern.provides (ownContents interopRule.pattern) = [] := by
      decide
    exact ⟨s, rfl, fun e _ hm => by rw [hnone] at hm; cases hm⟩

theorem formed_apply {r : Rule} (hr : r ∈ rules) (h : r.apply? t = some u)
    (ht : t.formed true = true) : u.formed several = true ↔ t.formed several = true := by
  have hkeeps := keepsGrammar_of_mem r hr
  simp only [Rule.keepsGrammar, Bool.and_eq_true, List.all_eq_true, List.any_eq_true, beq_iff_eq]
    at hkeeps
  obtain ⟨⟨⟨hp, hq⟩, hneeds⟩, hprovides⟩ := hkeeps
  obtain ⟨a, ha⟩ := Option.isSome_iff_exists.mp (isKind_pattern r hr)
  obtain ⟨b, hb⟩ := Option.isSome_iff_exists.mp (isKind_replacement r hr)
  have hf := (fits_of_applied hr h).1
  obtain ⟨s, rfl, hs⟩ := exists_assignment hr h
  have hk := kind?_of_fits ha hf
  have hfit : ∀ several, t.formed several = true ↔
      ∀ e ∈ r.pattern.provides (ownContents r.pattern), e.2.holds several (s e.1) := by
    intro several
    rw [← holds_ownContents ha hk]
    exact formed_pattern r.pattern hp hf ((holds_ownContents ha hk).mpr ht)
      (fun e he => List.mem_map_of_mem he) hs
  have htrue := (hfit true).mp ht
  rw [← holds_ownContents hb (kind?_built hb s), holds_built hq, hfit several]
  constructor
  · intro hall e he
    obtain ⟨n, hn, he', hgo⟩ := hprovides e he
    have hn := hall n hn
    rw [← he'] at hn
    exact (Contents.receives_iff hgo (htrue e he)).mp hn
  · intro hall n hn
    obtain ⟨e, he, he', hgo⟩ := hneeds n hn
    have he := (Contents.receives_iff hgo (htrue e he)).mpr (hall e he)
    rwa [he'] at he

theorem formed_withName (ht : isFunction t = true) (name : String) :
    (withName t name).formed several = true ↔ t.formed several = true := by
  have hk : t.kind? = some "FunctionDeclaration" := eq_of_beq ht
  have hk' := (kind?_withName t name).trans hk
  have hn := isNode_of_kind? hk
  refine Tree.formed_congr hn (isNode_of_kind? hk') (hk'.trans hk.symm) ?_ ?_ fun slots _ e _ => ?_
  · rw [Tree.worded, Tree.isKind, hk', Tree.worded, Tree.isKind, hk]
    rfl
  · rw [Tree.exportsSeveral, Tree.isKind, hk', Tree.exportsSeveral, Tree.isKind, hk]
    rfl
  · by_cases hid : e.1 = "id"
    · rw [hid, withName, Tree.get_set hn, Tree.holds_set_name]
    · rw [withName, Tree.get_set_of_ne hid]

theorem formed_step (h : Step t u) (ht : t.formed true = true) :
    u.formed several = true ↔ t.formed several = true := by
  obtain ⟨r, hr, v, hv, rfl | ⟨-, hfunction, name, rfl⟩⟩ := h
  · exact formed_apply hr hv ht
  · exact (formed_withName hfunction name).trans (formed_apply hr hv ht)

theorem formed_chain (h : Relation.TransGen Step t u) (ht : t.formed true = true) :
    u.formed true = true ∧ (u.formed several = true ↔ t.formed several = true) := by
  induction h with
  | single h => exact ⟨(formed_step h ht).mpr ht, formed_step h ht⟩
  | tail _ h ih => exact ⟨(formed_step h ih.1).mpr ih.1, (formed_step h ih.1).trans ih.2⟩

theorem formed_current (s : State) (t : Tree) :
    (s.current t).formed several = true ↔ t.formed several = true := by
  rw [State.current]
  split
  · rfl
  · exact (Tree.likeness_apply s.names).formed several rfl

theorem formed_entered (ht : t.formed true = true) (place : Place) (s : State) :
    (entered t place s).formed several = true ↔ t.formed several = true := by
  rcases entered_cases t place s with ⟨he, -⟩ | hc
  · rw [he]
  · rw [(formed_chain hc ((formed_current s t).mpr ht)).2, formed_current]

/-! ### Declarations of several variables -/

theorem exists_split {r : Rule} (hr : r ∈ rules)
    (hk : r.pattern.kind? = some "VariableDeclaration") : ∃ w ∈ declarationWords, r = splitRule w := by
  simp only [rules, List.mem_cons, List.not_mem_nil, or_false] at hr
  rcases hr with rfl | rfl | rfl | rfl | rfl | rfl | rfl | rfl | rfl | rfl | rfl | rfl | rfl | rfl |
    rfl | rfl | rfl | rfl | rfl | rfl | rfl | rfl
  all_goals first
    | exact ⟨"var", by decide, rfl⟩
    | exact ⟨"let", by decide, rfl⟩
    | exact ⟨"const", by decide, rfl⟩
    | exact absurd hk (by decide)

theorem mem_rules_split {w : String} (hw : w ∈ declarationWords) : splitRule w ∈ rules := by
  simp only [declarationWords, List.mem_cons, List.not_mem_nil, or_false] at hw
  rcases hw with rfl | rfl | rfl <;> simp [rules]

theorem declaresSeveral_of_fits {w : String} (h : (splitRule w).pattern.fits t = true) :
    t.declaresSeveral = true := by
  obtain ⟨d, ds, hds, -, hrun⟩ := fits_cons rfl (fits_get "declarations" rfl rfl h)
  have hne : ds ≠ [] := fun he => by
    rw [fits, fitsItems_run rfl] at hrun
    exact Bool.false_ne_true (hrun.2 he)
  have hlength := List.length_pos_of_ne_nil hne
  rw [Tree.declaresSeveral, Tree.isKind, kind?_of_fits rfl h, hds]
  rw [Tree.items, List.length_cons, Bool.and_eq_true, decide_eq_true_iff]
  exact ⟨rfl, Nat.succ_le_succ hlength⟩

theorem accepts_declarator {g : Placeholder} (hg : g.slot = .expression .any false true)
    (ht : t.kind? = some "VariableDeclarator") : g.accepts t = true := by
  rw [accepts_of_isNode g (isNode_of_kind? ht), hg, Tree.kind_of_kind? ht]
  rfl

theorem fits_split (ht : t.formed true = true) (h : t.declaresSeveral = true) :
    ∃ w ∈ declarationWords, (splitRule w).pattern.fits t = true := by
  rw [Tree.declaresSeveral, Bool.and_eq_true, decide_eq_true_iff, Tree.isKind_iff] at h
  obtain ⟨hk, hlength⟩ := h
  obtain ⟨hworded, -, hslots⟩ := (Tree.formed_iff hk rfl).mp ht
  rw [Tree.worded, Tree.isKind, hk, Bool.or_eq_true, Option.any_eq_true] at hworded
  obtain ⟨w, hw, hm⟩ := hworded.resolve_left (by decide)
  have hdeclarations := hslots ("declarations", .many ["VariableDeclarator"]) (by simp)
  obtain ⟨ts, hts⟩ := Contents.exists_list_of_holds rfl hdeclarations
  rw [hts] at hdeclarations hlength
  have hall : ∀ d ∈ ts, d.kind? = some "VariableDeclarator" := by
    intro d hd
    have hholds := (Contents.holds_list.mp hdeclarations).2 d hd
    rcases Contents.cases_of_holds rfl hholds with ⟨-, ho⟩ | ⟨kind, hkind, hkd, -⟩
    · cases ho
    · rwa [List.mem_singleton.mp hkind] at hkd
  refine ⟨w, List.contains_iff_mem.mp hm, fits_node_iff.mpr ⟨hk, fun f hf _ => ?_⟩⟩
  simp only [List.mem_cons, List.not_mem_nil, or_false] at hf
  rcases hf with rfl | rfl
  · rw [hts]
    cases ts with
    | nil => cases hlength
    | cons d ds =>
      have hne : ds ≠ [] := fun he => by
        rw [he] at hlength
        simp [Tree.items] at hlength
      rw [List.forall_mem_cons] at hall
      have hfirst : (anyDeclarator "expression1").fits d = true := by
        rw [anyDeclarator, fits]
        exact accepts_declarator rfl hall.1
      have hrest : fitsItems [declaratorRun "expression2"] ds = true :=
        (fitsItems_run rfl).mpr
          ⟨fun c hc => accepts_declarator rfl (hall.2 c hc), fun he => absurd he hne⟩
      exact Bool.and_eq_true_iff.mpr ⟨hfirst, hrest⟩
  · exact fits_of_text? hw

theorem applies_split (ht : t.formed true = true) (h : t.declaresSeveral = true) :
    ∃ r ∈ rules, r.apply? t ≠ none := by
  obtain ⟨w, hw, hf⟩ := fits_split ht h
  have hlinear : ∀ w ∈ declarationWords, (splitRule w).linear = true := by decide
  refine ⟨splitRule w, mem_rules_split hw, ?_⟩
  rw [Rule.apply?_eq (hlinear w hw), if_pos hf]
  exact Option.some_ne_none _

/-! ### Places -/

def contentsAt? (place : Place) : Option Contents :=
  (place.parent.bind Tree.kind?).bind fun kind =>
    (slots? kind).bind fun slots => place.key.bind fun key => slots.lookup key

theorem contentsAt?_of_mem {p : Tree} {kind : String} (hk : p.kind? = some kind)
    {slots : List (String × Contents)} (hs : slots? kind = some slots) {e : String × Contents}
    (he : e ∈ slots) : contentsAt? ⟨some p, some e.1⟩ = some e.2 := by
  simp [contentsAt?, hk, hs, lookup_of_mem_slots hs he]

theorem exists_slot (h : contentsAt? place = some c) : ∃ p kind key slots,
    place = ⟨some p, some key⟩ ∧ p.kind? = some kind ∧ (kind, slots) ∈ grammarTable ∧
      (key, c) ∈ slots := by
  obtain ⟨kind, hkind, h⟩ := Option.bind_eq_some_iff.mp h
  obtain ⟨p, hp, hk⟩ := Option.bind_eq_some_iff.mp hkind
  obtain ⟨slots, hs, h⟩ := Option.bind_eq_some_iff.mp h
  obtain ⟨key, hkey, h⟩ := Option.bind_eq_some_iff.mp h
  refine ⟨p, kind, key, slots, ?_, hk, mem_grammarTable hs, mem_of_lookup_eq h⟩
  rw [← hp, ← hkey]

def isListed (place : Place) : Bool :=
  place.parent.any fun p => statementField? p.kind == place.key

def isExported (place : Place) : Bool :=
  place.parent.any (·.isKind "ExportNamedDeclaration") && place.key == some "declaration"

theorem places_spec : ∀ e ∈ grammarTable, ∀ s ∈ e.2,
    (statementField? e.1 = some s.1 → s.2 = .many itemKinds) ∧
      (e.1 = "ExportNamedDeclaration" ∧ s.1 = "declaration" → s.2 = .maybe declarationKinds) ∧
      ("VariableDeclaration" ∈ s.2.kinds → "BlockStatement" ∈ s.2.kinds ∨
        (s.1 = "init" ∨ s.1 = "left") ∧ e.1 ∈ ["ForStatement", "ForInStatement", "ForOfStatement"] ∨
        e.1 = "ExportNamedDeclaration" ∧ s.1 = "declaration") := by
  decide

theorem kindChanges_spec : ∀ x ∈ kindChanges, x.1 ≠ "VariableDeclaration" →
    ∀ e ∈ grammarTable, ∀ s ∈ e.2, x.1 ∈ s.2.kinds →
      (x.2 ∈ s.2.kinds ∧ x.2 ≠ "VariableDeclaration") ∨
        x.2 = "Program" ∧ "BlockStatement" ∈ s.2.kinds := by
  decide

theorem contents_listed (h : contentsAt? place = some c) (hl : isListed place = true) :
    c = .many itemKinds := by
  obtain ⟨p, kind, key, slots, rfl, hk, hslots, hs⟩ := exists_slot h
  rw [isListed, Option.any_some, Tree.kind_of_kind? hk, beq_iff_eq] at hl
  exact (places_spec _ hslots _ hs).1 hl

theorem contents_exported (h : contentsAt? place = some c) (hx : isExported place = true) :
    c = .maybe declarationKinds := by
  obtain ⟨p, kind, key, slots, rfl, hk, hslots, hs⟩ := exists_slot h
  rw [isExported, Option.any_some, Bool.and_eq_true, beq_iff_eq, Tree.isKind_iff, hk] at hx
  exact (places_spec _ hslots _ hs).2.1 ⟨Option.some.inj hx.1, Option.some.inj hx.2⟩

theorem program_not_mem (h : contentsAt? place = some c) : "Program" ∉ c.kinds := by
  obtain ⟨p, kind, key, slots, -, -, hslots, hs⟩ := exists_slot h
  exact (slots_spec _ hslots _ hs).2.2.2.2

theorem places_of_declaration (h : contentsAt? place = some c)
    (hc : "VariableDeclaration" ∈ c.kinds) (ht : t.kind? = some "VariableDeclaration") :
    "BlockStatement" ∈ c.kinds ∨ isLoopHead t place = true ∨ isExported place = true := by
  obtain ⟨p, kind, key, slots, rfl, hk, hslots, hs⟩ := exists_slot h
  refine ((places_spec _ hslots _ hs).2.2 hc).imp_right (Or.imp ?_ ?_)
  · rintro ⟨hkey, hkind⟩
    simpa [isLoopHead, Tree.isKind_iff.mpr ht, hk] using ⟨hkey, by simpa using hkind⟩
  · rintro ⟨rfl, rfl⟩
    rw [isExported, Option.any_some, Tree.isKind_iff.mpr hk]
    rfl

/-! ### Kinds -/

def Suits (c : Contents) (t : Tree) : Prop :=
  ∃ kind ∈ c.kinds, t.kind? = some kind

theorem suits_of_step (hc : contentsAt? place = some c) (h : Step t u)
    (ht : Suits c t) (hne : t.kind? ≠ some "VariableDeclaration") :
    (Suits c u ∧ u.kind? ≠ some "VariableDeclaration") ∨
      u.kind? = some "Program" ∧ "BlockStatement" ∈ c.kinds := by
  obtain ⟨p, kind, key, slots, -, -, hslots, hs⟩ := exists_slot hc
  obtain ⟨x, hx, hxt, hxu⟩ := kind_of_step h
  obtain ⟨k, hk, hkt⟩ := ht
  rw [hxt] at hkt hne
  obtain rfl := Option.some.inj hkt
  have hother : x.1 ≠ "VariableDeclaration" := fun he => hne (congrArg some he)
  rcases kindChanges_spec x hx hother _ hslots _ hs hk with ⟨hm, hno⟩ | ⟨he, hm⟩
  · exact Or.inl ⟨⟨x.2, hm, hxu⟩, fun he => hno (Option.some.inj (hxu.symm.trans he))⟩
  · exact Or.inr ⟨he ▸ hxu, hm⟩

theorem suits_of_chain (hc : contentsAt? place = some c) (h : Relation.TransGen Step t u)
    (ht : Suits c t) (hne : t.kind? ≠ some "VariableDeclaration") :
    (Suits c u ∧ u.kind? ≠ some "VariableDeclaration") ∨
      u.kind? = some "Program" ∧ "BlockStatement" ∈ c.kinds := by
  induction h with
  | single h => exact suits_of_step hc h ht hne
  | tail _ h ih =>
    rcases ih with ⟨hv, hne'⟩ | ⟨hv, -⟩
    · exact suits_of_step hc h hv hne'
    · exact absurd h (not_step_program hv)

theorem program_of_step (h : Step t u) (ht : t.kind? = some "VariableDeclaration") :
    u.kind? = some "Program" ∧ t.declaresSeveral = true := by
  obtain ⟨r, hr, v, hv, hu⟩ := h
  obtain ⟨hf, s, rfl⟩ := fits_of_applied hr hv
  obtain ⟨a, ha⟩ := Option.isSome_iff_exists.mp (isKind_pattern r hr)
  obtain ⟨w, -, rfl⟩ := exists_split hr (ha.trans ((kind?_of_fits ha hf).symm.trans ht))
  refine ⟨?_, declaresSeveral_of_fits hf⟩
  rcases hu with rfl | ⟨hfunction, -⟩
  · exact kind?_built rfl s
  · rw [isFunction, Tree.isKind_iff, ht] at hfunction
    exact absurd (Option.some.inj hfunction) (by decide)

theorem program_of_chain (h : Relation.TransGen Step t u) (ht : t.kind? = some "VariableDeclaration") :
    u.kind? = some "Program" ∧ t.declaresSeveral = true := by
  induction h with
  | single h => exact program_of_step h ht
  | tail _ h ih => exact absurd h (not_step_program ih.1)

theorem declaresSeveral_current (s : State) (t : Tree) :
    (s.current t).declaresSeveral = t.declaresSeveral := by
  rw [State.current]
  split
  · rfl
  · exact (Tree.likeness_apply s.names).declaresSeveral rfl

theorem kind?_of_declaresSeveral (h : t.declaresSeveral = true) :
    t.kind? = some "VariableDeclaration" := by
  rw [Tree.declaresSeveral, Bool.and_eq_true] at h
  exact Tree.isKind_iff.mp h.1

theorem not_isExported_of_isLoopHead (h : isLoopHead t place = true) : isExported place = false := by
  rw [← Bool.not_eq_true]
  intro hx
  rw [isExported, Bool.and_eq_true, beq_iff_eq] at hx
  rw [isLoopHead_of_isHeadKey (by rw [hx.2]; rfl)] at h
  cases h

theorem entered_of_isLoopHead (h : isLoopHead t place = true) (s : State) :
    entered t place s = t := by
  rw [entered, enter, h, Bool.or_true]
  rfl

theorem kinds_entered (hc : contentsAt? place = some c) (hf : t.formed true = true) (ht : Suits c t)
    (s : State) :
    (Suits c (entered t place s) ∧ ¬ (isExported place = true ∧ t.declaresSeveral = true)) ∨
      (entered t place s).kind? = some "Program" ∧
        ("BlockStatement" ∈ c.kinds ∨ isExported place = true ∧ t.declaresSeveral = true) := by
  by_cases hhead : isLoopHead t place = true
  · rw [entered_of_isLoopHead hhead, not_isExported_of_isLoopHead hhead]
    exact Or.inl ⟨ht, fun h => Bool.false_ne_true h.1⟩
  rcases entered_cases t place s with ⟨he, hwhy⟩ | hchain
  · obtain ⟨kind, hm, hk⟩ := ht
    rw [he]
    refine Or.inl ⟨⟨kind, hm, hk⟩, fun h => ?_⟩
    have hseveral := (declaresSeveral_current s t).trans h.2
    obtain ⟨r, hr, happlies⟩ := applies_split ((formed_current s t).mpr hf) hseveral
    exact happlies ((hwhy (isNode_of_kind? hk)).resolve_left hhead r hr)
  · by_cases hd : t.kind? = some "VariableDeclaration"
    · obtain ⟨hprogram, hseveral⟩ := program_of_chain hchain ((kind?_current s t).trans hd)
      obtain ⟨kind, hm, hk⟩ := ht
      obtain rfl := Option.some.inj (hd.symm.trans hk)
      have hplaces := (places_of_declaration hc hm hd).imp_right (Or.resolve_left · hhead)
      rw [declaresSeveral_current] at hseveral
      exact Or.inr ⟨hprogram, hplaces.imp_right fun hx => ⟨hx, hseveral⟩⟩
    · have hcurrent : Suits c (s.current t) := by rwa [Suits, kind?_current]
      have hne : (s.current t).kind? ≠ some "VariableDeclaration" := by rwa [kind?_current]
      rcases suits_of_chain hc hchain hcurrent hne with ⟨hu, -⟩ | ⟨hu, hblock⟩
      · exact Or.inl ⟨hu, fun h => hd (kind?_of_declaresSeveral h.2)⟩
      · exact Or.inr ⟨hu, Or.inl hblock⟩

end Legible.Simplify
