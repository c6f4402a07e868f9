import Legible.Proofs.Simplify.Distinct
import Legible.Proofs.Tree.Total

/-!
Simplification comes to an end: whatever chain of rules a node goes through, its children are lighter
afterwards than it was itself.
-/

namespace Legible

namespace Pattern

def parts : Pattern → List Pattern
  | .object fs => fs.flatMap fun f =>
    match f.2 with
    | .list ps => ps
    | p => [p]
  | _ => []

theorem mem_builtItems {s : Assignment} {ps : List Pattern} {c : Tree} (h : c ∈ builtItems s ps) :
    ∃ p ∈ ps, c ∈ p.spliced (p.built s) := by
  induction ps with
  | nil => cases h
  | cons p ps ih =>
    rw [builtItems, List.mem_append] at h
    rcases h with h | h
    · exact ⟨p, List.mem_cons_self, h⟩
    · obtain ⟨q, hq, h⟩ := ih h
      exact ⟨q, List.mem_cons_of_mem _ hq, h⟩

theorem weight_le_of_mem_spliced {p : Pattern} {t c : Tree} (h : c ∈ p.spliced t) :
    c.weight ≤ t.weight := by
  rw [← sum_weight_spliced p t]
  exact List.le_sum_of_mem (List.mem_map_of_mem h)

theorem exists_part {s : Assignment} {fs : List (String × Pattern)} {c : Tree}
    (h : c ∈ ((object fs).built s).children) :
    ∃ p ∈ (object fs).parts, c.weight ≤ (p.built s).weight := by
  obtain ⟨key, -, hc⟩ := Tree.mem_children.mp h
  rw [Tree.childrenAt, built, Tree.get_object, lookup_builtFields] at hc
  cases hl : fs.lookup key with
  | none => rw [hl] at hc; cases hc
  | some p =>
    rw [hl] at hc
    change c ∈ (p.built s).heldNodes at hc
    obtain ⟨l, r, rfl, -⟩ := List.lookup_eq_some_iff.mp hl
    have hparts : ∀ q ∈ (match p with | .list ps => ps | p => [p]),
        q ∈ (object (l ++ (key, p) :: r)).parts := fun q hq =>
      List.mem_flatMap.mpr ⟨(key, p), by simp, hq⟩
    cases p with
    | list ps =>
      rw [built] at hc
      obtain ⟨q, hq, hc⟩ := mem_builtItems (Tree.mem_heldNodes_of_list.mp hc).1
      exact ⟨q, hparts q hq, weight_le_of_mem_spliced hc⟩
    | hole _ | scalar _ | object _ =>
      exact ⟨_, hparts _ (List.mem_singleton_self _), Tree.weight_le_of_mem_heldNodes hc⟩

end Pattern

namespace Simplify

open Pattern

theorem lightens_parts : ∀ r ∈ simpleRules ++ braceRules, r.pattern.tidy = true ∧
    ∀ p ∈ r.replacement.parts, p.tidy = true ∧ r.pattern.lightens p = true := by
  decide

theorem lightens_interop : interopRule.pattern.tidy = true ∧
    interopRule.replacement.bulk ≤ interopRule.pattern.bulk ∧
    ∀ p ∈ interopRule.replacement.parts, p.tidy = true ∧ p.names = [] ∧
      p.bulk < interopRule.replacement.bulk := by
  decide

theorem isKind_pattern : ∀ r ∈ rules, r.pattern.kind?.isSome = true := by
  decide

theorem isKind_replacement : ∀ r ∈ rules, r.replacement.kind?.isSome = true := by
  decide

theorem exists_part_of_mem_rules {r : Rule} (hr : r ∈ rules) {s : Assignment} {c : Tree}
    (h : c ∈ (r.replacement.built s).children) :
    ∃ p ∈ r.replacement.parts, c.weight ≤ (p.built s).weight := by
  have hk := isKind_replacement r hr
  cases hq : r.replacement with
  | object fs =>
    rw [hq] at h
    exact exists_part h
  | hole _ => rw [hq] at hk; cases hk
  | scalar _ => rw [hq] at hk; cases hk
  | list _ => rw [hq] at hk; cases hk

theorem kind?_withName (t : Tree) (name : String) : (withName t name).kind? = t.kind? := by
  rw [Tree.kind?, withName, Tree.get_set_of_ne (by decide), Tree.kind?]

theorem exists_of_mem_children_withName {t c : Tree} {name : String} (ht : isFunction t = true)
    (h : c ∈ (withName t name).children) : ∃ d ∈ t.children, c.weight ≤ d.weight := by
  have hk : t.kind? = some "FunctionDeclaration" := eq_of_beq ht
  have hn := isNode_of_kind? hk
  have hk' := (kind?_withName t name).trans hk
  obtain ⟨key, hkey, hc⟩ := Tree.mem_children.mp h
  have hkeys : (withName t name).childKeys = t.childKeys :=
    (Tree.childKeys_of_kind? hk' rfl).trans (Tree.childKeys_of_kind? hk rfl).symm
  rw [hkeys] at hkey
  by_cases hid : key = "id"
  · subst hid
    rw [Tree.childrenAt, withName, Tree.get_set hn] at hc
    have hle := Nat.le_trans (Tree.weight_le_of_mem_heldNodes hc)
      (Tree.weight_set_text_le (by decide) (t.get "id") name)
    cases hv : t.get "id" with
    | scalar a => rw [hv] at hc; cases hc
    | list ts =>
      rw [hv] at hc
      refine ⟨c, Tree.mem_children.mpr ⟨"id", hkey, ?_⟩, Nat.le_refl _⟩
      rw [Tree.childrenAt, hv]
      exact hc
    | object tag fs =>
      have hnode : (t.get "id").isNode = true := by
        by_contra hno
        have hset : ((t.get "id").set "name" (.text name)).holdsNode = false := by
          rw [hv, Tree.isNode,
            ← Tree.field?_set_of_ne (by decide : "type" ≠ "name") _ (.text name)] at hno
          rw [hv]
          exact Bool.of_not_eq_true hno
        rw [Tree.heldNodes_of_not_holdsNode hset] at hc
        cases hc
      have hc : t.get "id" ∈ t.childrenAt "id" := Tree.self_mem_heldNodes hnode
      exact ⟨t.get "id", Tree.mem_children.mpr ⟨"id", hkey, hc⟩, hle⟩
  · rw [Tree.childrenAt, withName, Tree.get_set_of_ne hid] at hc
    exact ⟨c, Tree.mem_children.mpr ⟨key, hkey, hc⟩, Nat.le_refl _⟩

structure Bounded (n : Nat) (t : Tree) : Prop where
  children : ∀ c ∈ t.children, c.weight < n
  consequent : thenBraceRule.pattern.fits t = true → (t.get "consequent").weight + 1 < n
  alternate : elseBraceRule.pattern.fits t = true → (t.get "alternate").weight + 1 < n
  function : isFunction t = true → interopRule.replacement.bulk ≤ n

def Formed (t : Tree) : Prop :=
  ∃ r ∈ rules, ∃ s, t = r.replacement.built s ∨
    isFunction (r.replacement.built s) = true ∧ ∃ name, t = withName (r.replacement.built s) name

theorem not_fits_of_kind {p : Pattern} {kind other : String} (hp : p.kind? = some kind) {t : Tree}
    (ht : t.kind? = some other) (h : kind ≠ other) : p.fits t = false := by
  rw [← Bool.not_eq_true]
  intro hf
  exact h (Option.some.inj ((kind?_of_fits hp hf).symm.trans ht))

section

variable {r : Rule} {s : Assignment}

theorem kind_replacement : ∀ r ∈ simpleRules ++ braceRules,
    r.replacement.kind? ≠ some "FunctionDeclaration" := by
  decide

theorem kind_pattern : ∀ r ∈ simpleRules ++ braceRules,
    r.pattern.kind?.isSome = true ∧ r.pattern.kind? ≠ some "FunctionDeclaration" := by
  decide

theorem eq_interop_of_isFunction (hr : r ∈ rules) (h : isFunction (r.replacement.built s) = true) :
    r = interopRule := by
  refine (cases_of_mem_rules hr).resolve_left fun hr' => ?_
  obtain ⟨kind, hk⟩ := Option.isSome_iff_exists.mp (isKind_replacement r hr)
  have hb := kind?_built hk s
  rw [isFunction, Tree.isKind, hb] at h
  exact kind_replacement r hr' (hk.trans (eq_of_beq h))

theorem eq_elseBrace_of_fits (hr : r ∈ rules)
    (h : thenBraceRule.pattern.fits (r.replacement.built s) = true) : r = elseBraceRule := by
  have hno : r ∉ simpleRules ++ loopBraceRules ++ [interopRule, thenBraceRule] := by
    intro hm
    rw [fits_of_clash (clash_thenBrace r hm)] at h
    cases h
  rw [mem_rules, braceRules] at hr
  simp only [List.mem_append, List.mem_cons, List.not_mem_nil, or_false] at hno hr
  tauto

theorem eq_thenBrace_of_fits (hr : r ∈ rules)
    (h : elseBraceRule.pattern.fits (r.replacement.built s) = true) : r = thenBraceRule := by
  have hno : r ∉ simpleRules ++ loopBraceRules ++ [interopRule, elseBraceRule] := by
    intro hm
    rw [fits_of_clash (clash_elseBrace r hm)] at h
    cases h
  rw [mem_rules, braceRules] at hr
  simp only [List.mem_append, List.mem_cons, List.not_mem_nil, or_false] at hno hr
  tauto

end

theorem lightens_braced : elseBraceRule.pattern.lightens (braced "statement1") = true ∧
    thenBraceRule.pattern.lightens (braced "statement2") = true := by
  decide

theorem weight_braced (s : Assignment) (name : String) :
    ((braced name).built s).weight = (s name).weight + 1 := by
  rw [weight_built rfl]
  simp [braced, Form.blockStatement, Form.node, Form.object, Form.list, Form.text, Form.scalar,
    bulk, bulkFields, bulkItems, names, namesFields, namesItems, anyStatement, isIgnored,
    Tree.ownWeight, kind?, field?]
  omega

theorem weight_lt_of_mem_parts {r : Rule} (hr : r ∈ simpleRules ++ braceRules) {t : Tree}
    (ht : r.pattern.fits t = true) {p : Pattern} (hp : p ∈ r.replacement.parts) :
    (p.built (r.pattern.captured t).assignment).weight < t.weight := by
  obtain ⟨htidy, hparts⟩ := lightens_parts r hr
  obtain ⟨hpt, hlight⟩ := hparts p hp
  exact weight_lt_of_lightens (linear_iff hr).1 htidy hpt hlight ht

theorem weight_lt_of_mem_children_interop {s : Assignment} {c : Tree}
    (h : c ∈ (interopRule.replacement.built s).children) :
    c.weight < interopRule.replacement.bulk := by
  obtain ⟨p, hp, hle⟩ := exists_part_of_mem_rules (mem_rules.mpr (Or.inr (Or.inr rfl))) h
  obtain ⟨ht, hn, hb⟩ := lightens_interop.2.2 p hp
  rw [weight_built ht, hn] at hle
  exact Nat.lt_of_le_of_lt hle hb

theorem bounded_apply {r : Rule} (hr : r ∈ rules) {t u : Tree} (h : r.apply? t = some u) :
    Bounded t.weight u := by
  have hfits := (fits_of_applied hr h).1
  rcases cases_of_mem_rules hr with hr' | rfl
  · obtain ⟨-, rfl⟩ := apply?_linear hr' h
    refine ⟨fun c hc => ?_, fun hf => ?_, fun hf => ?_, fun hf => ?_⟩
    · obtain ⟨p, hp, hle⟩ := exists_part_of_mem_rules hr hc
      exact Nat.lt_of_le_of_lt hle (weight_lt_of_mem_parts hr' hfits hp)
    · obtain rfl := eq_elseBrace_of_fits hr hf
      have hlt := weight_lt_of_lightens (linear_iff hr').1 (lightens_parts _ hr').1 rfl
        lightens_braced.1 hfits
      rwa [weight_braced] at hlt
    · obtain rfl := eq_thenBrace_of_fits hr hf
      have hlt := weight_lt_of_lightens (linear_iff hr').1 (lightens_parts _ hr').1 rfl
        lightens_braced.2 hfits
      rwa [weight_braced] at hlt
    · rw [eq_interop_of_isFunction hr hf] at hr'
      exact absurd rfl (kind_replacement _ hr')
  · obtain ⟨s, rfl⟩ := (fits_of_applied hr h).2
    have hbulk : interopRule.replacement.bulk ≤ t.weight := by
      have := weight_captured lightens_interop.1 hfits
      have := lightens_interop.2.1
      omega
    refine ⟨fun c hc => ?_, fun hf => ?_, fun hf => ?_, fun _ => hbulk⟩
    · exact Nat.lt_of_lt_of_le (weight_lt_of_mem_children_interop hc) hbulk
    · rw [not_fits_of_kind rfl (kind?_built rfl s) (by decide)] at hf
      cases hf
    · rw [not_fits_of_kind rfl (kind?_built rfl s) (by decide)] at hf
      cases hf

theorem weight_get_lt {n : Nat} {t : Tree} (h : ∀ c ∈ t.children, c.weight < n) (hn : 0 < n)
    {key : String} (hk : key ∈ t.childKeys) {g : Placeholder} (ha : (hole g).fits (t.get key) = true) :
    (t.get key).weight < n := by
  rcases cases_of_accepts ha with ⟨a, hv⟩ | hnode
  · rw [hv]
    exact hn
  · exact h _ (Tree.mem_children.mpr ⟨key, hk, Tree.self_mem_heldNodes hnode⟩)

theorem not_fits_of_isFunction {t : Tree} (ht : isFunction t = true) {r : Rule}
    (hr : r ∈ simpleRules ++ braceRules) : r.pattern.fits t = false := by
  obtain ⟨hsome, hne⟩ := kind_pattern r hr
  obtain ⟨kind, hk⟩ := Option.isSome_iff_exists.mp hsome
  refine not_fits_of_kind hk (eq_of_beq ht) fun he => ?_
  rw [hk, he] at hne
  exact hne rfl

theorem Formed.not_fits {t : Tree} (h : Formed t) {r : Rule} (hr : r ∈ simpleRules ++ loopBraceRules) :
    r.pattern.fits t = false := by
  obtain ⟨q, hq, s, rfl | ⟨hf, name, rfl⟩⟩ := h
  · rcases List.mem_append.mp hr with hr | hr
    · exact fits_of_clash (clash_simple r hr q hq) s
    · exact fits_of_clash (clash_loopBrace r hr q hq) s
  · refine not_fits_of_isFunction ?_ (r := r) ?_
    · rwa [isFunction, Tree.isKind, kind?_withName]
    · rw [List.mem_append, braceRules] at *
      exact hr.imp_right fun hr => List.mem_cons_of_mem _ (List.mem_cons_of_mem _ hr)

theorem fits_ifStatement_iff {a b c : Pattern} {t : Tree} :
    (Form.ifStatement a b c : Pattern).fits t = true ↔ t.kind? = some "IfStatement" ∧
      a.fits (t.get "test") = true ∧ b.fits (t.get "consequent") = true ∧
        c.fits (t.get "alternate") = true := by
  simp [Form.ifStatement, fits_node_iff, isIgnored]

theorem fits_anyStatement {m n : String} {t : Tree} (h : (multiLineStatement m).fits t = true) :
    (anyStatement n).fits t = true := by
  simp only [multiLineStatement, anyStatement, fits, Placeholder.accepts, Slot.takes] at h ⊢
  split at h
  · cases h
  · rename_i hnull
    rw [if_neg hnull]
    simp only [Bool.and_eq_true] at h ⊢
    exact ⟨h.1, rfl, h.2.2⟩

theorem fits_optionalStatement {m n : String} {t : Tree} (h : (multiLineStatement m).fits t = true) :
    (optionalStatement n).fits t = true := by
  have h := fits_anyStatement (n := n) h
  simp only [optionalStatement, anyStatement, fits, Placeholder.accepts] at h ⊢
  split at h
  · cases h
  · rename_i hnull
    rwa [if_neg hnull]

theorem fits_elseBrace_of_result {t : Tree} (h : thenBraceRule.pattern.fits t = true)
    (hf : elseBraceRule.pattern.fits (thenBraceRule.result t) = true) :
    elseBraceRule.pattern.fits t = true := by
  obtain ⟨hk, htest, hthen, -⟩ := fits_ifStatement_iff.mp h
  obtain ⟨-, -, -, helse⟩ := fits_ifStatement_iff.mp hf
  exact fits_ifStatement_iff.mpr ⟨hk, htest, fits_anyStatement hthen, helse⟩

theorem fits_thenBrace_of_result {t : Tree} (h : elseBraceRule.pattern.fits t = true)
    (hf : thenBraceRule.pattern.fits (elseBraceRule.result t) = true) :
    thenBraceRule.pattern.fits t = true := by
  obtain ⟨hk, htest, -, helse⟩ := fits_ifStatement_iff.mp h
  obtain ⟨-, -, hthen, -⟩ := fits_ifStatement_iff.mp hf
  exact fits_ifStatement_iff.mpr ⟨hk, htest, hthen, fits_optionalStatement helse⟩

theorem Bounded.apply_thenBrace {n : Nat} {t : Tree} (h : Bounded n t)
    (hfits : thenBraceRule.pattern.fits t = true) : Bounded n (thenBraceRule.result t) := by
  have hr : thenBraceRule ∈ simpleRules ++ braceRules :=
    List.mem_append_right _ List.mem_cons_self
  obtain ⟨hk, htest, hthen, helse⟩ := fits_ifStatement_iff.mp hfits
  have hkeys := Tree.childKeys_of_kind? hk rfl
  have hlt := h.consequent hfits
  refine ⟨fun c hc => ?_, fun hf => ?_, fun hf => ?_, fun hf => ?_⟩
  · obtain ⟨p, hp, hle⟩ := exists_part_of_mem_rules (mem_rules_of_mem hr) hc
    refine Nat.lt_of_le_of_lt hle ?_
    have hparts : thenBraceRule.replacement.parts = [.scalar (.text "IfStatement"),
      anyExpression "expression1", braced "statement1", anyStatement "statement2"] := rfl
    rw [hparts] at hp
    simp only [List.mem_cons, List.not_mem_nil, or_false] at hp
    rcases hp with rfl | rfl | rfl | rfl
    · exact Nat.lt_of_le_of_lt (Nat.zero_le _) hlt
    · exact weight_get_lt h.children (by omega) (by rw [hkeys]; decide) htest
    · rw [weight_braced]
      exact hlt
    · exact weight_get_lt h.children (by omega) (by rw [hkeys]; decide) helse
  · cases eq_elseBrace_of_fits (mem_rules_of_mem hr) hf
  · exact h.alternate (fits_elseBrace_of_result hfits hf)
  · have := eq_interop_of_isFunction (mem_rules_of_mem hr) hf
    rw [this] at hr
    exact absurd rfl (kind_replacement _ hr)

theorem Bounded.apply_elseBrace {n : Nat} {t : Tree} (h : Bounded n t)
    (hfits : elseBraceRule.pattern.fits t = true) : Bounded n (elseBraceRule.result t) := by
  have hr : elseBraceRule ∈ simpleRules ++ braceRules :=
    List.mem_append_right _ (List.mem_cons_of_mem _ List.mem_cons_self)
  obtain ⟨hk, htest, hthen, helse⟩ := fits_ifStatement_iff.mp hfits
  have hkeys := Tree.childKeys_of_kind? hk rfl
  have hlt := h.alternate hfits
  refine ⟨fun c hc => ?_, fun hf => ?_, fun hf => ?_, fun hf => ?_⟩
  · obtain ⟨p, hp, hle⟩ := exists_part_of_mem_rules (mem_rules_of_mem hr) hc
    refine Nat.lt_of_le_of_lt hle ?_
    have hparts : elseBraceRule.replacement.parts = [.scalar (.text "IfStatement"),
      anyExpression "expression1", anyStatement "statement1", braced "statement2"] := rfl
    rw [hparts] at hp
    simp only [List.mem_cons, List.not_mem_nil, or_false] at hp
    rcases hp with rfl | rfl | rfl | rfl
    · exact Nat.lt_of_le_of_lt (Nat.zero_le _) hlt
    · exact weight_get_lt h.children (by omega) (by rw [hkeys]; decide) htest
    · exact weight_get_lt h.children (by omega) (by rw [hkeys]; decide) hthen
    · rw [weight_braced]
      exact hlt
  · exact h.consequent (fits_thenBrace_of_result hfits hf)
  · cases eq_thenBrace_of_fits (mem_rules_of_mem hr) hf
  · have := eq_interop_of_isFunction (mem_rules_of_mem hr) hf
    rw [this] at hr
    exact absurd rfl (kind_replacement _ hr)

theorem Bounded.apply {n : Nat} {t u : Tree} (h : Bounded n t) (hf : Formed t) {r : Rule}
    (hr : r ∈ rules) (hu : r.apply? t = some u) : Bounded n u := by
  obtain ⟨hfits, s, rfl⟩ := fits_of_applied hr hu
  have hno : r ∉ simpleRules ++ loopBraceRules := by
    intro hm
    rw [hf.not_fits hm] at hfits
    cases hfits
  have hcases : r = thenBraceRule ∨ r = elseBraceRule ∨ r = interopRule := by
    rw [mem_rules, braceRules] at hr
    simp only [List.mem_append, List.mem_cons] at hno hr
    tauto
  rcases hcases with rfl | rfl | rfl
  · rw [(apply?_linear (List.mem_append_right _ List.mem_cons_self) hu).2]
    exact h.apply_thenBrace hfits
  · have hm : elseBraceRule ∈ simpleRules ++ braceRules :=
      List.mem_append_right _ (List.mem_cons_of_mem _ List.mem_cons_self)
    rw [(apply?_linear hm hu).2]
    exact h.apply_elseBrace hfits
  · have hbulk : interopRule.replacement.bulk ≤ n :=
      h.function (beq_iff_eq.mpr (kind?_of_fits rfl hfits))
    refine ⟨fun c hc => ?_, fun hf => ?_, fun hf => ?_, fun _ => hbulk⟩
    · exact Nat.lt_of_lt_of_le (weight_lt_of_mem_children_interop hc) hbulk
    · rw [not_fits_of_kind rfl (kind?_built rfl s) (by decide)] at hf
      cases hf
    · rw [not_fits_of_kind rfl (kind?_built rfl s) (by decide)] at hf
      cases hf

theorem Bounded.withName {n : Nat} {t : Tree} (h : Bounded n t) (ht : isFunction t = true)
    (name : String) : Bounded n (withName t name) := by
  have hk := (kind?_withName t name).trans (eq_of_beq ht)
  refine ⟨fun c hc => ?_, fun hf => ?_, fun hf => ?_, fun _ => h.function ht⟩
  · obtain ⟨d, hd, hle⟩ := exists_of_mem_children_withName ht hc
    exact Nat.lt_of_le_of_lt hle (h.children d hd)
  · rw [not_fits_of_kind rfl hk (by decide)] at hf
    cases hf
  · rw [not_fits_of_kind rfl hk (by decide)] at hf
    cases hf

theorem bounded_chain {t u : Tree} (h : Relation.TransGen Step t u) : Bounded t.weight u ∧ Formed u := by
  have hformed : ∀ {t u}, Step t u → Formed u := by
    rintro t u ⟨r, hr, v, hv, hu⟩
    obtain ⟨s, rfl⟩ := (fits_of_applied hr hv).2
    exact ⟨r, hr, s, hu.imp_right And.right⟩
  induction h with
  | single h =>
    refine ⟨?_, hformed h⟩
    obtain ⟨r, hr, v, hv, rfl | ⟨-, hfun, name, rfl⟩⟩ := h
    · exact bounded_apply hr hv
    · exact (bounded_apply hr hv).withName hfun name
  | tail _ h ih =>
    refine ⟨?_, hformed h⟩
    obtain ⟨r, hr, v, hv, rfl | ⟨-, hfun, name, rfl⟩⟩ := h
    · exact ih.1.apply ih.2 hr hv
    · exact (ih.1.apply ih.2 hr hv).withName hfun name

/-! ### The walk -/

def entered (t : Tree) (place : Place) (s : State) : Tree :=
  (enter t place s).1.getD t

theorem entered_cases (t : Tree) (place : Place) (s : State) :
    entered t place s = t ∧ (t.isNode = true →
        isLoopHead t place = true ∨ ∀ r ∈ rules, r.apply? (s.current t) = none) ∨
      Relation.TransGen Step (s.current t) (entered t place s) := by
  rcases enter_cases (P := fun _ _ _ => True) (t := t) place (s := s)
    (fun _ _ _ _ _ _ _ _ _ _ => trivial) trivial with ⟨he, hwhy⟩ | ⟨rs', u, s', he, -, -, -, hc⟩
  · refine Or.inl ⟨by rw [entered, he]; rfl, fun hn => hwhy.resolve_left fun h => ?_⟩
    rw [hn] at h
    cases h
  · exact Or.inr (by rw [entered, he]; exact hc)

theorem distinct_entered {t : Tree} (h : t.distinct = true) (place : Place) (s : State) :
    (entered t place s).distinct = true := by
  rcases entered_cases t place s with ⟨he, -⟩ | hc
  · rwa [he]
  · exact distinct_chain hc (distinct_current h s)

theorem kind?_of_step {t u : Tree} (h : Step t u) : ∃ r ∈ rules, ∃ a b,
    r.pattern.kind? = some a ∧ r.replacement.kind? = some b ∧ t.kind? = some a ∧ u.kind? = some b := by
  obtain ⟨r, hr, v, hv, hu⟩ := h
  obtain ⟨hfits, s, rfl⟩ := fits_of_applied hr hv
  obtain ⟨a, ha⟩ := Option.isSome_iff_exists.mp (isKind_pattern r hr)
  obtain ⟨b, hb⟩ := Option.isSome_iff_exists.mp (isKind_replacement r hr)
  refine ⟨r, hr, a, b, ha, hb, kind?_of_fits ha hfits, ?_⟩
  rcases hu with rfl | ⟨-, -, name, rfl⟩
  · exact kind?_built hb s
  · rw [kind?_withName]
    exact kind?_built hb s

theorem isNode_entered {t : Tree} (h : t.isNode = true) (place : Place) (s : State) :
    (entered t place s).isNode = true := by
  rcases entered_cases t place s with ⟨he, -⟩ | hc
  · rwa [he]
  · obtain ⟨u, -, hu⟩ := Relation.TransGen.tail'_iff.mp hc
    obtain ⟨-, -, -, b, -, -, -, hb⟩ := kind?_of_step hu
    exact isNode_of_kind? hb

theorem weight_lt_of_mem_entered {t c : Tree} {place : Place} {s : State}
    (h : c ∈ (entered t place s).children) : c.weight < t.weight := by
  rcases entered_cases t place s with ⟨he, -⟩ | hc
  · rw [he] at h
    exact Tree.weight_lt_of_mem_children h
  · have hle : (s.current t).weight ≤ t.weight := by
      rw [State.current]
      split
      · exact Nat.le_refl _
      · exact Tree.weight_apply_le s.names t
    exact Nat.lt_of_lt_of_le ((bounded_chain hc).1.children c h) hle

/-- What the walk makes of a tree, with no bound on its depth. -/
def rewritten (t : Tree) (place : Place) : StateM State Tree := fun s =>
  let x := Tree.grown (entered t place s) (fun c _ place s => rewritten c place s) (enter t place s).2
  ((leave x.1 place x.2).1.getD x.1, (leave x.1 place x.2).2)
termination_by t.weight
decreasing_by
  rename_i h
  exact weight_lt_of_mem_entered h

theorem gives_rewritten {fuel : Nat} {t : Tree} (hd : t.distinct = true) (hfuel : t.weight < fuel)
    (place : Place) : Gives (Tree.replace? enter leave fuel place t) (rewritten t place) := by
  induction fuel generalizing t place with
  | zero => exact absurd hfuel (Nat.not_lt_zero _)
  | succ fuel ih =>
    intro s
    have hu := distinct_entered hd place s
    have hgrown : Gives (if (entered t place s).isNode then (entered t place s).childKeys.foldlM
          (Tree.walkField enter leave fuel) (entered t place s) else pure (entered t place s))
        (Tree.grown (entered t place s) fun c _ place => rewritten c place) := by
      refine Tree.gives_grown hu fun c hc place => ?_
      have := weight_lt_of_mem_entered hc
      exact ih (Tree.distinct_of_mem_children hu hc) (by omega) place
    have hrun : enter.run t place s = some (entered t place s, (enter t place s).2) := rfl
    rw [Tree.replace?_succ, bind_of_eq_some hrun, bind_of_eq_some (hgrown _), rewritten]
    rfl

/-- Children always become lighter, whatever chain of rules a node goes through; so the walk comes to
an end, and needs no bound. -/
theorem walk_terminates :
    (∀ t u, Relation.TransGen Step t u → ∀ c ∈ u.children, c.weight < t.weight) ∧
      (∀ t place s, ∀ c ∈ (entered t place s).children, c.weight < t.weight) ∧
        ∀ t, t.distinct = true →
          (∀ place s fuel, t.weight < fuel →
            Tree.replace? enter leave fuel place t s = some (rewritten t place s)) ∧
          walk t = some (rewritten t ⟨none, none⟩ ⟨Scope.ofTree t, ∅, 0⟩) := by
  refine ⟨fun t u h => (bounded_chain h).1.children, fun t place s c => weight_lt_of_mem_entered,
    fun t hd => ⟨fun place s fuel hfuel => gives_rewritten hd hfuel place s, ?_⟩⟩
  exact gives_rewritten hd (Nat.lt_succ_self _) _ _

def disjunction : Tree :=
  Form.expressionStatement
    (Form.binaryExpression "||" (Form.identifier "a") (Form.identifier "b"))

theorem walk_terminates_disjunction :
    (∃ u, Relation.TransGen Step disjunction u ∧ ∀ c ∈ u.children, c.weight < disjunction.weight) ∧
      disjunction.distinct = true ∧
      Tree.replace? enter leave 5 ⟨none, none⟩ disjunction ⟨Scope.ofTree disjunction, ∅, 0⟩ =
        some (rewritten disjunction ⟨none, none⟩ ⟨Scope.ofTree disjunction, ∅, 0⟩) := by
  have hr : orRule ∈ simpleRules ++ braceRules := by simp [simpleRules]
  have hfits : orRule.pattern.fits disjunction = true := by decide
  have hstep : Step disjunction (orRule.result disjunction) := by
    refine ⟨orRule, mem_rules_of_mem hr, _, ?_, Or.inl rfl⟩
    rw [Rule.apply?_eq (linear_of_mem _ hr), if_pos hfits]
  have hd : disjunction.distinct = true := by decide
  exact ⟨⟨_, .single hstep, walk_terminates.1 _ _ (.single hstep)⟩, hd,
    (walk_terminates.2.2 _ hd).1 _ _ 5 (by decide)⟩

end Simplify

end Legible
