import Legible.Proofs.Pattern.Build
import Legible.Simplify
import Mathlib.Logic.Relation

namespace Legible.Simplify

open Pattern

def Rule.linear (r : Rule) : Bool :=
  decide r.pattern.names.Nodup && r.replacement.served r.pattern.names r.pattern.runNames

def Rule.result (r : Rule) (t : Tree) : Tree :=
  r.replacement.built (r.pattern.captured t).assignment

theorem Rule.apply?_eq {r : Rule} (hr : r.linear = true) (t : Tree) :
    r.apply? t = if r.pattern.fits t = true then some (r.result t) else none := by
  rw [linear, Bool.and_eq_true, decide_eq_true_iff] at hr
  rw [ Rule.apply?, matches?_eq hr.1]
  split
  · rename_i h
    rw [Option.bind_some, fill_captured hr.1 hr.2 h]
    rfl
  · rfl

/-! ### The table -/

def loopBraceRules : List Rule :=
  [whileBraceRule, doWhileBraceRule, forBraceRule, forInBraceRule, forOfBraceRule]

def braceRules : List Rule :=
  thenBraceRule :: elseBraceRule :: loopBraceRules

def simpleRules : List Rule :=
  [falseRule, trueRule, undefinedRule, andRule, orRule, conditionalRule, returnConditionalRule,
   pairRule, sequenceRule, returnPairRule, returnSequenceRule, splitRule "var", splitRule "let",
   splitRule "const"]

def plainRules : List Rule :=
  simpleRules ++ [interopRule]

theorem mem_rules {r : Rule} :
    r ∈ rules ↔ r ∈ simpleRules ∨ r ∈ braceRules ∨ r = interopRule := by
  -- The rule for `const` stands behind those for braces.
  have hlast : (braceRules ++ [interopRule] ++ [splitRule "const"]).Perm
      ([splitRule "const"] ++ (braceRules ++ [interopRule])) := List.perm_append_comm
  have hrules : rules.Perm (simpleRules ++ (braceRules ++ [interopRule])) :=
    hlast.append_left (simpleRules.take 13)
  rw [hrules.mem_iff, List.mem_append, List.mem_append, List.mem_singleton]

theorem linear_of_mem : ∀ r ∈ simpleRules ++ braceRules, r.linear = true := by
  decide

theorem served_of_mem : ∀ r ∈ rules, r.linear = true ∨ r.replacement.served [] [] = true := by
  decide

theorem clash_simple : ∀ r ∈ simpleRules, ∀ r' ∈ rules, r.pattern.clash r'.replacement = true := by
  decide

theorem clash_loopBrace :
    ∀ r ∈ loopBraceRules, ∀ r' ∈ rules, r.pattern.clash r'.replacement = true := by
  decide

theorem clash_thenBrace : ∀ r ∈ simpleRules ++ loopBraceRules ++ [interopRule, thenBraceRule],
    thenBraceRule.pattern.clash r.replacement = true := by
  decide

theorem clash_elseBrace : ∀ r ∈ simpleRules ++ loopBraceRules ++ [interopRule, elseBraceRule],
    elseBraceRule.pattern.clash r.replacement = true := by
  decide

theorem clash_interop : ∀ r ∈ simpleRules ++ braceRules,
    interopRule.pattern.clash r.replacement = true := by
  decide

theorem fits_of_applied {r : Rule} (hr : r ∈ rules) {t u : Tree} (h : r.apply? t = some u) :
    r.pattern.fits t = true ∧ ∃ s, u = r.replacement.built s := by
  obtain ⟨c, hc, hu⟩ := Option.bind_eq_some_iff.mp h
  refine ⟨fits_of_matches? hc, ?_⟩
  rcases served_of_mem r hr with hl | hs
  · rw [Rule.apply?_eq hl, if_pos (fits_of_matches? hc)] at h
    exact ⟨_, (Option.some.inj h).symm⟩
  · rw [fill_of_served (fun n hn => absurd hn List.not_mem_nil) hs] at hu
    exact ⟨_, (Option.some.inj hu).symm⟩

theorem linear_iff {r : Rule} (hr : r ∈ simpleRules ++ braceRules) :
    r.pattern.names.Nodup ∧ r.replacement.served r.pattern.names r.pattern.runNames = true := by
  have h := linear_of_mem r hr
  rwa [Rule.linear, Bool.and_eq_true, decide_eq_true_iff] at h

theorem mem_rules_of_mem {r : Rule} (hr : r ∈ simpleRules ++ braceRules) : r ∈ rules := by
  rw [List.mem_append] at hr
  exact mem_rules.mpr (hr.imp_right Or.inl)

theorem cases_of_mem_rules {r : Rule} (hr : r ∈ rules) :
    r ∈ simpleRules ++ braceRules ∨ r = interopRule := by
  rw [List.mem_append, or_assoc]
  exact mem_rules.mp hr

theorem apply?_linear {r : Rule} (hr : r ∈ simpleRules ++ braceRules) {t u : Tree}
    (h : r.apply? t = some u) : r.pattern.fits t = true ∧ u = r.result t := by
  have hf := (fits_of_applied (mem_rules_of_mem hr) h).1
  rw [Rule.apply?_eq (linear_of_mem r hr), if_pos hf] at h
  exact ⟨hf, (Option.some.inj h).symm⟩

/-! ### Chains -/

def carried (t u : Tree) (s : State) : Tree × State :=
  if isFunction t && isFunction u then renameFunction t u s else (u, s)

theorem carried_fst (t u : Tree) (s : State) :
    (carried t u s).1 = u ∨
      isFunction t = true ∧ isFunction u = true ∧ ∃ name, (carried t u s).1 = withName u name := by
  rw [carried]
  split
  · rename_i h
    rw [Bool.and_eq_true] at h
    have hname : (renameFunction t u s).1 = u ∨ ∃ name, (renameFunction t u s).1 = withName u name := by
      unfold renameFunction
      dsimp only
      split
      · exact Or.inr ⟨_, rfl⟩
      · split
        · exact Or.inl rfl
        · exact Or.inr ⟨_, rfl⟩
    exact hname.imp_right fun hn => ⟨h.1, h.2, hn⟩
  · exact Or.inl rfl

def Step (t u : Tree) : Prop :=
  ∃ r ∈ rules, ∃ v, r.apply? t = some v ∧
    (u = v ∨ isFunction t = true ∧ isFunction v = true ∧ ∃ name, u = withName v name)

theorem step_carried {r : Rule} (hr : r ∈ rules) {t u : Tree} (h : r.apply? t = some u) (s : State) :
    Step t (carried t u s).1 :=
  ⟨r, hr, u, h, carried_fst t u s⟩

def firstApplied (t : Tree) : List Rule → Option (Rule × Tree × List Rule)
  | [] => none
  | r :: rs =>
    match r.apply? t with
    | some u => some (r, u, rs)
    | none => (firstApplied t rs).map fun x => (x.1, x.2.1, r :: x.2.2)

def settleLogged : Nat → List Rule → Tree → State → List Rule × Option Tree × State
  | 0, _, _, s => ([], none, s)
  | fuel + 1, rs, t, s =>
    match firstApplied t rs with
    | none => ([], none, s)
    | some (r, u, rs) =>
      let (u, s) := carried t u s
      let (log, v, s) := settleLogged fuel rs u s
      (r :: log, v.getD u, s)

theorem firstApplied_snd (t : Tree) (rs : List Rule) :
    (firstApplied t rs).map (·.2) = applyFirst t rs := by
  induction rs with
  | nil => rfl
  | cons r rs ih =>
    rw [firstApplied, applyFirst, ← ih]
    cases r.apply? t with
    | some u => rfl
    | none => cases firstApplied t rs <;> rfl

theorem firstApplied_cases (t : Tree) (rs : List Rule) :
    (firstApplied t rs = none ∧ ∀ r ∈ rs, r.apply? t = none) ∨
      ∃ r u rs', firstApplied t rs = some (r, u, rs') ∧ r.apply? t = some u ∧ rs.Perm (r :: rs') := by
  induction rs with
  | nil => exact Or.inl ⟨rfl, fun r hr => absurd hr List.not_mem_nil⟩
  | cons r rs ih =>
    rw [firstApplied]
    cases h : r.apply? t with
    | some u => exact Or.inr ⟨r, u, rs, rfl, h, .refl _⟩
    | none =>
      rcases ih with ⟨hn, hall⟩ | ⟨q, u, rs', hs, hq, hp⟩
      · exact Or.inl ⟨by rw [hn]; rfl, List.forall_mem_cons.mpr ⟨h, hall⟩⟩
      · refine Or.inr ⟨q, u, r :: rs', by rw [hs]; rfl, hq, ?_⟩
        exact (hp.cons r).trans (.swap q r rs')

theorem applyFirst_cases (t : Tree) (rs : List Rule) :
    (applyFirst t rs = none ∧ ∀ r ∈ rs, r.apply? t = none) ∨
      ∃ r u rs', applyFirst t rs = some (u, rs') ∧ r.apply? t = some u ∧ rs.Perm (r :: rs') := by
  rw [← firstApplied_snd]
  rcases firstApplied_cases t rs with ⟨hn, hall⟩ | ⟨r, u, rs', hs, hu, hp⟩
  · exact Or.inl ⟨by rw [hn]; rfl, hall⟩
  · exact Or.inr ⟨r, u, rs', by rw [hs]; rfl, hu, hp⟩

theorem settleLogged_snd (fuel : Nat) (rs : List Rule) (t : Tree) (s : State) :
    (settleLogged fuel rs t s).2 = settle fuel rs t s := by
  induction fuel generalizing rs t s with
  | zero => rfl
  | succ fuel ih =>
    rw [settleLogged, settle, ← firstApplied_snd]
    cases firstApplied t rs with
    | none => rfl
    | some x =>
      obtain ⟨r, u, rs'⟩ := x
      simp only [Option.map_some]
      rw [← carried, ← ih]

theorem settleLogged_spec {P : List Rule → Tree → State → Prop} {Q : Rule → Prop}
    (step : ∀ rs r rs' t s u, P rs t s → rs.Perm (r :: rs') → r.apply? t = some u →
      Q r ∧ P rs' (carried t u s).1 (carried t u s).2)
    {fuel : Nat} {rs : List Rule} {t : Tree} {s : State} (hfuel : rs.length ≤ fuel) (h : P rs t s) :
    (∀ r ∈ (settleLogged fuel rs t s).1, Q r) ∧
      ∃ rs', P rs' ((settle fuel rs t s).1.getD t) (settle fuel rs t s).2 ∧
        ∀ r ∈ rs', r.apply? ((settle fuel rs t s).1.getD t) = none := by
  rw [← settleLogged_snd]
  induction fuel generalizing rs t s with
  | zero =>
    obtain rfl := List.length_eq_zero_iff.mp (Nat.le_zero.mp hfuel)
    exact ⟨fun r hr => absurd hr List.not_mem_nil, [], h, fun r hr => absurd hr List.not_mem_nil⟩
  | succ fuel ih =>
    rw [settleLogged]
    rcases firstApplied_cases t rs with ⟨hn, hall⟩ | ⟨r, u, rs', hs, hu, hp⟩
    · rw [hn]
      exact ⟨fun r hr => absurd hr List.not_mem_nil, rs, h, hall⟩
    · rw [hs]
      have hlength := hp.length_eq
      rw [List.length_cons] at hlength
      obtain ⟨hQ, hP⟩ := step rs r rs' t s u h hp hu
      obtain ⟨hlog, q, hq, hnone⟩ := ih (by omega) hP
      exact ⟨List.forall_mem_cons.mpr ⟨hQ, hlog⟩, q, hq, hnone⟩

def State.current (s : State) (t : Tree) : Tree :=
  if s.names.isEmpty then t else s.names.apply t

theorem enter_cases {P : List Rule → Tree → State → Prop} {t : Tree} (place : Place) {s : State}
    (step : ∀ rs r rs' t s u, rs ⊆ rules → P rs t s → rs.Perm (r :: rs') → r.apply? t = some u →
      P rs' (carried t u s).1 (carried t u s).2) (h : P rules (s.current t) s) :
    (enter t place s = (none, s) ∧ (t.isNode = false ∨ isLoopHead t place = true ∨
        ∀ r ∈ rules, r.apply? (s.current t) = none)) ∨
      ∃ rs' u s', enter t place s = (some u, { s' with count := s'.count + 1 }) ∧
        rs' ⊆ rules ∧ P rs' u s' ∧ (∀ r ∈ rs', r.apply? u = none) ∧
        Relation.TransGen Step (s.current t) u := by
  rw [enter]
  by_cases hskip : (!t.isNode || isLoopHead t place) = true
  · rw [if_pos hskip]
    rw [Bool.or_eq_true, Bool.not_eq_true'] at hskip
    exact Or.inl ⟨rfl, hskip.imp_right Or.inl⟩
  · obtain ⟨n, hn⟩ : ∃ n, rules.length = n + 1 := ⟨21, rfl⟩
    rw [if_neg hskip, ← State.current, hn, settle]
    rcases applyFirst_cases (s.current t) rules with ⟨hf, hall⟩ | ⟨r, u, rs', hs, hu, hp⟩
    · rw [hf]
      exact Or.inl ⟨rfl, Or.inr (Or.inr hall)⟩
    · rw [hs]
      have hr : r ∈ rules := hp.symm.subset List.mem_cons_self
      have hsub : rs' ⊆ rules := fun q hq => hp.symm.subset (List.mem_cons_of_mem _ hq)
      have hlength := hp.length_eq
      rw [hn, List.length_cons] at hlength
      let Q (rs : List Rule) (u : Tree) (s' : State) : Prop :=
        rs ⊆ rules ∧ P rs u s' ∧ Relation.TransGen Step (s.current t) u
      have hstep : ∀ rs r rs' t s u, Q rs t s → rs.Perm (r :: rs') → r.apply? t = some u →
          Q rs' (carried t u s).1 (carried t u s).2 := by
        rintro rs r rs' t s u ⟨hrs, hP, hc⟩ hp hu
        refine ⟨fun q hq => hrs (hp.symm.subset (List.mem_cons_of_mem _ hq)),
          step rs r rs' t s u hrs hP hp hu, hc.tail (step_carried ?_ hu s)⟩
        exact hrs (hp.symm.subset List.mem_cons_self)
      have hfirst : Q rs' (carried (s.current t) u s).1 (carried (s.current t) u s).2 :=
        ⟨hsub, step rules r rs' _ s u (List.Subset.refl _) h hp hu, .single (step_carried hr hu s)⟩
      obtain ⟨-, q, ⟨hq, hP, hchain⟩, hnone⟩ := settleLogged_spec (Q := fun _ => True)
        (fun rs r rs' t s u h hp hu => ⟨trivial, hstep rs r rs' t s u h hp hu⟩)
        (show rs'.length ≤ n by omega) hfirst
      exact Or.inr ⟨q, _, _, rfl, hq, hP, hnone, hchain⟩

end Legible.Simplify
