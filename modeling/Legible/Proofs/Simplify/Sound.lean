import Legible.Proofs.Semantics.Sense
import Legible.Proofs.Simplify.Stability

namespace Legible

namespace Simplify

open Pattern Behaviour

variable {σ ν : Type} (M : Setting σ ν) {t : Tree}

/-! ### One rule -/

theorem isNull_of_fits {name : String} {t : Tree} (h : (anyExpression name).fits t = true) :
    t.isNull = false := by
  rw [← Bool.not_eq_true]
  intro hn
  rw [anyExpression, fits, Placeholder.accepts] at h
  simp [hn] at h

theorem read_integer {n : Nat} (h : (integer n).fits t = true) :
    ∃ a : Scalar, M.read t = .expression (pure (M.literal a)) ∧
      a.truthy = (Scalar.number (.ofInt n)).truthy := by
  obtain ⟨m, hm, hs⟩ := number_of_fits (fits_get "value" rfl rfl h)
  refine ⟨.number m, M.read_literal (kind?_of_fits rfl h) hm nofun, ?_⟩
  rw [Scalar.truthy, Number.same, ← Number.same_iff.mp hs]
  rfl

theorem read_negated_integer {n : Nat} (h : (negated (integer n)).fits t = true) :
    M.read t = .expression (pure (M.literal (.bool !(Scalar.number (.ofInt n)).truthy))) := by
  obtain ⟨a, ha, htruthy⟩ := read_integer M (fits_get "argument" rfl rfl h)
  have hop := text?_of_fits (fits_get "operator" rfl rfl h)
  rw [M.read_not (kind?_of_fits rfl h) hop, Setting.test, ha, Setting.eval, map_pure, map_pure,
    M.truthy_literal, htruthy]

theorem read_boolean (b : Bool) :
    M.read (Form.literal (.bool b) (if b then "true" else "false")) =
      .expression (pure (M.literal (.bool b))) :=
  M.read_literal rfl rfl nofun

theorem read_false (h : falseRule.pattern.fits t = true) :
    M.read (falseRule.result t) = M.read t := by
  rw [read_negated_integer M h]
  exact read_boolean M false

theorem read_true (h : trueRule.pattern.fits t = true) :
    M.read (trueRule.result t) = M.read t := by
  rw [read_negated_integer M h]
  exact read_boolean M true

theorem read_undefined (h : undefinedRule.pattern.fits t = true) :
    M.read (undefinedRule.result t) = M.read t := by
  obtain ⟨a, ha, -⟩ := read_integer M (fits_get "argument" rfl rfl h)
  have hop := text?_of_fits (fits_get "operator" rfl rfl h)
  rw [M.read_void (kind?_of_fits rfl h) hop, ha, Setting.eval, map_pure, M.read_undefined rfl rfl]

theorem read_and (h : andRule.pattern.fits t = true) : M.read (andRule.result t) = M.read t := by
  have he := fits_get "expression" rfl rfl h
  have hop := text?_of_fits (fits_get "operator" rfl rfl he)
  rw [M.read_expressionStatement (kind?_of_fits rfl h), M.read_and (kind?_of_fits rfl he) hop,
    M.read_if rfl]
  exact congrArg Sense.statement (M.effect_shortCircuit false _ _).symm

theorem read_or (h : orRule.pattern.fits t = true) : M.read (orRule.result t) = M.read t := by
  have he := fits_get "expression" rfl rfl h
  have hop := text?_of_fits (fits_get "operator" rfl rfl he)
  have htest : M.test (M.read ((orRule.result t).get "test")) =
      (!·) <$> M.test (M.read ((t.get "expression").get "left")) := by
    rw [M.read_not (t := (orRule.result t).get "test") rfl rfl]
    exact M.test_not _
  rw [M.read_expressionStatement (kind?_of_fits rfl h), M.read_or (kind?_of_fits rfl he) hop,
    M.read_if rfl, htest, branch_not]
  exact congrArg Sense.statement (M.effect_shortCircuit true _ _).symm

theorem read_conditional (h : conditionalRule.pattern.fits t = true) :
    M.read (conditionalRule.result t) = M.read t := by
  have he := fits_get "expression" rfl rfl h
  rw [M.read_expressionStatement (kind?_of_fits rfl h), M.read_conditional (kind?_of_fits rfl he),
    M.read_if rfl]
  exact congrArg Sense.statement (M.after_choose _ _ _ _).symm

theorem return_of_fits {name : String} (h : (anyExpression name).fits t = true) :
    M.return_ (M.read t) = after (M.eval (M.read t)) returns :=
  M.return_of_not_null ((M.isNull_read t).trans (isNull_of_fits h))

theorem read_returnConditional (h : returnConditionalRule.pattern.fits t = true) :
    M.read (returnConditionalRule.result t) = M.read t := by
  have he := fits_get "argument" rfl rfl h
  have hyes := return_of_fits M (fits_get "consequent" rfl rfl he)
  have hno := return_of_fits M (fits_get "alternate" rfl rfl he)
  rw [M.read_return (kind?_of_fits rfl h), M.read_conditional (kind?_of_fits rfl he),
    M.read_if rfl, M.return_of_not_null rfl]
  refine congrArg Sense.statement (Eq.trans ?_ (M.after_choose _ _ _ _).symm)
  rw [← hyes, ← hno]
  rfl

/-! ### Lists of expressions and of variables -/

theorem captured_pair (h : pair.fits t = true) : ∃ a b, t.get "expressions" = .list [a, b] ∧
    (anyExpression "expression2").fits b = true ∧
      pair.captured t = [("expression1", a), ("expression2", b)] := by
  obtain ⟨a, ts, hts, -, hrest⟩ := fits_cons rfl (fits_get "expressions" rfl rfl h)
  obtain ⟨b, us, hus, hb, hnil⟩ := fits_cons rfl hrest
  rw [Tree.list.inj hus] at hts
  obtain rfl : us = [] := List.isEmpty_iff.mp hnil
  have hcaptured : pair.captured t = capturedItems [anyExpression "expression1",
      anyExpression "expression2"] (t.get "expressions").items ++ [] := rfl
  refine ⟨a, b, hts, hb, ?_⟩
  rw [hcaptured, hts]
  rfl

theorem captured_longSequence (h : longSequence.fits t = true) :
    ∃ a b cs, t.get "expressions" = .list (a :: b :: cs) ∧ (∀ ts, b ≠ .list ts) ∧
      longSequence.captured t =
        [("expression1", a), ("expression2", b), ("expression3", .list cs)] := by
  obtain ⟨a, ts, hts, -, hrest⟩ := fits_cons rfl (fits_get "expressions" rfl rfl h)
  obtain ⟨b, cs, hcs, hb, hrun⟩ := fits_cons rfl hrest
  rw [Tree.list.inj hcs] at hts
  have hcaptured : longSequence.captured t = capturedItems [anyExpression "expression1",
      anyExpression "expression2", expressionRun "expression3"] (t.get "expressions").items ++ [] := rfl
  have hitems : capturedItems [anyExpression "expression1", anyExpression "expression2",
      expressionRun "expression3"] (a :: b :: cs) = ("expression1", a) :: ("expression2", b) ::
        capturedItems [expressionRun "expression3"] cs := rfl
  refine ⟨a, b, cs, hts, not_list_of_fits hb, ?_⟩
  rw [hcaptured, hts, Tree.items, hitems, capturedItems_run rfl hrun, List.append_nil]

theorem read_sequenceRest {b : Tree} {cs : List Tree} (hb : ∀ ts, b ≠ .list ts)
    {s : Assignment} (hs : s "expression2" = b) (hs' : s "expression3" = .list cs) :
    M.read (sequenceRest.built s) = .expression (M.evalAll ((b :: cs).map M.read)) := by
  have hget : (sequenceRest.built s).get "expressions" = .list (b :: cs) := by
    change Tree.list ((anyExpression "expression2").spliced (s "expression2") ++
      ((anyExpression "expression3").spliced (s "expression3") ++ [])) = _
    rw [hs, hs', spliced_of_not_list hb, List.append_nil]
    rfl
  rw [M.read_sequence (kind?_built rfl s), hget, Tree.items]

theorem read_pair {p u : Tree} {k : ν → Behaviour σ ν} {a b : Tree} {l : List Tree}
    (ht : M.read t = .statement (after (M.evalAll ((a :: b :: l).map M.read)) k))
    (hu : M.read u = .statement (after (M.evalAll ((b :: l).map M.read)) k))
    (hk : p.kind? = some "Program") (hp : p.get "body" = .list [Form.expressionStatement a, u]) :
    M.read p = M.read t := by
  have ha : M.read (Form.expressionStatement a) = .statement (effect (M.eval (M.read a))) :=
    M.read_expressionStatement rfl
  rw [M.read_statements (Or.inl hk), hp, ht]
  simp only [Tree.items, List.map_cons, List.map_nil, Setting.execAll, ha, hu, Setting.exec,
    sequence_cons, sequence_nil, andThen_skip, Setting.after_evalAll]

theorem read_pairRule (h : pairRule.pattern.fits t = true) :
    M.read (pairRule.result t) = M.read t := by
  have he := fits_get "expression" rfl rfl h
  obtain ⟨a, b, hab, -, hc⟩ := captured_pair he
  have hcaptured : pairRule.pattern.captured t = pair.captured (t.get "expression") ++ [] := rfl
  refine read_pair M (k := fun _ => skip) (a := a) (b := b) (l := [])
    (u := Form.expressionStatement b) ?_ (M.read_expressionStatement rfl) rfl ?_
  · rw [M.read_expressionStatement (kind?_of_fits rfl h), M.read_sequence (kind?_of_fits rfl he), hab]
    rfl
  · rw [Rule.result, hcaptured, hc]
    rfl

theorem read_sequenceRule (h : sequenceRule.pattern.fits t = true) :
    M.read (sequenceRule.result t) = M.read t := by
  have he := fits_get "expression" rfl rfl h
  obtain ⟨a, b, cs, hab, hb, hc⟩ := captured_longSequence he
  have hcaptured : sequenceRule.pattern.captured t = longSequence.captured (t.get "expression") ++ [] := rfl
  rw [Rule.result, hcaptured, hc]
  refine read_pair M (k := fun _ => skip) (a := a) (b := b) (l := cs) ?_ ?_ rfl rfl
  · rw [M.read_expressionStatement (kind?_of_fits rfl h), M.read_sequence (kind?_of_fits rfl he), hab]
    rfl
  · rw [M.read_expressionStatement rfl]
    change Sense.statement (effect (M.eval (M.read (sequenceRest.built _)))) = _
    rw [read_sequenceRest M hb rfl rfl]
    rfl

theorem read_returnPair (h : returnPairRule.pattern.fits t = true) :
    M.read (returnPairRule.result t) = M.read t := by
  have he := fits_get "argument" rfl rfl h
  obtain ⟨a, b, hab, hb, hc⟩ := captured_pair he
  have hcaptured : returnPairRule.pattern.captured t = pair.captured (t.get "argument") ++ [] := rfl
  refine read_pair M (k := returns) (a := a) (b := b) (l := []) (u := Form.returnStatement b)
    ?_ ?_ rfl ?_
  · rw [M.read_return (kind?_of_fits rfl h), M.read_sequence (kind?_of_fits rfl he), hab,
      M.return_of_not_null rfl]
    rfl
  · rw [M.read_return rfl]
    exact congrArg Sense.statement (return_of_fits M hb)
  · rw [Rule.result, hcaptured, hc]
    rfl

theorem read_returnSequence (h : returnSequenceRule.pattern.fits t = true) :
    M.read (returnSequenceRule.result t) = M.read t := by
  have he := fits_get "argument" rfl rfl h
  obtain ⟨a, b, cs, hab, hb, hc⟩ := captured_longSequence he
  have hcaptured : returnSequenceRule.pattern.captured t =
      longSequence.captured (t.get "argument") ++ [] := rfl
  rw [Rule.result, hcaptured, hc]
  refine read_pair M (k := returns) (a := a) (b := b) (l := cs) ?_ ?_ rfl rfl
  · rw [M.read_return (kind?_of_fits rfl h), M.read_sequence (kind?_of_fits rfl he), hab,
      M.return_of_not_null rfl]
    rfl
  · rw [M.read_return rfl]
    change Sense.statement (M.return_ (M.read (sequenceRest.built _))) = _
    rw [read_sequenceRest M hb rfl rfl, M.return_of_not_null rfl]
    rfl

theorem captured_split {kind : String} (h : (splitRule kind).pattern.fits t = true) :
    ∃ d ds, t.get "declarations" = .list (d :: ds) ∧ (∀ ts, d ≠ .list ts) ∧
      (splitRule kind).pattern.captured t = [("expression1", d), ("expression2", .list ds)] := by
  obtain ⟨d, ds, hds, hd, hrun⟩ := fits_cons rfl (fits_get "declarations" rfl rfl h)
  have hcaptured : (splitRule kind).pattern.captured t = capturedItems [anyDeclarator "expression1",
      declaratorRun "expression2"] (t.get "declarations").items ++ [] := rfl
  have hitems : capturedItems [anyDeclarator "expression1", declaratorRun "expression2"] (d :: ds) =
      ("expression1", d) :: capturedItems [declaratorRun "expression2"] ds := rfl
  refine ⟨d, ds, hds, not_list_of_fits hd, ?_⟩
  rw [hcaptured, hds, Tree.items, hitems, capturedItems_run rfl hrun, List.append_nil]

theorem read_split {kind : String} (h : (splitRule kind).pattern.fits t = true) :
    M.read ((splitRule kind).result t) = M.read t := by
  obtain ⟨d, ds, hds, hd, hc⟩ := captured_split h
  have hread : ∀ ds, M.read (Form.variableDeclaration kind ds) =
      .statement (sequence (ds.map fun d => M.declareOne kind (M.read d))) := fun ds =>
    M.read_declaration rfl rfl
  have hbody : ((splitRule kind).result t).get "body" =
      .list [Form.variableDeclaration kind [d], Form.variableDeclaration kind ds] := by
    change Tree.list [Form.variableDeclaration kind ((anyDeclarator "expression1").spliced
      (((splitRule kind).pattern.captured t).assignment "expression1") ++ []),
      Form.variableDeclaration kind ((anyDeclarator "expression2").spliced
      (((splitRule kind).pattern.captured t).assignment "expression2") ++ [])] = _
    rw [hc, List.append_nil, List.append_nil]
    change Tree.list [Form.variableDeclaration kind ((anyDeclarator "expression1").spliced d),
      Form.variableDeclaration kind ds] = _
    rw [spliced_of_not_list hd]
  have hkind := text?_of_fits (fits_get "kind" rfl rfl h)
  rw [M.read_statements (Or.inl rfl), M.read_declaration (kind?_of_fits rfl h) hkind, hbody, hds]
  simp only [Tree.items, List.map_cons, List.map_nil, Setting.execAll, hread, Setting.exec,
    sequence_cons, sequence_nil, andThen_skip]

theorem read_simple {r : Rule} (hr : r ∈ simpleRules) (h : r.pattern.fits t = true) :
    M.read (r.result t) = M.read t := by
  simp only [simpleRules, List.mem_cons, List.not_mem_nil, or_false] at hr
  rcases hr with rfl | rfl | rfl | rfl | rfl | rfl | rfl | rfl | rfl | rfl | rfl | rfl | rfl | rfl
  · exact read_false M h
  · exact read_true M h
  · exact read_undefined M h
  · exact read_and M h
  · exact read_or M h
  · exact read_conditional M h
  · exact read_returnConditional M h
  · exact read_pairRule M h
  · exact read_sequenceRule M h
  · exact read_returnPair M h
  · exact read_returnSequence M h
  all_goals exact read_split M h

/-! ### Braces -/

theorem exec_braced {name : String} (h : (multiLineStatement name).fits t = true) :
    M.exec (M.read (Form.blockStatement ((anyStatement name).spliced t ++ []))) =
      M.exec (M.read t) := by
  rw [List.append_nil, spliced_of_not_list (not_list_of_fits h), M.read_statements (Or.inr rfl)]
  exact sequence_singleton _

theorem read_thenBrace (h : thenBraceRule.pattern.fits t = true) :
    M.read (thenBraceRule.result t) = M.read t := by
  have hbody := exec_braced M (fits_get "consequent" rfl rfl h)
  rw [M.read_if (kind?_of_fits rfl h), M.read_if rfl, ← hbody]
  rfl

theorem read_elseBrace (h : elseBraceRule.pattern.fits t = true) :
    M.read (elseBraceRule.result t) = M.read t := by
  have hbody := exec_braced M (fits_get "alternate" rfl rfl h)
  rw [M.read_if (kind?_of_fits rfl h), M.read_if rfl, ← hbody]
  rfl

theorem read_whileBrace (h : whileBraceRule.pattern.fits t = true) :
    M.read (whileBraceRule.result t) = M.read t := by
  have hbody := exec_braced M (fits_get "body" rfl rfl h)
  rw [M.read_while (kind?_of_fits rfl h), M.read_while rfl, ← hbody]
  rfl

theorem read_doWhileBrace (h : doWhileBraceRule.pattern.fits t = true) :
    M.read (doWhileBraceRule.result t) = M.read t := by
  have hbody := exec_braced M (fits_get "body" rfl rfl h)
  rw [M.read_doWhile (kind?_of_fits rfl h), M.read_doWhile rfl, ← hbody]
  rfl

theorem read_forBrace (h : forBraceRule.pattern.fits t = true) :
    M.read (forBraceRule.result t) = M.read t := by
  have hbody := exec_braced M (fits_get "body" rfl rfl h)
  rw [M.read_for (kind?_of_fits rfl h), M.read_for rfl, ← hbody]
  rfl

/-- Functions may get other names, and no meaning is given to the statements of these kinds. -/
def excludedKinds : List String :=
  ["FunctionDeclaration", "ForInStatement", "ForOfStatement", "SwitchCase"]

theorem result_of_step {u : Tree} (hk : t.kind ∉ excludedKinds) (h : Step t u) :
    ∃ r ∈ simpleRules ++ braceRules, r.pattern.fits t = true ∧ u = r.result t ∧
      ∀ kind, r.pattern.kind? = some kind → kind ∉ excludedKinds := by
  obtain ⟨r, hr, v, hv, hu⟩ := h
  have hfits := (fits_of_applied hr hv).1
  have hkind : ∀ kind, r.pattern.kind? = some kind → kind ∉ excludedKinds := by
    intro kind hp
    rwa [Tree.kind_of_kind? (kind?_of_fits hp hfits)] at hk
  have hfunction : isFunction t = false := by
    rw [← Bool.not_eq_true, isFunction, Tree.isKind_iff]
    intro ht
    rw [Tree.kind_of_kind? ht] at hk
    exact hk (by decide)
  obtain rfl : u = v := hu.resolve_right fun h => by simp [hfunction] at h
  have hinterop : r ≠ interopRule := by
    rintro rfl
    exact hkind _ rfl (by decide)
  have hr' := (cases_of_mem_rules hr).resolve_right hinterop
  exact ⟨r, hr', hfits, (apply?_linear hr' hv).2, hkind⟩

theorem read_step {u : Tree} (hk : t.kind ∉ excludedKinds) (h : Step t u) :
    M.read u = M.read t := by
  obtain ⟨r, hr, hfits, rfl, hkind⟩ := result_of_step hk h
  rcases List.mem_append.mp hr with hr | hr
  · exact read_simple M hr hfits
  · simp only [braceRules, loopBraceRules, List.mem_cons, List.not_mem_nil, or_false] at hr
    rcases hr with rfl | rfl | rfl | rfl | rfl | rfl | rfl
    · exact read_thenBrace M hfits
    · exact read_elseBrace M hfits
    · exact read_whileBrace M hfits
    · exact read_doWhileBrace M hfits
    · exact read_forBrace M hfits
    · exact absurd (by decide) (hkind _ rfl)
    · exact absurd (by decide) (hkind _ rfl)

end Simplify

end Legible
