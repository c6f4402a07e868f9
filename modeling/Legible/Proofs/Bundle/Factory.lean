import Legible.Bundle.Module
import Legible.Proofs.Bundle.Seeds
import Legible.Proofs.Pattern.Build
import Legible.Proofs.Scope.Analysis
import Legible.Proofs.Scope.Paths
import Legible.Proofs.Tree.Walk

namespace Legible.Bundle

def IsFactory (t : Tree) : Prop :=
  t.isKind "FunctionExpression" = true ∧ (t.get "id").isNull = true ∨
    t.isKind "ArrowFunctionExpression" = true

theorem exists_match {ps : List Pattern} {t : Tree} {c : Captures} (h : firstMatch ps t = some c) :
    ∃ p ∈ ps, p.matches? t = some c :=
  List.exists_of_findSome?_eq_some h

theorem captured_parameters {p : Pattern} (hn : p.names.Nodup) {t : Tree} {c after : Captures}
    (h : p.matches? t = some c)
    (hp : p.captured t = Pattern.capturedItems [Pattern.expressions "expression1"]
      (t.get "params").items ++ after)
    (hparams : p.field? "params" = some (.list [Pattern.expressions "expression1"])) :
    captured "expression1" c = t.get "params" := by
  have hfits := Pattern.fits_of_matches? h
  rw [Pattern.matches?_eq hn, if_pos hfits] at h
  obtain rfl := Option.some.inj h
  have hlist := Pattern.fits_get "params" hparams rfl hfits
  obtain ⟨ts, hts⟩ : ∃ ts, t.get "params" = .list ts := by
    cases ht : t.get "params" with
    | list ts => exact ⟨ts, rfl⟩
    | scalar a => rw [ht] at hlist; cases hlist
    | object tag fs => rw [ht] at hlist; cases hlist
  rw [hts] at hlist
  rw [captured, hp, hts, Tree.items, Pattern.capturedItems_run rfl hlist]
  rfl

theorem factory_of_match {t : Tree} {c : Captures} (h : firstMatch factories t = some c) :
    IsFactory t ∧ captured "expression1" c = t.get "params" := by
  obtain ⟨p, hp, hc⟩ := exists_match h
  have hfits := Pattern.fits_of_matches? hc
  simp only [factories, List.mem_cons, List.not_mem_nil, or_false] at hp
  rcases hp with rfl | rfl
  · refine ⟨Or.inl ⟨?_, ?_⟩, captured_parameters (by decide) hc rfl rfl⟩
    · rw [Tree.isKind, Pattern.kind?_of_fits rfl hfits]
      rfl
    · have hid := Pattern.fits_get "id" rfl rfl hfits
      cases ht : t.get "id" with
      | scalar a => rw [ht] at hid; cases a <;> first | rfl | cases hid
      | list ts => rw [ht] at hid; cases hid
      | object tag fs => rw [ht] at hid; cases hid
  · refine ⟨Or.inr ?_, captured_parameters (by decide) hc rfl rfl⟩
    rw [Tree.isKind, Pattern.kind?_of_fits rfl hfits]
    rfl

/-! ### Code in a text -/

def statementsOf (factory : Tree) : List Tree :=
  ((factory.get "body").get "body").items

structure Evaluates (statement : Tree) (source : String) : Prop where
  kind : statement.kind? = some "ExpressionStatement"
  call : (statement.get "expression").kind? = some "CallExpression"
  identifier : ((statement.get "expression").get "callee").kind? = some "Identifier"
  callee : (((statement.get "expression").get "callee").get "name").text? = some "eval"
  text : ∃ literal, (statement.get "expression").get "arguments" = .list [literal] ∧
    literal.kind? = some "Literal" ∧ (literal.get "value").text? = some source

theorem fits_anyLiteral_iff {name : String} {t : Tree} :
    (Pattern.anyLiteral name).fits t = true ↔ t.kind? = some "Literal" := by
  have haccepts : (Pattern.anyLiteral name).fits t =
      if t.isNull then false else t.isNode && t.kind == "Literal" := rfl
  rw [haccepts]
  constructor
  · intro h
    split at h
    · cases h
    · rw [Bool.and_eq_true, beq_iff_eq, Tree.kind] at h
      cases hk : t.kind? with
      | none =>
        rw [hk] at h
        exact absurd h.2 (by decide)
      | some kind =>
        rw [hk] at h
        exact congrArg some h.2
  · intro h
    have hnode := Pattern.isNode_of_kind? h
    obtain ⟨tag, fs, rfl⟩ := Tree.eq_object_of_isNode hnode
    rw [if_neg (by exact Bool.false_ne_true), hnode, Tree.kind, h]
    rfl

theorem fits_evalStatement_iff {t : Tree} : evalStatement.fits t = true ↔
    t.kind? = some "ExpressionStatement" ∧ (t.get "expression").kind? = some "CallExpression" ∧
      ((t.get "expression").get "callee").kind? = some "Identifier" ∧
      (((t.get "expression").get "callee").get "name").text? = some "eval" ∧
      ∃ literal, (t.get "expression").get "arguments" = .list [literal] ∧
        literal.kind? = some "Literal" := by
  have hname : ∀ u : Tree, (Form.text "eval" : Pattern).fits u = true ↔ u.text? = some "eval" :=
    fun u => ⟨Pattern.text?_of_fits, Pattern.fits_of_text?⟩
  have harguments : ∀ u : Tree, (Form.list [Pattern.anyLiteral "expression1"] : Pattern).fits u =
      true ↔ ∃ literal, u = .list [literal] ∧ literal.kind? = some "Literal" := by
    intro u
    constructor
    · intro h
      obtain ⟨literal, rfl, hl⟩ := Pattern.fits_singleton rfl h
      exact ⟨literal, rfl, fits_anyLiteral_iff.mp hl⟩
    · rintro ⟨literal, rfl, hl⟩
      have hfits : (Pattern.anyLiteral "expression1").fits literal = true :=
        fits_anyLiteral_iff.mpr hl
      change (_ && true) = true
      rw [hfits]
      rfl
  have hkeys : isIgnored "expression" = false ∧ isIgnored "callee" = false ∧
      isIgnored "name" = false ∧ isIgnored "arguments" = false := by decide
  simp only [evalStatement, Form.expressionStatement, Form.callExpression, Form.identifier,
    Pattern.fits_node_iff, List.forall_mem_cons, hkeys, List.not_mem_nil, false_imp_iff,
    implies_true, hname, harguments, and_true, true_imp_iff, and_assoc]

theorem captured_evalStatement {t literal : Tree}
    (h : (t.get "expression").get "arguments" = .list [literal]) :
    captured "expression1" (evalStatement.captured t) = literal := by
  have hcaptured : evalStatement.captured t =
      Pattern.capturedItems [Pattern.anyLiteral "expression1"]
        ((t.get "expression").get "arguments").items := rfl
  rw [hcaptured, h]
  rfl

theorem evaluatedText?_eq_some_iff {statement : Tree} {source : String} :
    evaluatedText? statement = some source ↔ Evaluates statement source := by
  rw [evaluatedText?, Pattern.matches?_eq (by decide)]
  constructor
  · intro h
    split at h
    · rename_i hfits
      obtain ⟨hk, hcall, hid, hname, literal, harguments, hl⟩ := fits_evalStatement_iff.mp hfits
      have htext : ((captured "expression1" (evalStatement.captured statement)).get "value").text? =
        some source := h
      rw [captured_evalStatement harguments] at htext
      exact ⟨hk, hcall, hid, hname, literal, harguments, hl, htext⟩
    · cases h
  · rintro ⟨hk, hcall, hid, hname, literal, harguments, hl, htext⟩
    rw [if_pos (fits_evalStatement_iff.mpr ⟨hk, hcall, hid, hname, literal, harguments, hl⟩)]
    change ((captured "expression1" (evalStatement.captured statement)).get "value").text? = _
    rw [captured_evalStatement harguments, htext]

structure HasStatements (t f : Tree) (statements : List Tree) : Prop where
  elsewhere : ∀ key, key ≠ "body" → f.get key = t.get key
  block : ∀ key, key ≠ "body" → (f.get "body").get key = (t.get "body").get key
  statements : statementsOf f = statements

/-- A function with the statements of a text in the place of a last one that evaluates the text. If
there is no such last statement, the function as it is. -/
inductive Inlines (parse : Parser) (t : Tree) : Tree → Prop
  | same : (∀ before last source, statementsOf t = before ++ [last] → ¬ Evaluates last source) →
      Inlines parse t t
  | text {before last source program f} : statementsOf t = before ++ [last] →
      Evaluates last source → parse source = .ok program →
      HasStatements t f (before ++ (program.get "body").items) → Inlines parse t f

theorem inlineEval_eq (parse : Parser) (t : Tree) : inlineEval parse t =
    match (statementsOf t).getLast?.bind evaluatedText? with
    | none => .ok t
    | some source =>
      match parse source with
      | .error message => .error (.unreadable message)
      | .ok program => .ok (t.set "body" ((t.get "body").set "body"
          (.list ((statementsOf t).dropLast ++ (program.get "body").items)))) := rfl

variable {parse : Parser}

theorem hasStatements_set {t : Tree} (ht : t.isNode = true) (hbody : (t.get "body").isNode = true)
    (statements : List Tree) :
    HasStatements t (t.set "body" ((t.get "body").set "body" (.list statements))) statements where
  elsewhere key hkey := Tree.get_set_of_ne hkey t _
  block key hkey := by rw [Tree.get_set ht, Tree.get_set_of_ne hkey]
  statements := by rw [statementsOf, Tree.get_set ht, Tree.get_set hbody, Tree.items]

theorem isNode_body {t : Tree} {c : Captures} (h : firstMatch factories t = some c) :
    (t.get "body").isNode = true := by
  obtain ⟨p, hp, hc⟩ := exists_match h
  have hfits := Pattern.fits_of_matches? hc
  have hbody : p.field? "body" = some loaderBody := by
    simp only [factories, List.mem_cons, List.not_mem_nil, or_false] at hp
    rcases hp with rfl | rfl <;> rfl
  exact Pattern.isNode_of_kind? (Pattern.kind?_of_fits rfl (Pattern.fits_get "body" hbody rfl hfits))

theorem inlines_of_inlineEval {t f : Tree} (ht : t.isNode = true)
    (hbody : (t.get "body").isNode = true) (h : inlineEval parse t = .ok f) :
    Inlines parse t f := by
  rw [inlineEval_eq] at h
  cases hlast : (statementsOf t).getLast? with
  | none =>
    rw [hlast] at h
    obtain rfl := Except.ok.inj h
    refine .same fun before last source hsplit => ?_
    rw [hsplit, List.getLast?_concat] at hlast
    cases hlast
  | some last =>
    obtain ⟨before, hbefore⟩ := List.getLast?_eq_some_iff.mp hlast
    rw [hlast, Option.bind_some] at h
    cases hsource : evaluatedText? last with
    | none =>
      rw [hsource] at h
      obtain rfl := Except.ok.inj h
      refine .same fun before' last' source hsplit heval => ?_
      rw [hsplit, List.getLast?_concat] at hlast
      obtain rfl := Option.some.inj hlast
      rw [evaluatedText?_eq_some_iff.mpr heval] at hsource
      cases hsource
    | some source =>
      rw [hsource] at h
      cases hparse : parse source with
      | error message =>
        simp only [hparse] at h
        cases h
      | ok program =>
        simp only [hparse] at h
        obtain rfl := Except.ok.inj h
        refine .text hbefore (evaluatedText?_eq_some_iff.mp hsource) hparse ?_
        rw [hbefore, List.dropLast_concat]
        exact hasStatements_set ht hbody _

theorem get_inlineEval {t f : Tree} (hf : inlineEval parse t = .ok f) {key : String}
    (hkey : key ≠ "body") : f.get key = t.get key := by
  simp only [inlineEval] at hf
  split at hf
  · rw [Except.ok.inj hf]
  · split at hf
    · cases hf
    · rw [← Except.ok.inj hf]
      exact Tree.get_set_of_ne hkey t _

theorem IsFactory.inlined {t f : Tree} (h : IsFactory t) (hf : inlineEval parse t = .ok f) :
    IsFactory f := by
  have hkind : f.get "type" = t.get "type" := get_inlineEval hf (by decide)
  have hid : f.get "id" = t.get "id" := get_inlineEval hf (by decide)
  simp only [IsFactory, Tree.isKind, Tree.kind?, hkind, hid]
  exact h

theorem IsFactory.numbered {t : Tree} (h : IsFactory t) : IsFactory t.numbered := by
  have hid : (t.numbered.get "id").isNull = (t.get "id").isNull := by
    rw [← Tree.isNull_untagged, ← Tree.get_untagged, Tree.untagged_numbered, Tree.get_untagged,
      Tree.isNull_untagged]
  simp only [IsFactory, Tree.isKind_numbered, hid]
  exact h

/-! ### Scopes -/

theorem IsFactory.isNode {t : Tree} (h : IsFactory t) : t.isNode = true := by
  rcases h with ⟨h, -⟩ | h
  · exact Pattern.isNode_of_kind? (eq_of_beq h)
  · exact Pattern.isNode_of_kind? (eq_of_beq h)

theorem IsFactory.item {t : Tree} (h : IsFactory t) :
    ∃ items, Item.ofTree .visit t = [.scope .function ⟨t.tag, t.kind⟩ false items] ∧
      Item.ofLooked .many (.target (.declare .parameter false)) (t.get "params") ⊆ items := by
  obtain ⟨tag, fs, rfl⟩ := Tree.eq_object_of_isNode h.isNode
  have hkind : (Tree.object tag fs).kind = Fields.kind fs := by
    rw [Fields.kind_eq]
    rfl
  have hstep : Step.ofView fs .visit = [Step.functionScope fs] := by
    rw [Step.ofView, Step.ofNode]
    rcases h with ⟨hk, hid⟩ | hk
    · have hk : Fields.kind fs = "FunctionExpression" := by
        rw [Fields.kind_eq]
        exact congrArg (·.getD "") (eq_of_beq hk)
      simp only [hk]
      exact if_pos hid
    · have hk : Fields.kind fs = "ArrowFunctionExpression" := by
        rw [Fields.kind_eq]
        exact congrArg (·.getD "") (eq_of_beq hk)
      simp only [hk]
  rw [Item.ofTree_eq_ofLooked, Item.ofLooked_object, if_pos ⟨by decide, by rw [h.isNode]; rfl⟩,
    hstep, List.flatMap_singleton, Step.functionScope, Item.ofStepAt_scope, hkind]
  refine ⟨_, rfl, fun i hi => List.mem_flatMap.mpr ?_⟩
  exact ⟨.look .many (.target (.declare .parameter false)) "params", by simp, hi⟩

theorem IsFactory.children {t : Tree} (h : IsFactory t) :
    ∃ env items, (Scope.ofTree t).registered = false ∧
      (Scope.ofTree t).children = [Scope.made .function ⟨t.tag, t.kind⟩ false true env items] ∧
      Scope.NamesArguments items ∧
      Item.ofLooked .many (.target (.declare .parameter false)) (t.get "params") ⊆ items := by
  obtain ⟨items, hitems, hparams⟩ := h.item
  have hprogram : t.isKind "Program" = false := by
    rcases h with ⟨hk, -⟩ | hk
    · rw [Tree.isKind, eq_of_beq hk]
      rfl
    · rw [Tree.isKind, eq_of_beq hk]
      rfl
  have himplicit : Scope.NamesArguments (Item.ofTree .visit t) := by
    rw [Item.ofTree_eq_ofLooked]
    exact Item.implicit_ofLooked
  rw [hitems] at himplicit
  have hparts : ∃ env, Scope.partsIn .global false []
      [.scope .function ⟨t.tag, t.kind⟩ false items] =
        [.child (Scope.made .function ⟨t.tag, t.kind⟩ false true env items)] := by
    rw [Scope.partsIn]
    exact ⟨_, (List.flatMap_singleton ..).trans (Scope.partsOf_scope ..)⟩
  obtain ⟨env, henv⟩ := hparts
  refine ⟨env, items, ?_, ?_, himplicit.of_scope, hparams⟩
  · rw [Scope.ofTree_other hprogram]
    rfl
  · rw [Scope.ofTree_other hprogram, hitems, Scope.made, Scope.assemble, henv]
    rfl

theorem IsFactory.scope {t : Tree} (h : IsFactory t) :
    (Scope.ofTree t).acquire? t.tag = some [0] ∧ ∃ s, (Scope.ofTree t).at? [0] = some s ∧
      s.kind = .function ∧ s.block.tag = t.tag := by
  obtain ⟨env, items, hregistered, hchildren, -, -⟩ := h.children
  obtain ⟨s, hs⟩ : ∃ s, s = Scope.made .function ⟨t.tag, t.kind⟩ false true env items := ⟨_, rfl⟩
  have hmade : s.kind = .function ∧ s.block.tag = t.tag ∧ s.registered = true := by
    rw [hs]
    exact ⟨rfl, rfl, rfl⟩
  rw [← hs] at hchildren
  have hat : (Scope.ofTree t).at? [0] = some s := by
    rw [Scope.at?, hchildren]
    rfl
  refine ⟨?_, s, hat, hmade.1, hmade.2.1⟩
  have howners : ∃ os, (Scope.ofTree t).owners = (t.tag, [0]) :: os := by
    rw [Scope.owners, Scope.registeredPaths, Scope.paths_eq, hchildren, Scope.pathsOfChildren,
      Scope.paths_eq, List.map_cons, List.cons_append]
    rw [List.filter_cons_of_neg (by simp [Scope.at?, hregistered]),
      List.filter_cons_of_pos (by simp [hat, hmade]), List.filterMap_cons]
    simp only [hat, hmade]
    exact ⟨_, rfl⟩
  obtain ⟨os, hos⟩ := howners
  rw [Scope.acquire?, hos, List.lookup_cons_self]

end Legible.Bundle
