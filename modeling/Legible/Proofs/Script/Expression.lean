import Legible.Proofs.Script.Function

namespace Legible.Script

open Std.Do Read Contents

set_option mvcgen.warning false

attribute [local simp] fills_iff slots? grammarTable List.lookup_cons Fields.get reads_null

variable {g : Grammar} (hg : g.Sound) (c : Context)

/-! ### Primary expressions -/

theorem templateElement_spec :
    Gives templateElement fun e => (one ["TemplateElement"]).Reads e.1 := by
  unfold templateElement
  mvcgen
  have hvalue : ∀ raw cooked,
      (Form.object [("raw", Form.text raw), ("cooked", Form.text cooked)] : Tree).Bare :=
    fun raw cooked => Tree.bare_object (by simp) (by simp) (by simp)
  exact reads_node (by decide) (by simp [hvalue])

include hg

theorem templateLiteral_spec : Makes ["TemplateLiteral"] (templateLiteral g c) := by
  have helement := templateElement_spec
  have hexpression := expression_spec hg c
  have hparts := @repeatStep_spec (List Tree × List Tree × Bool) Tree
    (fun acc => (∀ t ∈ acc.1, (one ["TemplateElement"]).Reads t) ∧
      ∀ t ∈ acc.2.1, (one expressionKinds).Reads t) (one ["TemplateLiteral"]).Reads
  unfold templateLiteral
  mvcgen [helement, hexpression, hparts]
  case vc1 acc hacc _ _ =>
    exact reads_node (by decide) (by simpa using hacc)
  case vc2 acc hacc _ _ e _ he quasi _ hquasi =>
    exact ⟨List.forall_mem_cons.mpr ⟨hquasi, hacc.1⟩, List.forall_mem_cons.mpr ⟨he, hacc.2⟩⟩
  case vc3 =>
    exact fun _ h => ⟨List.forall_mem_singleton.mpr h, by simp⟩

omit hg in
theorem regexLiteral_spec : Makes expressionKinds regexLiteral := by
  unfold regexLiteral
  mvcgen
  have hregex : ∀ body flags,
      (Form.object [("pattern", Form.text body), ("flags", Form.text flags)] : Tree).Bare :=
    fun body flags => Tree.bare_object (by simp) (by simp) (by simp)
  exact reads_node (by decide) (by simp [hregex])

def Grouped (r : List Tree × Bool) : Prop :=
  (∀ t ∈ r.1, (one ("RestElement" :: expressionKinds)).Reads t) ∧
    (¬ r.2 = true → ∀ t ∈ r.1, (one expressionKinds).Reads t)

section

variable {acc : List Tree} {r : List Tree × Bool}

omit hg

theorem Grouped.parts (h : ∀ t ∈ acc, (one expressionKinds).Reads t) (isArrow : Bool) :
    Grouped (acc.reverse, isArrow) := by
  simp only [Grouped, List.mem_reverse]
  exact ⟨fun t ht => Reads.widen (h t ht) (by decide), fun _ => h⟩

theorem Grouped.last (h : ∀ t ∈ acc, (one expressionKinds).Reads t) {t : Tree}
    (ht : (one ["RestElement"]).Reads t) : Grouped ((t :: acc).reverse, true) := by
  refine ⟨fun u hu => ?_, nofun⟩
  rcases List.mem_cons.mp (List.mem_reverse.mp hu) with rfl | hu
  · exact Reads.widen ht (by decide)
  · exact Reads.widen (h u hu) (by decide)

theorem Grouped.reads_arrowParameters (h : Grouped r) :
    (one expressionKinds).Reads (Form.arrowParameters (r.1.map asPattern) false) :=
  Script.reads_arrowParameters (reads_map_asPattern h.1 (by decide)) _

end

theorem group_spec : Makes expressionKinds (group g c) := by
  have hrest := restElement_spec hg c false ")"
  have hpart := shared_spec (hg.assignment c)
  have hparts := @repeatStep_spec (List Tree) _ (∀ t ∈ ·, (one expressionKinds).Reads t) Grouped
  unfold group
  mvcgen [hrest, hpart, hparts]
  · exact reads_arrowParameters (by simp) _
  · exact reads_arrowParameters (List.forall_mem_singleton.mpr (Reads.widen ‹_› (by decide))) _
  · exact Grouped.parts ‹_› _
  · exact Grouped.parts ‹_› _
  · exact Grouped.last ‹_› ‹_›
  · exact List.forall_mem_cons.mpr ⟨‹_›, ‹∀ t ∈ _, _›⟩
  · exact List.forall_mem_singleton.mpr ‹_›
  · exact Grouped.reads_arrowParameters ‹_›
  · exact Grouped.reads_arrowParameters ‹_›
  · exact (‹Grouped _›.2 ‹_›) _ (by simp [*])
  · exact reads_node (by decide) (by simpa using ‹Grouped _›.2 ‹_›)

theorem spreadElement_spec : Makes ["SpreadElement"] (spreadElement g c) := by
  have hargument := shared_spec (hg.assignment c)
  unfold spreadElement
  mvcgen [hargument]
  exact reads_node (by decide) (by simp [*])

theorem arrayInitializer_spec : Makes expressionKinds (arrayInitializer g c) := by
  have hspread := widen_spec (expressionKinds ++ ["SpreadElement"]) (spreadElement_spec hg c)
    (by decide)
  have hitem := widen_spec (expressionKinds ++ ["SpreadElement"]) (shared_spec (hg.assignment c))
    (by decide)
  have hitems := @gather_spec (maybe (expressionKinds ++ ["SpreadElement"])).Reads
  unfold arrayInitializer
  mvcgen [hspread, hitem, hitems]
  · exact Gathers.done ‹_›
  · exact Gathers.more reads_null ‹_›
  · exact Gathers.more (Reads.orNull ‹_›) ‹_›
  · exact Gathers.more (Reads.orNull ‹_›) ‹_›
  · exact Gathers.more (Reads.orNull ‹_›) ‹_›
  · exact Gathers.more (Reads.orNull ‹_›) ‹_›
  · simp
  · exact reads_node (by decide) (by simpa using ‹∀ t ∈ _, _›)

theorem objectProperty_spec : Makes ["Property", "SpreadElement"] (objectProperty g c) := by
  have hkey := propertyKey_spec hg c
  have hmethod := fun sort => widen_spec targetKinds (method_spec hg c sort) (by decide)
  have hvalue := widen_spec targetKinds (shared_spec (hg.assignment c)) (by decide)
  have hdefault := isolated_spec (hg.assignment c)
  unfold objectProperty
  refine Triple.bind _ _ token_spec fun first => ?_
  extract_lets name? computed₀ key₀ finish
  have hfinish : ∀ computed isAsync key, (first = .punct "*" ∨ (one expressionKinds).Reads key) →
      Makes ["Property", "SpreadElement"] (finish () computed isAsync key) := by
    intro computed isAsync key h
    have hread : ¬ (first == .punct "*") = true → (one expressionKinds).Reads key :=
      fun hne => h.resolve_left fun he => hne (beq_iff_eq.mpr he)
    mvcgen [finish, hkey, hmethod, hvalue, hdefault]
    · exact reads_property (by decide) ‹_› ‹_› _ _ _
    · exact reads_property (by decide) ‹_› ‹_› _ _ _
    · exact reads_property (by decide) ‹_› ‹_› _ _ _
    · exact reads_property (by decide) (hread ‹_›) ‹_› _ _ _
    · exact reads_property (by decide) (hread ‹_›) ‹_› _ _ _
    · exact reads_property (by decide) (hread ‹_›)
        (reads_assignmentPattern (by decide) (reads_identifier (by decide) _) ‹_›) _ _ _
    · exact reads_property (by decide) (hread ‹_›) (reads_identifier (by decide) _) _ _ _
  clear_value finish
  have haccept := acceptPunct_spec first
  mvcgen [haccept, hkey, hfinish]
  · exact fun _ h => Or.inr h
  · exact Or.inr (reads_identifier (by decide) _)
  · exact fun _ h => Or.inr h
  · exact fun _ h => Or.inl (h (by simpa using ‹¬ (!_) = true›))

theorem objectInitializer_spec : Makes expressionKinds (objectInitializer g c) := by
  have hproperty := objectProperty_spec hg c
  have hspread := widen_spec ["Property", "SpreadElement"] (spreadElement_spec hg c) (by decide)
  have hlist := @looseList_spec (one ["Property", "SpreadElement"]).Reads
  unfold objectInitializer
  mvcgen [hproperty, hspread, hlist]
  exact reads_node (by decide) (by simpa using ‹∀ t ∈ _, _›)

theorem keywordExpression_spec (w : String) : Makes expressionKinds (keywordExpression g c w) := by
  have hfunction := widen_spec expressionKinds (functionExpression_spec hg c) (by decide)
  have hclass := widen_spec expressionKinds
    (@classTail_spec _ hg c "ClassExpression" (by decide) true) (by decide)
  unfold keywordExpression
  mvcgen [hfunction, hclass]
  · exact reads_identifier (by decide) _
  · exact reads_node (by decide) (by simp)
  · exact reads_node (by decide) (by simp)
  · exact reads_literal (by decide) _ _
  · exact reads_literal (by decide) _ _
  · exact reads_literal (by decide) _ _

theorem primary_spec : Makes expressionKinds (primary g c) := by
  have hfunction := widen_spec expressionKinds (functionExpression_spec hg c) (by decide)
  have hkeyword := keywordExpression_spec hg c
  have htemplate := widen_spec expressionKinds (templateLiteral_spec hg c) (by decide)
  have hgroup := shared_spec (group_spec hg c)
  have harray := shared_spec (arrayInitializer_spec hg c)
  have hobject := shared_spec (objectInitializer_spec hg c)
  have hregex := regexLiteral_spec
  unfold primary
  mvcgen [hfunction, hkeyword, htemplate, hgroup, harray, hobject, hregex]
  · exact reads_identifier (by decide) _
  · exact reads_literal (by decide) _ _
  · exact reads_literal (by decide) _ _

/-! ### Members and calls -/

theorem arguments_spec : Gives (arguments g c) fun ts =>
    ∀ t ∈ ts, (one (expressionKinds ++ ["SpreadElement"])).Reads t := by
  have hspread := widen_spec (expressionKinds ++ ["SpreadElement"]) (spreadElement_spec hg c)
    (by decide)
  have hitem := widen_spec (expressionKinds ++ ["SpreadElement"]) (isolated_spec (hg.assignment c))
    (by decide)
  have hlist := @looseList_spec (one (expressionKinds ++ ["SpreadElement"])).Reads
  unfold arguments
  mvcgen [hspread, hitem, hlist]

theorem asyncArguments_spec : Gives (asyncArguments g c) fun ts =>
    ∀ t ∈ ts, (one (expressionKinds ++ ["SpreadElement"])).Reads t := by
  have hspread := widen_spec (expressionKinds ++ ["SpreadElement"]) (spreadElement_spec hg c)
    (by decide)
  have hitem := widen_spec (expressionKinds ++ ["SpreadElement"]) (hg.assignment c) (by decide)
  have hisolated := @isolated_spec Tree
  have hlist := @looseList_spec (one (expressionKinds ++ ["SpreadElement"])).Reads
  unfold asyncArguments
  mvcgen [hspread, hitem, hisolated, hlist]

theorem newExpression_spec : Makes expressionKinds (newExpression g c) := by
  have hcallee := isolated_spec (hg.member c)
  have hargs := arguments_spec hg c
  unfold newExpression
  mvcgen [hcallee, hargs]
  · have hname := @reads_identifier ["Identifier"] (by decide)
    exact reads_node (by decide) (by simp [hname])
  · exact reads_node (by decide) (by simpa [*] using ‹∀ t ∈ _, _›)
  · exact reads_node (by decide) (by simp [*])

omit hg in
theorem superReference_spec (calls : Bool) : Makes expressionKinds (superReference calls) := by
  unfold superReference
  mvcgen
  exact reads_node (by decide) (by simp)

theorem chain_spec (calls : Bool) : Makes expressionKinds (chain g c calls) := by
  have hkey := fun c => isolated_spec (expression_spec hg c)
  have hargs := arguments_spec hg
  have hasync := asyncArguments_spec hg
  have htemplate := templateLiteral_spec hg
  have hlinks := @repeatStep_spec Tree Tree (one expressionKinds).Reads (one expressionKinds).Reads
  have hsuper := superReference_spec calls
  have hnew := fun c => shared_spec (newExpression_spec hg c)
  have hprimary := fun c => shared_spec (primary_spec hg c)
  unfold chain
  extract_lets c'
  refine Triple.bind _ _ (triple_true _) fun r => ?_
  extract_lets first links
  have hlinks : ∀ start, (one expressionKinds).Reads start →
      Makes expressionKinds (links start) := by
    intro start h
    mvcgen [links, hkey, hargs, hasync, htemplate, hlinks]
    · have hname := @reads_identifier expressionKinds (by decide)
      exact reads_node (by decide) (by simp [*])
    · exact reads_node (by decide) (by simp [*])
    · exact reads_arrowParameters (reads_map_asPattern ‹∀ t ∈ _, _› (by decide)) _
    · exact reads_node (by decide) (by simpa [*] using ‹∀ t ∈ _, _›)
    · exact reads_node (by decide) (by simpa [*] using ‹∀ t ∈ _, _›)
    · exact reads_node (by decide) (by simp [*])
    · exact fun _ => h
  clear_value links
  mvcgen [hsuper, hnew, hprimary, hlinks] <;> exact fun _ h => h

end Legible.Script
