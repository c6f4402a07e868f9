import Legible.Proofs.Script.Statement

namespace Legible.Script

open Std.Do Read Contents

set_option mvcgen.warning false

attribute [local simp] fills_iff slots? grammarTable List.lookup_cons Fields.get reads_null

variable {g : Grammar} (hg : g.Sound) (c : Context)

/-! ### Imports and exports -/

theorem stringLiteral_spec : Makes ["Literal"] stringLiteral := by
  unfold stringLiteral
  mvcgen
  exact reads_literal (by decide) _ _

theorem sourceClause_spec : Makes ["Literal"] sourceClause := by
  have hsource := stringLiteral_spec
  unfold sourceClause
  mvcgen [hsource]

def importKinds : List String :=
  ["ImportDefaultSpecifier", "ImportNamespaceSpecifier", "ImportSpecifier"]

theorem importSpecifier_spec : Makes importKinds importSpecifier := by
  have hname := bindingName_spec false
  have himported : ∀ w, (one ["Identifier"]).Reads (Form.identifier w) :=
    reads_identifier (by decide)
  unfold importSpecifier
  mvcgen [hname] <;> exact reads_node (by decide) (by simp [*])

theorem namedImports_spec :
    Gives (namedImports g) fun ts => ∀ t ∈ ts, (one importKinds).Reads t := by
  have hspecifier := importSpecifier_spec
  have hlist := @commaList_spec (one importKinds).Reads
  unfold namedImports
  mvcgen [hspecifier, hlist]

theorem namespaceImport_spec : Makes importKinds namespaceImport := by
  have hname : ∀ w, (one ["Identifier"]).Reads (Form.identifier w) := reads_identifier (by decide)
  unfold namespaceImport
  mvcgen
  exact reads_node (by decide) (by simp [*])

theorem importClause_spec :
    Gives (importClause g) fun ts => ∀ t ∈ ts, (one importKinds).Reads t := by
  have hnamed := @namedImports_spec g
  have hnamespace := namespaceImport_spec
  have hname : ∀ w, (one ["Identifier"]).Reads (Form.identifier w) := reads_identifier (by decide)
  have hdefault : ∀ w, (one importKinds).Reads (Form.importDefaultSpecifier (Form.identifier w)) :=
    fun w => reads_node (by decide) (by simp [hname])
  unfold importClause
  mvcgen [hnamed, hnamespace]
  · exact List.forall_mem_singleton.mpr ‹_›
  · exact List.forall_mem_singleton.mpr (hdefault _)
  · exact List.forall_mem_cons.mpr ⟨hdefault _, List.forall_mem_singleton.mpr ‹_›⟩
  · exact List.forall_mem_cons.mpr ⟨hdefault _, ‹_›⟩

theorem importDeclaration_spec : Makes itemKinds (importDeclaration g c) := by
  have hliteral := stringLiteral_spec
  have hsource := sourceClause_spec
  have hclause := @importClause_spec g
  unfold importDeclaration
  mvcgen [hliteral, hsource, hclause]
  · exact reads_node (by decide) (by simp [*])
  · exact reads_node (by decide) (by simpa [*] using ‹∀ t ∈ _, _›)

theorem exportSpecifier_spec : Makes ["ExportSpecifier"] exportSpecifier := by
  have hname : ∀ w, (one ["Identifier"]).Reads (Form.identifier w) := reads_identifier (by decide)
  unfold exportSpecifier
  mvcgen <;> exact reads_node (by decide) (by simp [*])

theorem exportNames_spec : Makes itemKinds (exportNames g) := by
  have hspecifier := exportSpecifier_spec
  have hlist := @commaList_spec (one ["ExportSpecifier"]).Reads
  have hsource := triple_mono sourceClause_spec fun _ => Reads.orNull
  unfold exportNames
  mvcgen [hspecifier, hlist, hsource] <;>
    exact reads_node (by decide) (by simpa [*] using ‹∀ t ∈ _, _›)

theorem isLetDeclaration_spec (t : Token) :
    ⦃fun r => ⌜r.next.token = t⌝⦄ isLetDeclaration ⦃⇓? _ r => ⌜r.next.token = t⌝⦄ := by
  have hpeek := peek_spec t
  unfold isLetDeclaration
  mvcgen [hpeek]

include hg

theorem exportDefault_spec : Makes itemKinds (exportDefault g c) := by
  have hfunction := functionDeclaration_spec hg c true
  have hclass := @classTail_spec _ hg c "ClassDeclaration" (by decide) true
  have hobject := objectInitializer_spec hg c
  have harray := arrayInitializer_spec hg c
  have hexpression := hg.assignment c
  have hdefault : ∀ {kinds : List String} {t : Tree}, (one kinds).Reads t →
      kinds ⊆ expressionKinds ++ ["FunctionDeclaration", "ClassDeclaration"] →
      (one itemKinds).Reads (Form.exportDefaultDeclaration t) :=
    fun h hk => reads_node (by decide) (by simp [Reads.widen h hk])
  unfold exportDefault
  mvcgen [hfunction, hclass, hobject, harray, hexpression] <;> exact hdefault ‹_› (by decide)

theorem exportDeclaration_spec : Makes itemKinds (exportDeclaration g c) := by
  have htoken := token_spec
  have hdefault := exportDefault_spec hg c
  have hsource := sourceClause_spec
  have hvariables := variableStatement_spec hg c
  have hnames := @exportNames_spec g
  have hfunction := functionDeclaration_spec hg c false
  have hexport : ∀ {kinds : List String} {t : Tree}, (one kinds).Reads t →
      kinds ⊆ declarationKinds → (one itemKinds).Reads (Form.exportNamedDeclaration t [] .null) :=
    fun h hk => reads_node (by decide) (by simp [Reads.orNull (Reads.widen h hk)])
  have hitem := hg.declaration c
  unfold exportDeclaration
  mvcgen [htoken, hdefault, hsource, hvariables, hnames, hitem, hfunction]
  · exact reads_node (by decide) (by simp [*])
  · exact ⟨"let", by decide, ‹_›⟩
  · exact hexport ‹_› (by decide)
  · exact ⟨"const", by decide, ‹_›⟩
  · exact hexport ‹_› (by decide)
  · exact ⟨"var", by decide, ‹_›⟩
  · exact hexport ‹_› (by decide)
  · exact ⟨"class", by decide, ‹_›⟩
  · exact hexport ‹_› (by decide)
  · exact ⟨"function", by decide, ‹_›⟩
  · exact hexport ‹_› (by decide)
  · exact hexport ‹_› (by decide)

/-! ### Items -/

theorem statementItem_spec : Makes itemKinds (statementItem g c) := by
  have htoken := token_spec
  have hexport := exportDeclaration_spec hg c
  have himport := importDeclaration_spec (g := g) c
  have hexpression := widen_spec itemKinds (expressionStatement_spec hg c) (by decide)
  have hvariables := variableStatement_spec hg c
  have hlet := isLetDeclaration_spec (.keyword "let")
  have hfunction := widen_spec itemKinds (functionDeclaration_spec hg c false) (by decide)
  have hclass := widen_spec itemKinds
    (@classTail_spec _ hg c "ClassDeclaration" (by decide) false) (by decide)
  have hstatement := widen_spec itemKinds (statement_spec hg c) (by decide)
  unfold statementItem
  mvcgen [htoken, hexport, himport, hexpression, hvariables, hlet, hfunction, hclass, hstatement]
  · exact ⟨"const", by decide, ‹_›⟩
  · exact fun _ h => Reads.widen h (by decide)
  · exact ⟨"let", by decide, ‹_›⟩
  · exact fun _ h => Reads.widen h (by decide)

omit hg in
theorem statementItem_of_keyword (r : Reader) :
    (r.next.token = .keyword "var" →
      statementItem g c r = variableStatement g c { r with mayBind := true }) ∧
    (r.next.token = .keyword "class" →
      statementItem g c r = classTail g c "ClassDeclaration" false { r with mayBind := true }) ∧
    (r.next.token = .keyword "function" →
      statementItem g c r = functionDeclaration g c false { r with mayBind := true }) := by
  obtain ⟨⟨_, _, _, _⟩, _, _, _, _, _, _⟩ := r
  refine ⟨?_, ?_, ?_⟩ <;>
  · rintro ⟨⟩
    rfl

theorem declaration_spec :
    ⦃fun r => ⌜∃ w ∈ ["var", "class", "function"], r.next.token = .keyword w⌝⦄ statementItem g c
    ⦃⇓? t => ⌜(one declarationKinds).Reads t⌝⦄ := by
  refine triple_iff.mpr fun r t r' ⟨w, hw, hr⟩ h => ?_
  obtain ⟨hvar, hclass, hfunction⟩ := statementItem_of_keyword (g := g) c r
  simp only [List.mem_cons, List.not_mem_nil, or_false] at hw
  rcases hw with rfl | rfl | rfl
  · have hread := triple_iff.mp (variableStatement_spec hg c) { r with mayBind := true } t r'
    exact Reads.widen (hread ⟨"var", by decide, hr⟩ (hvar hr ▸ h)) (by decide)
  · have hread := @classTail_spec _ hg c "ClassDeclaration" (by decide) false
    exact Reads.widen (triple_iff.mp hread _ t r' trivial (hclass hr ▸ h)) (by decide)
  · have hread := functionDeclaration_spec hg c false
    exact Reads.widen (triple_iff.mp hread _ t r' trivial (hfunction hr ▸ h)) (by decide)

/-! ### Programs -/

theorem program_spec : Makes ["Program"] (program g) := by
  have hstart := directives_spec hg {}
  have hitem := hg.item {}
  have hitems := @gather_spec (one itemKinds).Reads
  unfold program
  mvcgen [hstart, hitem, hitems]
  · exact Gathers.done ‹_›
  · exact Gathers.more ‹_› ‹_›
  · simp
  case vc4 hstart _ _ hrest =>
    have hbody := List.forall_mem_append.mpr ⟨hstart, hrest⟩
    exact reads_node (by decide) (by simpa using hbody)

omit hg

theorem sound_grammar (fuel : Nat) : (grammar fuel).Sound := by
  induction fuel with
  | zero => constructor <;> intros <;> exact triple_iff.mpr fun _ _ _ _ h => nomatch h
  | succ fuel ih =>
    exact ⟨assignment_spec ih, power_spec ih, unary_spec ih, fun c => chain_spec ih c false,
      fun c => chain_spec ih c true, binding_spec ih, statement_spec ih, statementItem_spec ih,
      declaration_spec ih⟩

theorem reads_of_parse? {source : String} {t : Tree} (h : parse? source = some t) :
    (one ["Program"]).Reads t := by
  unfold parse? at h
  simp only [Option.bind_eq_bind, Option.bind_eq_some_iff] at h
  obtain ⟨start, -, ⟨u, r⟩, hrun, hu⟩ := h
  cases hu
  exact triple_iff.mp (program_spec (sound_grammar _)) _ _ _ trivial hrun

theorem parse_eq_ok_iff {source : String} {t : Tree} :
    parse source = .ok t ↔ parse? source = some t := by
  rw [parse]
  cases parse? source <;> simp

theorem wellFormed_of_parse? {source : String} {t : Tree} (h : parse? source = some t) :
    t.wellFormed = true :=
  (reads_of_parse? h).neat.wellFormed

theorem grammatical_of_parse? {source : String} {t : Tree} (h : parse? source = some t)
    (hn : ∀ n ∈ t.nodes, n.kind? ≠ some parametersKind) : t.grammatical = true := by
  obtain ⟨hopt, -⟩ | ⟨kind, hm, hk, hneat, hloose⟩ := (reads_iff rfl).mp (reads_of_parse? h)
  · cases hopt
  have hprogram : t.isKind "Program" = true := by
    obtain rfl : kind = "Program" := by
      have hs : looseKinds ["Program"] = ["Program"] := by decide
      exact List.mem_singleton.mp (hs ▸ hm)
    rw [Tree.isKind, hk, beq_self_eq_true]
  simp only [Tree.grammatical, hprogram, hneat.distinct, hloose.formed hn, Bool.and_self]

example : (parse? "(a,) + 1").map Tree.grammatical = some false := by
  decide +kernel

end Legible.Script

namespace Legible.Pattern

theorem wellFormed_of_compile {source : String} {p : Pattern}
    (h : compile Script.parse source = .ok p) : p.wellFormed = true := by
  unfold compile at h
  split at h
  · rename_i t ht
    have hneat := (Script.reads_of_parse? (Script.parse_eq_ok_iff.mp ht)).neat
    exact wellFormed_ofScript hneat.distinct hneat.plainRaw h
  · cases h

end Legible.Pattern
