import Legible.Proofs.Script.Triples

namespace Legible.Script

open Std.Do Read Contents

set_option mvcgen.warning false

structure Grammar.Sound (g : Grammar) : Prop where
  assignment (c : Context) : Makes expressionKinds (g.assignment c)
  power (c : Context) : Makes expressionKinds (g.power c)
  unary (c : Context) : Makes expressionKinds (g.unary c)
  member (c : Context) : Makes expressionKinds (g.member c)
  call (c : Context) : Makes expressionKinds (g.call c)
  binding (c : Context) (b : Bool) : Makes bindingKinds (g.binding c b)
  statement (c : Context) : Makes statementKinds (g.statement c)
  item (c : Context) : Makes itemKinds (g.item c)
  declaration (c : Context) :
    ⦃fun r => ⌜∃ w ∈ ["var", "class", "function"], r.next.token = .keyword w⌝⦄ g.item c
    ⦃⇓? t => ⌜(one declarationKinds).Reads t⌝⦄

@[simp]
theorem reads_formMany {kinds : List String} {ts : List Tree} :
    (many kinds).Reads (Form.list ts) ↔ ∀ t ∈ ts, (one kinds).Reads t :=
  reads_many

@[simp]
theorem reads_formSparse {kinds : List String} {ts : List Tree} :
    (sparse kinds).Reads (Form.list ts) ↔ ∀ t ∈ ts, (maybe kinds).Reads t :=
  reads_sparse

attribute [local simp] fills_iff slots? grammarTable List.lookup_cons Fields.get reads_null

theorem reads_identifier {kinds : List String} (h : "Identifier" ∈ kinds) (name : String) :
    (one kinds).Reads (Form.identifier name) :=
  reads_node h (by simp)

theorem reads_literal {kinds : List String} (h : "Literal" ∈ kinds) (value : Scalar)
    (raw : String) : (one kinds).Reads (Form.literal value raw) :=
  reads_node h (by simp)

theorem reads_property {kinds : List String} (h : "Property" ∈ kinds) {key value : Tree}
    (hkey : (one expressionKinds).Reads key) (hvalue : (one targetKinds).Reads value)
    (computed : Bool) (kind : String) (method : Bool) :
    (one kinds).Reads (Form.property key computed value kind method) :=
  reads_node h (by simp [hkey, hvalue])

theorem reads_assignmentPattern {kinds : List String} (h : "AssignmentPattern" ∈ kinds)
    {left right : Tree} (hleft : (one targetKinds).Reads left)
    (hright : (one expressionKinds).Reads right) :
    (one kinds).Reads (Form.assignmentPattern left right) :=
  reads_node h (by simp [hleft, hright])

theorem reads_function {kind : String} (h : kind ∈ ["FunctionDeclaration", "FunctionExpression"])
    {id body : Tree} {ps : List Tree} (hid : (maybe ["Identifier"]).Reads id)
    (hps : ∀ p ∈ ps, (one parameterKinds).Reads p) (hbody : (one ["BlockStatement"]).Reads body)
    (isAsync generator : Bool) :
    (one [kind]).Reads (Form.function kind isAsync id ps body generator) := by
  refine reads_node List.mem_cons_self ?_
  rcases List.mem_pair.mp h with rfl | rfl <;> simpa [hid, hbody] using hps

theorem reads_class {kind : String} (h : kind ∈ ["ClassDeclaration", "ClassExpression"])
    {id superClass body : Tree} (hid : (maybe ["Identifier"]).Reads id)
    (hsuper : (maybe expressionKinds).Reads superClass) (hbody : (one ["ClassBody"]).Reads body) :
    (one [kind]).Reads (Form.class_ kind id superClass body) := by
  refine reads_node List.mem_cons_self ?_
  rcases List.mem_pair.mp h with rfl | rfl <;> simp [hid, hsuper, hbody]

theorem reads_methodDefinition {key value : Tree} (hkey : (one expressionKinds).Reads key)
    (hvalue : (one ["FunctionExpression"]).Reads value) (computed : Bool) (kind : String)
    (isStatic : Bool) : (one ["MethodDefinition"]).Reads
      (Form.methodDefinition key computed value kind isStatic) :=
  reads_node (by decide) (by simp [hkey, hvalue])

variable {g : Grammar} (hg : g.Sound) (c : Context)

/-! ### Patterns -/

theorem bindingName_spec (letIsName : Bool) : Makes ["Identifier"] (bindingName letIsName) := by
  unfold bindingName
  mvcgen <;> exact reads_identifier (by decide) _

include hg

theorem propertyKey_spec : Makes expressionKinds (propertyKey g c) := by
  have hcomputed := isolated_spec (hg.assignment c)
  unfold propertyKey
  mvcgen [hcomputed]
  · exact reads_literal (by decide) _ _
  · exact reads_literal (by decide) _ _
  · exact reads_identifier (by decide) _
  · exact reads_identifier (by decide) _

theorem bindingWithDefault_spec (letIsName : Bool) :
    Makes targetKinds (bindingWithDefault g c letIsName) := by
  have hbinding := widen_spec targetKinds (hg.binding c letIsName) (by decide)
  have hvalue := withYieldIsName_spec (isolated_spec (hg.assignment c)) true
  unfold bindingWithDefault
  mvcgen [hbinding, hvalue]
  exact reads_assignmentPattern (by decide) ‹_› ‹_›

theorem restElement_spec (letIsName : Bool) (close : String) :
    Makes ["RestElement"] (restElement g c letIsName close) := by
  have hbinding := widen_spec targetKinds (hg.binding c letIsName) (by decide)
  unfold restElement
  mvcgen [hbinding]
  exact reads_node (by decide) (by simp [*])

theorem arrayBinding_spec (letIsName : Bool) : Makes bindingKinds (arrayBinding g c letIsName) := by
  have hitem := widen_spec parameterKinds (bindingWithDefault_spec hg c letIsName) (by decide)
  have hrest := widen_spec parameterKinds (restElement_spec hg c letIsName "]") (by decide)
  have hitems := @gather_spec (maybe parameterKinds).Reads
  unfold arrayBinding
  mvcgen [hitem, hrest, hitems]
  · exact Gathers.done ‹_›
  · exact Gathers.more reads_null ‹_›
  · exact Gathers.more (Reads.orNull ‹_›) ‹_›
  · exact Gathers.more (Reads.orNull ‹_›) ‹_›
  · exact Gathers.more (Reads.orNull ‹_›) ‹_›
  · exact Gathers.more (Reads.orNull ‹_›) ‹_›
  · simp
  · exact reads_node (by decide) (by simpa using ‹∀ t ∈ _, _›)

theorem propertyBinding_spec (letIsName : Bool) :
    Makes ["Property", "RestElement"] (propertyBinding g c letIsName) := by
  have hname := bindingName_spec false
  have hitem := bindingWithDefault_spec hg c letIsName
  have hkey := propertyKey_spec hg c
  have hvalue := hg.assignment c
  unfold propertyBinding
  mvcgen [hname, hitem, hkey, hvalue]
  · exact reads_property (by decide) (Reads.widen ‹_› (by decide))
      (reads_assignmentPattern (by decide) (Reads.widen ‹_› (by decide)) ‹_›) _ _ _
  · exact reads_property (by decide) (Reads.widen ‹_› (by decide)) ‹_› _ _ _
  · exact reads_property (by decide) (Reads.widen ‹_› (by decide))
      (Reads.widen ‹_› (by decide)) _ _ _
  · exact reads_property (by decide) ‹_› ‹_› _ _ _

theorem objectBinding_spec (letIsName : Bool) :
    Makes bindingKinds (objectBinding g c letIsName) := by
  have hproperty := propertyBinding_spec hg c letIsName
  have hrest := widen_spec ["Property", "RestElement"] (restElement_spec hg c false "\x7d")
    (by decide)
  have hlist := @commaList_spec (one ["Property", "RestElement"]).Reads
  unfold objectBinding
  mvcgen [hproperty, hrest, hlist]
  exact reads_node (by decide) (by simpa using ‹∀ t ∈ _, _›)

theorem binding_spec (letIsName : Bool) : Makes bindingKinds (binding g c letIsName) := by
  have harray := arrayBinding_spec hg c letIsName
  have hobject := objectBinding_spec hg c letIsName
  have hname := widen_spec bindingKinds (bindingName_spec letIsName) (by decide)
  unfold binding
  mvcgen [harray, hobject, hname]

/-! ### Functions -/

theorem parameters_spec :
    Gives (parameters g c) fun ps => ∀ p ∈ ps, (one parameterKinds).Reads p := by
  have hitem := widen_spec parameterKinds (bindingWithDefault_spec hg c false) (by decide)
  have hrest := widen_spec parameterKinds (restElement_spec hg c false ")") (by decide)
  have hlist := @commaList_spec (one parameterKinds).Reads
  unfold parameters
  mvcgen [hitem, hrest, hlist]

theorem expression_spec : Makes expressionKinds (expression g c) := by
  have hpart := isolated_spec (hg.assignment c)
  have hparts := @gather_spec (one expressionKinds).Reads
  unfold expression
  mvcgen [hpart, hparts]
  · exact Gathers.more ‹_› ‹_›
  · exact Gathers.done ‹_›
  · exact List.forall_mem_singleton.mpr ‹_›
  · exact reads_node (by decide) (by simpa using ‹∀ t ∈ _, _›)

theorem directives_spec : Gives (directives g c) fun ts => ∀ t ∈ ts, (one itemKinds).Reads t := by
  have hexpression := expression_spec hg c
  have hparts := @gather_spec (one itemKinds).Reads
  have hdirective : ∀ {e : Tree}, (one expressionKinds).Reads e → ∀ raw,
      (one itemKinds).Reads (Form.directive e raw) :=
    fun h raw => reads_node (by decide) (by simp [h])
  have hstatement : ∀ {e : Tree}, (one expressionKinds).Reads e →
      (one itemKinds).Reads (Form.expressionStatement e) :=
    fun h => reads_node (by decide) (by simp [h])
  unfold directives
  mvcgen [hexpression, hparts]
  · exact Gathers.more (hdirective ‹_› _) ‹_›
  · exact Gathers.more (hdirective ‹_› _) ‹_›
  · exact Gathers.done (List.forall_mem_cons.mpr ⟨hstatement ‹_›, ‹_›⟩)
  · exact Gathers.done ‹_›
  · simp

theorem functionBody_spec : Makes ["BlockStatement"] (functionBody g c) := by
  have hdirectives := directives_spec hg c
  have hitems := fun c => itemsUntil_spec (hg.item c)
  unfold functionBody
  mvcgen [hdirectives, hitems]
  rename_i hstart rest _ hrest
  have hbody := List.forall_mem_append.mpr ⟨hstart, hrest⟩
  exact reads_node (by decide) (by simpa using hbody)

omit hg in
theorem bodyAfter_spec {body : Read Tree} {P : Tree → Prop} (h : Gives body P)
    (names : List String) : Gives (bodyAfter names body) P := by
  have hk := @keepStrict_spec Tree
  unfold bodyAfter
  mvcgen [hk, h]

theorem functionTail_spec {kind : String}
    (hkind : kind ∈ ["FunctionDeclaration", "FunctionExpression"]) {id : Tree}
    (hid : (maybe ["Identifier"]).Reads id) (isAsync generator : Bool) :
    Makes [kind] (functionTail g kind c isAsync generator id) := by
  have hparameters := parameters_spec hg
  have hbody := fun c => bodyAfter_spec (functionBody_spec hg c)
  refine withYieldIsName_spec ?_ _
  mvcgen [hparameters, hbody]
  exact reads_function hkind hid ‹_› ‹_› _ _

theorem functionExpression_spec : Makes ["FunctionExpression"] (functionExpression g c) := by
  have hname := withYieldIsName_spec (triple_mono (bindingName_spec false) fun _ => Reads.orNull)
  have htail := @functionTail_spec _ hg c "FunctionExpression" (by decide)
  unfold functionExpression
  mvcgen [hname, htail]
  · exact reads_null
  · exact fun _ h => h

theorem functionDeclaration_spec (nameOptional : Bool) :
    Makes ["FunctionDeclaration"] (functionDeclaration g c nameOptional) := by
  have hname := triple_mono (bindingName_spec false) fun _ => Reads.orNull
  have htail := @functionTail_spec _ hg c "FunctionDeclaration" (by decide)
  unfold functionDeclaration
  mvcgen [hname, htail]
  · exact reads_null
  · exact fun _ h => h

theorem method_spec (sort : MethodSort) : Makes ["FunctionExpression"] (method g c sort) := by
  have hparameters := parameters_spec hg
  have hbody := fun c => keepStrict_spec (isolated_spec (functionBody_spec hg c))
  have hyield := @withYieldIsName_spec Tree
  unfold method methodBody
  mvcgen [hparameters, hbody, hyield] <;>
    exact reads_function (by decide) reads_null ‹_› ‹_› _ _

/-! ### Classes -/

theorem classElement_spec :
    Gives (classElement g c) fun e => (one ["MethodDefinition"]).Reads e.1 := by
  have hkey := propertyKey_spec hg c
  have hmethod := method_spec hg c
  unfold classElement
  extract_lets +lift finish
  have hfinish : ∀ key computed value kind isStatic,
      (one expressionKinds).Reads key ∧ (one ["FunctionExpression"]).Reads value →
      Gives (finish key computed value kind isStatic) fun e =>
        (one ["MethodDefinition"]).Reads e.1 := by
    intro key computed value kind isStatic h
    mvcgen [finish] <;> exact reads_methodDefinition h.1 h.2 _ _ _
  clear_value finish
  mvcgen [hkey, hmethod, hfinish] <;> exact fun _ h => ⟨‹_›, h⟩

theorem classBody_spec : Makes ["ClassBody"] (classBody g c) := by
  have helement := classElement_spec hg c
  have helements := @repeatStep_spec (List Tree × Bool) (List Tree)
    (fun acc => ∀ t ∈ acc.1, (one ["MethodDefinition"]).Reads t)
    fun ts => ∀ t ∈ ts, (one ["MethodDefinition"]).Reads t
  unfold classBody
  mvcgen [helement, helements]
  · exact @Gathers.done _ _ ‹_›
  · exact Gathers.more ‹_› ‹_›
  · simp
  · exact reads_node (by decide) (by simpa using ‹∀ t ∈ _, _›)

theorem classTail_spec {kind : String} (hkind : kind ∈ ["ClassDeclaration", "ClassExpression"])
    (nameOptional : Bool) :
    Makes [kind] (classTail g c kind nameOptional) := by
  have hname := triple_mono (bindingName_spec false) fun _ => Reads.orNull
  have hsuper := triple_mono (isolated_spec (hg.call c)) fun _ => Reads.orNull
  have hbody := classBody_spec hg c
  refine keepStrict_spec ?_
  mvcgen [hname, hsuper, hbody]
  · exact reads_class hkind reads_null ‹_› ‹_›
  · exact reads_class hkind reads_null reads_null ‹_›
  · exact reads_class hkind ‹_› ‹_› ‹_›
  · exact reads_class hkind ‹_› reads_null ‹_›

end Legible.Script
