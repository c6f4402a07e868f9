import Legible.Proofs.Script.Operator

namespace Legible.Script

open Std.Do Read Contents

set_option mvcgen.warning false

attribute [local simp] fills_iff slots? grammarTable List.lookup_cons Fields.get reads_null

theorem reads_variableDeclaration {kinds : List String} (h : "VariableDeclaration" ∈ kinds)
    {word : String} (hw : word ∈ declarationWords) {ds : List Tree}
    (hds : ∀ d ∈ ds, (one ["VariableDeclarator"]).Reads d) :
    (one kinds).Reads (Form.variableDeclaration word ds) :=
  reads_node h (by simpa [Form.text, Form.scalar, Tree.text?, hw] using hds)

variable {g : Grammar} (hg : g.Sound) (c : Context)

/-! ### Declarations of variables -/

theorem anyWord_spec (ws : List String) :
    ⦃fun r => ⌜∃ w ∈ ws, r.next.token = .keyword w⌝⦄ anyWord ⦃⇓? v => ⌜v ∈ ws⌝⦄ := by
  have hadvance := advance_spec fun t => ∃ w ∈ ws, t = .keyword w
  unfold anyWord
  mvcgen [hadvance]
  case vc2 hname _ hkeyword =>
    obtain ⟨_, -, hkeyword⟩ := hkeyword
    exact nomatch hname.symm.trans hkeyword
  case vc3 hword _ hkeyword =>
    obtain ⟨w, hw, hkeyword⟩ := hkeyword
    rwa [Token.keyword.inj (hword.symm.trans hkeyword)]

include hg

theorem initialValue_spec :
    Gives (initialValue g c) fun t? => (maybe expressionKinds).Reads (t?.getD .null) := by
  have hvalue := isolated_spec (hg.assignment c)
  unfold initialValue
  mvcgen [hvalue]
  · exact Reads.orNull ‹_›
  · exact reads_null

theorem variableBinding_spec (inHead : Bool) :
    Makes ["VariableDeclarator"] (variableBinding g c inHead) := by
  have hid := hg.binding c true
  have hinit := initialValue_spec hg c
  unfold variableBinding
  mvcgen [hid, hinit]
  exact reads_node (by decide) (by simp [*])

theorem lexicalBinding_spec (kind : String) (inHead : Bool) :
    Makes ["VariableDeclarator"] (lexicalBinding g c kind inHead) := by
  have hid := hg.binding c false
  have hinit := initialValue_spec hg c
  unfold lexicalBinding
  mvcgen [hid, hinit] <;> exact reads_node (by decide) (by simp [*])

theorem bindingList_spec (kind : String) (inHead : Bool) : Gives (bindingList g c kind inHead)
    fun ds => ∀ d ∈ ds, (one ["VariableDeclarator"]).Reads d := by
  have hlist := @gather_spec (one ["VariableDeclarator"]).Reads
  unfold bindingList
  extract_lets item
  have hitem : Makes ["VariableDeclarator"] item := by
    unfold item
    split
    · exact variableBinding_spec hg c inHead
    · exact lexicalBinding_spec hg c kind inHead
  clear_value item
  mvcgen [hitem, hlist]
  · exact Gathers.more ‹_› ‹_›
  · exact Gathers.done ‹_›
  · exact fun _ h => List.forall_mem_singleton.mpr h

theorem variableStatement_spec :
    ⦃fun r => ⌜∃ w ∈ declarationWords, r.next.token = .keyword w⌝⦄ variableStatement g c
    ⦃⇓? t => ⌜(one ["VariableDeclaration"]).Reads t⌝⦄ := by
  have hword := anyWord_spec declarationWords
  have hlist := fun kind => bindingList_spec hg c kind false
  unfold variableStatement
  mvcgen [hword, hlist]
  exact reads_variableDeclaration (by decide) ‹_› ‹_›

/-! ### Loops -/

def HeadReads : LoopHead → Prop
  | .counting init test update =>
    (maybe (expressionKinds ++ ["VariableDeclaration"])).Reads init ∧
      (maybe expressionKinds).Reads test ∧ (maybe expressionKinds).Reads update
  | .inKeys left right | .ofItems left right =>
    (one (targetKinds ++ ["VariableDeclaration"])).Reads left ∧ (one expressionKinds).Reads right

def StartReads : Tree ⊕ LoopHead → Prop :=
  Sum.elim (maybe (expressionKinds ++ ["VariableDeclaration"])).Reads HeadReads

omit hg in
theorem StartReads.part {kinds : List String} {t : Tree} (h : (one kinds).Reads t)
    (hk : kinds ⊆ expressionKinds ++ ["VariableDeclaration"]) : StartReads (.inl t) :=
  Reads.orNull (Reads.widen h hk)

theorem declarationHead_spec {kind : String} (hkind : kind ∈ declarationWords) :
    Gives (declarationHead g c kind) StartReads := by
  have hlist := fun c => triple_mono (bindingList_spec hg c kind true) fun ds =>
    @reads_variableDeclaration ["VariableDeclaration"] (by decide) kind hkind ds
  have hexpression := expression_spec hg c
  have hassignment := hg.assignment c
  unfold declarationHead
  mvcgen [hlist, hexpression, hassignment] <;> subst_vars
  · exact ⟨Reads.widen ‹_› (by decide), ‹_›⟩
  · exact ⟨Reads.widen ‹_› (by decide), ‹_›⟩
  · exact StartReads.part ‹_› (by decide)
  · exact StartReads.part ‹_› (by decide)
  · exact StartReads.part ‹_› (by decide)
  · exact StartReads.part ‹_› (by decide)

theorem expressionHead_spec : Gives (expressionHead g c) StartReads := by
  have hfirst := fun c => shared_spec (hg.assignment c)
  have hexpression := expression_spec hg c
  have hassignment := hg.assignment c
  have hnext := isolated_spec (hg.assignment c)
  have hparts := @gather_spec (one expressionKinds).Reads
  unfold expressionHead
  mvcgen [hfirst, hexpression, hassignment, hnext, hparts] <;> subst_vars
  · exact ⟨reads_recast ‹(one _).Reads _› (by decide), ‹_›⟩
  · exact ⟨reads_recast ‹_› (by decide), ‹_›⟩
  · exact Gathers.more ‹_› ‹_›
  · exact Gathers.done ‹_›
  · exact List.forall_mem_singleton.mpr ‹_›
  · exact StartReads.part (List.forall_mem_singleton.mp ‹∀ t ∈ [_], _›) (by decide)
  · exact Reads.orNull (reads_node (by decide) (by simpa using ‹∀ t ∈ _, _›))

theorem lexicalHead_spec {kind : String} (hkind : kind ∈ declarationWords) :
    Gives (lexicalHead g c kind) StartReads := by
  have hexpression := expression_spec hg c
  have hhead := declarationHead_spec hg c hkind
  unfold lexicalHead
  mvcgen [hexpression, hhead]
  exact ⟨reads_identifier (by decide) _, ‹_›⟩

theorem loopHead_spec : Gives (loopHead g c) HeadReads := by
  have hexpression := triple_mono (expression_spec hg c) fun _ => Reads.orNull
  have hstart := expressionHead_spec hg c
  have hvar := @declarationHead_spec _ hg c "var" (by decide)
  have hconst := @lexicalHead_spec _ hg c "const" (by decide)
  have hlet := @lexicalHead_spec _ hg c "let" (by decide)
  unfold loopHead
  extract_lets finish
  have hfinish : ∀ start, StartReads start →
      Gives (finish start) HeadReads := by
    rintro (init | head) h
    · mvcgen [finish, hexpression]
      · exact ⟨h, reads_null, reads_null⟩
      · exact ⟨h, reads_null, ‹_›⟩
      · exact ⟨h, ‹_›, reads_null⟩
    · mvcgen [finish]
  clear_value finish
  mvcgen [hstart, hvar, hconst, hlet, hfinish]
  · exact reads_null
  · exact fun _ h => h
  · exact fun _ h => h
  · exact fun _ h => h
  · exact fun _ h => h

omit hg in
theorem behindHead_spec {body : Read Tree} (h : Makes statementKinds body) :
    Makes statementKinds (behindHead body) := by
  unfold behindHead
  mvcgen [h]
  exact reads_node (by decide) (by simp)

theorem forStatement_spec : Makes statementKinds (forStatement g c) := by
  have hhead := loopHead_spec hg c
  have hbody := fun c => behindHead_spec (isolated_spec (hg.statement c))
  unfold forStatement
  mvcgen [hhead, hbody] <;> subst_vars
  · obtain ⟨hinit, htest, hupdate⟩ := ‹HeadReads _›
    exact reads_node (by decide) (by simp [*])
  · obtain ⟨hleft, hright⟩ := ‹HeadReads _›
    exact reads_node (by decide) (by simp [*])
  · obtain ⟨hleft, hright⟩ := ‹HeadReads _›
    exact reads_node (by decide) (by simp [*])

/-! ### Other statements -/

omit hg in
theorem inParentheses_spec {p : Read Tree} {P : Tree → Prop} (h : Gives p P) :
    Gives (inParentheses p) P := by
  unfold inParentheses
  mvcgen [h]

theorem block_spec : Makes ["BlockStatement"] (block g c) := by
  have hitems := itemsUntil_spec (hg.item c)
  unfold block
  mvcgen [hitems]
  exact reads_node (by decide) (by simpa using ‹∀ t ∈ _, _›)

theorem ifStatement_spec : Makes statementKinds (ifStatement g c) := by
  have htest := expression_spec hg c
  have hconsequent := behindHead_spec (hg.statement c)
  have halternate := hg.statement c
  unfold ifStatement
  mvcgen [htest, hconsequent, halternate] <;> exact reads_node (by decide) (by simp [Reads.orNull, *])

theorem whileStatement_spec : Makes statementKinds (whileStatement g c) := by
  have htest := expression_spec hg c
  have hbody := fun c => behindHead_spec (hg.statement c)
  unfold whileStatement
  mvcgen [htest, hbody]
  exact reads_node (by decide) (by simp [*])

theorem doWhileStatement_spec : Makes statementKinds (doWhileStatement g c) := by
  have htest := expression_spec hg c
  have hbody := hg.statement
  unfold doWhileStatement
  mvcgen [htest, hbody] <;> exact reads_node (by decide) (by simp [*])

omit hg in
theorem jumpStatement_spec : Makes statementKinds (jumpStatement c) := by
  have hlabel := triple_mono (bindingName_spec false) fun _ => Reads.orNull
  unfold jumpStatement
  mvcgen [hlabel] <;> exact reads_node (by decide) (by simp [*])

theorem returnStatement_spec : Makes statementKinds (returnStatement g c) := by
  have hargument := triple_mono (expression_spec hg c) fun _ => Reads.orNull
  unfold returnStatement
  mvcgen [hargument] <;> exact reads_node (by decide) (by simp [*])

theorem throwStatement_spec : Makes statementKinds (throwStatement g c) := by
  have hargument := expression_spec hg c
  unfold throwStatement
  mvcgen [hargument]
  exact reads_node (by decide) (by simp [*])

theorem withStatement_spec : Makes statementKinds (withStatement g c) := by
  have hobject := expression_spec hg c
  have hbody := behindHead_spec (hg.statement c)
  unfold withStatement
  mvcgen [hobject, hbody]
  exact reads_node (by decide) (by simp [*])

theorem switchCase_spec : Makes ["SwitchCase"] (switchCase g c) := by
  have htest := triple_mono (expression_spec hg c) fun _ => Reads.orNull
  have hitem := hg.item c
  have hitems := @gather_spec (one itemKinds).Reads
  unfold switchCase
  extract_lets finish
  have hfinish : ∀ test, (maybe expressionKinds).Reads test →
      Makes ["SwitchCase"] (finish test) := by
    intro test h
    mvcgen [finish, hitem, hitems]
    · exact Gathers.done ‹_›
    · exact Gathers.more ‹_› ‹_›
    · simp
    · exact reads_node (by decide) (by simpa [h] using ‹∀ t ∈ _, _›)
  clear_value finish
  mvcgen [htest, hfinish]
  · exact reads_null
  · exact fun _ h => h

theorem switchStatement_spec : Makes statementKinds (switchStatement g c) := by
  have hdiscriminant := inParentheses_spec (expression_spec hg c)
  have hcases := fun c => itemsUntil_spec (switchCase_spec hg c)
  unfold switchStatement
  mvcgen [hdiscriminant, hcases]
  exact reads_node (by decide) (by simpa [*] using ‹∀ t ∈ _, _›)

theorem tryStatement_spec : Makes statementKinds (tryStatement g c) := by
  have hblock := block_spec hg c
  have hparam := inParentheses_spec (hg.binding c false)
  unfold tryStatement
  have hcatch : ∀ {param body : Tree}, (one bindingKinds).Reads param →
      (one ["BlockStatement"]).Reads body →
      (maybe ["CatchClause"]).Reads (Form.catchClause param body) :=
    fun hparam hbody => Reads.orNull (reads_node (by decide) (by simp [hparam, hbody]))
  mvcgen [hblock, hparam] <;> exact reads_node (by decide) (by simp [Reads.orNull, *])

theorem expressionStatement_spec : Makes statementKinds (expressionStatement g c) := by
  have hexpression := expression_spec hg c
  unfold expressionStatement
  mvcgen [hexpression]
  exact reads_node (by decide) (by simp [*])

theorem labeledStatement_spec : Makes statementKinds (labeledStatement g c) := by
  have hexpression := expression_spec hg c
  have hfunction := fun c =>
    widen_spec statementKinds (functionDeclaration_spec hg c false) (by decide)
  have hbody := hg.statement
  unfold labeledStatement
  have hlabel : ∀ {e : Tree} {b : Bool}, (one expressionKinds).Reads e →
      (e.isKind "Identifier" && b) = true → (one ["Identifier"]).Reads e :=
    fun he h => Reads.narrow he (Bool.and_eq_true_iff.mp h).1
  mvcgen [hexpression, hfunction, hbody]
  · exact reads_node (by decide) (by simp [hlabel ‹_› ‹_›, *])
  · exact reads_node (by decide) (by simp [hlabel ‹_› ‹_›, *])
  · exact reads_node (by decide) (by simp [*])

theorem statement_spec : Makes statementKinds (statement g c) := by
  have htoken := token_spec
  have hblock := widen_spec statementKinds (block_spec hg c) (by decide)
  have hfunction := widen_spec statementKinds (functionDeclaration_spec hg c false) (by decide)
  have hlabeled := labeledStatement_spec hg c
  have hjump := jumpStatement_spec c
  have hdo := doWhileStatement_spec hg c
  have hfor := forStatement_spec hg c
  have hif := ifStatement_spec hg c
  have hreturn := returnStatement_spec hg c
  have hswitch := switchStatement_spec hg c
  have hthrow := throwStatement_spec hg c
  have htry := tryStatement_spec hg c
  have hvar := variableStatement_spec hg c
  have hwhile := whileStatement_spec hg c
  have hwith := withStatement_spec hg c
  have hexpression := expressionStatement_spec hg c
  unfold statement
  mvcgen [htoken, hblock, hfunction, hlabeled, hjump, hdo, hfor, hif, hreturn, hswitch, hthrow,
    htry, hvar, hwhile, hwith, hexpression]
  · exact reads_node (by decide) (by simp)
  · exact reads_node (by decide) (by simp)
  · exact ⟨"var", by decide, ‹_›⟩
  · exact fun _ h => Reads.widen h (by decide)

end Legible.Script
