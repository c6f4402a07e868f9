import Legible.Pattern.Compile
import Legible.Proofs.Results
import Mathlib.Data.List.TakeWhile

namespace Legible

def Numbered (stem name : String) : Prop :=
  ∃ ds : List Char, ds ≠ [] ∧ (∀ c ∈ ds, Text.isDecimal c = true) ∧ name = stem ++ String.ofList ds

def ModifierSuffix (suffix : String) : Prop :=
  suffix = "" ∨ ∃ cs : List Char, cs ≠ [] ∧ (∀ c ∈ cs, Text.isWordChar c = true) ∧
    suffix = String.ofList ('_' :: cs)

inductive Spells : String → Placeholder → String → Prop
  | expression {name suffix : String} (numbered : Numbered "expression" name)
      (modifiers : ModifierSuffix suffix) :
      Spells (name ++ suffix) ⟨name, .expression .any false false, false, false⟩ suffix
  | statement {name suffix : String} (numbered : Numbered "statement" name)
      (modifiers : ModifierSuffix suffix) :
      Spells (name ++ suffix) ⟨name, .statement .any false, false, false⟩ suffix

/-! ### The parts of a name -/

theorem takeWhile_append_eq {α : Type} {p : α → Bool} {ds rest : List α} (hd : ∀ a ∈ ds, p a = true)
    (hrest : ∀ a ∈ rest.head?, p a = false) : (ds ++ rest).takeWhile p = ds := by
  rw [List.takeWhile_append_of_pos hd]
  cases rest with
  | nil => rw [List.takeWhile_nil, List.append_nil]
  | cons a rest =>
    have ha : p a = false := hrest a rfl
    rw [List.takeWhile_cons_of_neg (by simp [ha]), List.append_nil]

theorem splitNumbered_eq_some_iff {stem w name rest : String} :
    splitNumbered stem w = some (name, rest) ↔ Numbered stem name ∧ w = name ++ rest ∧
      ∀ c ∈ rest.toList.head?, Text.isDecimal c = false := by
  constructor
  · intro h
    rw [splitNumbered] at h
    extract_lets tail ds at h
    split at h
    · rename_i hstem
      split at h
      · cases h
      · rename_i hne
        obtain ⟨rfl, rfl⟩ := Prod.mk.inj (Option.some.inj h)
        have hcs : stem.toList ++ tail = w.toList :=
          List.prefix_iff_eq_append.mp (List.isPrefixOf_iff_prefix.mp hstem)
        have htail : ds ++ tail.dropWhile Text.isDecimal = tail := List.takeWhile_append_dropWhile
        have hdrop : tail.drop ds.length = tail.dropWhile Text.isDecimal := by
          rw [← htail, List.drop_left, htail]
        rw [hdrop, String.ofList_append, String.ofList_toList]
        refine ⟨⟨ds, ?_, fun c hc => List.mem_takeWhile_imp hc, rfl⟩, ?_, ?_⟩
        · simpa using hne
        · apply String.toList_inj.mp
          rw [String.toList_append, String.toList_append, String.toList_ofList,
            String.toList_ofList, List.append_assoc, htail, hcs]
        · intro c hc
          have hhead := List.head?_dropWhile_not Text.isDecimal tail
          rw [String.toList_ofList] at hc
          rwa [hc] at hhead
    · cases h
  · rintro ⟨⟨ds, hne, hds, rfl⟩, rfl, hrest⟩
    have hstem : stem.toList.isPrefixOf (stem ++ String.ofList ds ++ rest).toList = true := by
      rw [List.isPrefixOf_iff_prefix, String.toList_append, String.toList_append, List.append_assoc]
      exact List.prefix_append _ _
    have hdrop : (stem ++ String.ofList ds ++ rest).toList.drop stem.length = ds ++ rest.toList := by
      rw [String.toList_append, String.toList_append, String.toList_ofList, List.append_assoc,
        ← String.length_toList, List.drop_left]
    rw [splitNumbered]
    simp only [hstem, hdrop, takeWhile_append_eq hds hrest, if_true, List.drop_left]
    rw [if_neg (by simpa using hne), String.ofList_append, String.ofList_toList,
      String.ofList_toList]

theorem isModifierSuffix_iff {suffix : String} :
    isModifierSuffix suffix = true ↔ ModifierSuffix suffix := by
  rw [isModifierSuffix, ModifierSuffix]
  constructor
  · intro h
    split at h
    · rename_i hnil
      exact Or.inl (String.toList_inj.mp hnil)
    · rename_i c cs hcs
      simp only [Bool.and_eq_true, beq_iff_eq, Bool.not_eq_true', List.isEmpty_eq_false_iff,
        List.all_eq_true] at h
      obtain ⟨⟨rfl, hne⟩, hall⟩ := h
      exact Or.inr ⟨cs, hne, hall, by rw [← hcs, String.ofList_toList]⟩
  · rintro (rfl | ⟨cs, hne, hall, rfl⟩)
    · rfl
    · rw [String.toList_ofList]
      simpa [hne] using hall

theorem ModifierSuffix.head {suffix : String} (h : ModifierSuffix suffix) :
    ∀ c ∈ suffix.toList.head?, Text.isDecimal c = false := by
  rcases h with rfl | ⟨cs, -, -, rfl⟩
  · rintro c ⟨⟩
  · rw [String.toList_ofList]
    rintro c ⟨⟩
    decide

theorem splitNumbered_append {stem name suffix : String} (hn : Numbered stem name)
    (hs : ModifierSuffix suffix) : splitNumbered stem (name ++ suffix) = some (name, suffix) :=
  splitNumbered_eq_some_iff.mpr ⟨hn, rfl, hs.head⟩

theorem splitNumbered_expression {name : String} (h : Numbered "statement" name) (suffix : String) :
    splitNumbered "expression" (name ++ suffix) = none := by
  obtain ⟨ds, -, -, rfl⟩ := h
  simp [splitNumbered]

theorem spelledPlaceholder_eq_some_iff {w suffix : String} {b : Placeholder} :
    spelledPlaceholder w = some (b, suffix) ↔ Spells w b suffix := by
  rw [spelledPlaceholder]
  constructor
  · intro h
    split at h
    · rename_i name rest hsplit
      split at h
      · rename_i hsuffix
        cases h
        obtain ⟨hn, rfl, -⟩ := splitNumbered_eq_some_iff.mp hsplit
        exact .expression hn (isModifierSuffix_iff.mp hsuffix)
      · cases h
    · split at h
      · rename_i name rest hsplit
        split at h
        · rename_i hsuffix
          cases h
          obtain ⟨hn, rfl, -⟩ := splitNumbered_eq_some_iff.mp hsplit
          exact .statement hn (isModifierSuffix_iff.mp hsuffix)
        · cases h
      · cases h
  · rintro (⟨hn, hs⟩ | ⟨hn, hs⟩)
    · rw [splitNumbered_append hn hs]
      exact if_pos (isModifierSuffix_iff.mpr hs)
    · rw [splitNumbered_expression hn, splitNumbered_append hn hs]
      exact if_pos (isModifierSuffix_iff.mpr hs)

theorem isTextPlaceholder_iff {s : String} : isTextPlaceholder s = true ↔
    ∃ name, Numbered "placeholder" name ∧ (s = name ∨ s = name ++ "\n") := by
  rw [isTextPlaceholder]
  constructor
  · intro h
    split at h
    · rename_i name rest hsplit
      obtain ⟨hn, rfl, -⟩ := splitNumbered_eq_some_iff.mp hsplit
      simp only [Bool.or_eq_true, beq_iff_eq] at h
      rcases h with rfl | rfl
      · exact ⟨name, hn, Or.inl (String.append_empty)⟩
      · exact ⟨name, hn, Or.inr rfl⟩
    · cases h
  · rintro ⟨name, hn, rfl | rfl⟩
    · have hsplit : splitNumbered "placeholder" s = some (s, "") :=
        splitNumbered_eq_some_iff.mpr ⟨hn, String.append_empty.symm, nofun⟩
      rw [hsplit]
      rfl
    · have hsplit : splitNumbered "placeholder" (name ++ "\n") = some (name, "\n") :=
        splitNumbered_eq_some_iff.mpr ⟨hn, rfl, by rintro c ⟨⟩; decide⟩
      rw [hsplit]
      rfl

/-! ### Modifiers -/

def expressionModifiers : List String :=
  ["optional", "repeatable", "strict", "identifier", "literal", "orDeclaration"]

def statementModifiers : List String :=
  ["optional", "repeatable", "multiLine", "strict", "declaration", "classDeclaration",
   "functionDeclaration", "variableDeclaration"]

namespace Placeholder

def modifiers (p : Placeholder) : List String :=
  match p.slot with
  | .expression .. => expressionModifiers
  | _ => statementModifiers

def declaring (declarator : Bool) (p : Placeholder) : Placeholder :=
  match p.slot with
  | .expression sort orDeclaration _ =>
    { p with slot := .expression sort orDeclaration declarator }
  | _ => p

def isExpression (p : Placeholder) : Bool :=
  match p.slot with
  | .expression .. => true
  | _ => false

def isStatement (p : Placeholder) : Bool :=
  match p.slot with
  | .statement .. => true
  | _ => false

inductive Variant : Placeholder → Placeholder → Prop
  | expression {name : String} {sort sort' : ExpressionSort}
      {orDeclaration orDeclaration' declarator optional optional' repeatable repeatable' : Bool} :
      Variant ⟨name, .expression sort orDeclaration declarator, optional, repeatable⟩
        ⟨name, .expression sort' orDeclaration' declarator, optional', repeatable'⟩
  | statement {name : String} {sort sort' : StatementSort}
      {multiLine multiLine' optional optional' repeatable repeatable' : Bool} :
      Variant ⟨name, .statement sort multiLine, optional, repeatable⟩
        ⟨name, .statement sort' multiLine', optional', repeatable'⟩

theorem Variant.refl {p : Placeholder} (h : p.slot ≠ .text) : p.Variant p := by
  obtain ⟨name, slot, optional, repeatable⟩ := p
  cases slot with
  | expression sort orDeclaration declarator => exact .expression
  | statement sort multiLine => exact .statement
  | text => exact absurd rfl h

theorem Variant.trans {p q r : Placeholder} (h : p.Variant q) (h' : q.Variant r) :
    p.Variant r := by
  cases h <;> cases h'
  · exact .expression
  · exact .statement

theorem Variant.name {p q : Placeholder} (h : p.Variant q) : q.name = p.name := by
  cases h <;> rfl

theorem Variant.slot_ne_text {p q : Placeholder} (h : p.Variant q) : q.slot ≠ .text := by
  cases h <;> nofun

theorem Variant.modifiers {p q : Placeholder} (h : p.Variant q) : q.modifiers = p.modifiers := by
  cases h <;> rfl

theorem Variant.isExpression {p q : Placeholder} (h : p.Variant q) :
    q.isExpression = p.isExpression := by
  cases h <;> rfl

theorem Variant.isStatement {p q : Placeholder} (h : p.Variant q) :
    q.isStatement = p.isStatement := by
  cases h <;> rfl

theorem Variant.declaring_false {p q : Placeholder} (h : p.Variant q) (hp : p.declaring false = p) :
    q.declaring false = q := by
  cases h with
  | expression =>
    cases hp
    rfl
  | statement => rfl

section

variable (d e : Bool) (p : Placeholder)

@[simp] theorem name_declaring : (p.declaring d).name = p.name := by
  rw [declaring]
  split <;> rfl

@[simp] theorem declaring_declaring : (p.declaring d).declaring e = p.declaring e := by
  obtain ⟨_, slot, _, _⟩ := p
  cases slot <;> rfl

@[simp] theorem isExpression_declaring : (p.declaring d).isExpression = p.isExpression := by
  obtain ⟨_, slot, _, _⟩ := p
  cases slot <;> rfl

@[simp] theorem isStatement_declaring : (p.declaring d).isStatement = p.isStatement := by
  obtain ⟨_, slot, _, _⟩ := p
  cases slot <;> rfl

end

theorem declaring_of_isStatement {p : Placeholder} (h : p.isStatement = true) (d : Bool) :
    p.declaring d = p := by
  obtain ⟨_, slot, _, _⟩ := p
  cases slot <;> first | rfl | cases h

end Placeholder

theorem addModifier_cases {p : Placeholder} (hp : p.slot ≠ .text) (m : String) :
    (m ∈ p.modifiers ∧ ∃ q, addModifier p m = .ok q ∧ p.Variant q) ∨
      (m ∉ p.modifiers ∧ ∃ e, addModifier p m = .error e) := by
  obtain ⟨name, slot, optional, repeatable⟩ := p
  cases slot with
  | expression sort orDeclaration declarator =>
    simp only [addModifier, expressionModifier, Placeholder.modifiers, expressionModifiers]
    split
    case h_7 =>
      refine Or.inr ⟨?_, _, rfl⟩
      simp only [List.mem_cons, List.not_mem_nil, or_false, not_or]
      and_intros <;> assumption
    all_goals exact Or.inl ⟨by decide, _, rfl, .expression⟩
  | statement sort multiLine =>
    simp only [addModifier, statementModifier, Placeholder.modifiers, statementModifiers]
    split
    case h_9 =>
      refine Or.inr ⟨?_, _, rfl⟩
      simp only [List.mem_cons, List.not_mem_nil, or_false, not_or]
      and_intros <;> assumption
    all_goals exact Or.inl ⟨by decide, _, rfl, .statement⟩
  | text => exact absurd rfl hp

theorem foldlM_addModifier_cases {p : Placeholder} (hp : p.slot ≠ .text) (ms : List String) :
    ((∀ m ∈ ms, m ∈ p.modifiers) ∧
      ∃ q, ms.foldlM addModifier p = (.ok q : Except CompileError Placeholder) ∧ p.Variant q) ∨
    (∃ m ∈ ms, m ∉ p.modifiers) ∧
      ∃ e, ms.foldlM addModifier p = (.error e : Except CompileError Placeholder) := by
  induction ms generalizing p with
  | nil =>
    exact Or.inl ⟨by simp, p, rfl, .refl hp⟩
  | cons m ms ih =>
    rw [List.foldlM_cons, List.forall_mem_cons]
    rcases addModifier_cases hp m with ⟨hm, q, hq, hvariant⟩ | ⟨hm, e, he⟩
    · rw [hq, ← hvariant.modifiers]
      rcases ih hvariant.slot_ne_text with ⟨hall, r, hr, hr'⟩ | ⟨⟨n, hn, hbad⟩, he⟩
      · exact Or.inl ⟨⟨hvariant.modifiers.symm ▸ hm, hall⟩, r, hr, hvariant.trans hr'⟩
      · exact Or.inr ⟨⟨n, List.mem_cons_of_mem m hn, hbad⟩, he⟩
    · exact Or.inr ⟨⟨m, List.mem_cons_self, hm⟩, e, by rw [he]; rfl⟩

def Placeholder.Makes (b : Placeholder) (suffix : String) (p : Placeholder) : Prop :=
  (modifiersOf suffix).foldlM (m := Except CompileError) addModifier b = .ok p

theorem Placeholder.Makes.variant {b p : Placeholder} {suffix : String} (h : b.Makes suffix p)
    (hb : b.slot ≠ .text) : b.Variant p := by
  rcases foldlM_addModifier_cases hb (modifiersOf suffix) with ⟨-, q, hq, hvariant⟩ | ⟨-, e, he⟩
  · rwa [← Except.ok.inj (hq.symm.trans h)]
  · cases he.symm.trans h

/-! ### Names of placeholders -/

theorem Spells.slot_ne_text {w suffix : String} {b : Placeholder} (h : Spells w b suffix) :
    b.slot ≠ .text := by
  cases h <;> nofun

theorem Spells.declaring_false {w suffix : String} {b : Placeholder} (h : Spells w b suffix) :
    b.declaring false = b := by
  cases h <;> rfl

theorem Spells.not_isTextPlaceholder {w suffix : String} {b : Placeholder}
    (h : Spells w b suffix) : ¬ isTextPlaceholder b.name = true := by
  rw [isTextPlaceholder_iff]
  rintro ⟨_, ⟨ds, -, -, rfl⟩, he⟩
  have hhead : b.name.toList.head? = some 'p' := by
    rcases he with he | he <;> rw [he] <;> simp
  cases h with
  | expression hn =>
    obtain ⟨es, -, -, rfl⟩ := hn
    simp at hhead
  | statement hn =>
    obtain ⟨es, -, -, rfl⟩ := hn
    simp at hhead

theorem Spells.eq_of_name {w w' s s' : String} {b b' : Placeholder} (h : Spells w b s)
    (h' : Spells w' b' s') (hname : b.name = b'.name) : b = b' := by
  have hstems : ∀ {name : String}, Numbered "expression" name → ¬ Numbered "statement" name := by
    rintro _ ⟨ds, -, -, rfl⟩ ⟨es, -, -, he⟩
    have he := congrArg String.toList he
    rw [String.toList_append, String.toList_append] at he
    cases he
  cases h with
  | expression hn =>
    cases h' with
    | expression hn' =>
      simp only at hname
      rw [hname]
    | statement hn' =>
      simp only at hname
      exact absurd (hname.symm ▸ hn') (hstems hn)
  | statement hn =>
    cases h' with
    | expression hn' =>
      simp only at hname
      exact absurd (hname ▸ hn) (hstems hn')
    | statement hn' =>
      simp only at hname
      rw [hname]

end Legible
