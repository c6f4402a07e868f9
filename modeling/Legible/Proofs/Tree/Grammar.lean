import Legible.Proofs.Pattern.Build
import Legible.Proofs.Tree.Alike

namespace Legible

/-! ### Kinds -/

def expressionKinds : List String :=
  ["ArrayExpression", "ArrowFunctionExpression", "AssignmentExpression", "AwaitExpression",
   "BinaryExpression", "CallExpression", "ClassExpression", "ConditionalExpression",
   "FunctionExpression", "Identifier", "Import", "Literal", "LogicalExpression", "MemberExpression",
   "MetaProperty", "NewExpression", "ObjectExpression", "SequenceExpression", "Super",
   "TaggedTemplateExpression", "TemplateLiteral", "ThisExpression", "UnaryExpression",
   "UpdateExpression", "YieldExpression"]

def statementKinds : List String :=
  ["BlockStatement", "BreakStatement", "ContinueStatement", "DebuggerStatement", "DoWhileStatement",
   "EmptyStatement", "ExpressionStatement", "ForInStatement", "ForOfStatement", "ForStatement",
   "IfStatement", "LabeledStatement", "ReturnStatement", "SwitchStatement", "ThrowStatement",
   "TryStatement", "WhileStatement", "WithStatement"] ++ declarationKinds

def itemKinds : List String :=
  statementKinds ++
    ["ExportAllDeclaration", "ExportDefaultDeclaration", "ExportNamedDeclaration",
     "ImportDeclaration"]

def bindingKinds : List String :=
  ["Identifier", "ArrayPattern", "ObjectPattern"]

def targetKinds : List String :=
  expressionKinds ++ ["ArrayPattern", "ObjectPattern", "AssignmentPattern"]

def parameterKinds : List String :=
  targetKinds ++ ["RestElement"]

/-! ### Fields -/

structure Contents where
  kinds : List String
  optional : Bool
  list : Bool
deriving DecidableEq

namespace Contents

def one (kinds : List String) : Contents := ⟨kinds, false, false⟩
def maybe (kinds : List String) : Contents := ⟨kinds, true, false⟩
def many (kinds : List String) : Contents := ⟨kinds, false, true⟩
def sparse (kinds : List String) : Contents := ⟨kinds, true, true⟩

def item (c : Contents) : Contents := { c with list := false }

def takes (c : Contents) (t : Tree) : Bool :=
  (c.optional && t.isNull) || t.kind?.any c.kinds.contains

def admits (c : Contents) : Tree → Bool
  | .list ts => c.list && ts.all c.takes
  | t => !c.list && c.takes t

end Contents

open Contents in
def grammarTable : List (String × List (String × Contents)) :=
  [("ArrayExpression", [("elements", sparse (expressionKinds ++ ["SpreadElement"]))]),
   ("ArrayPattern", [("elements", sparse parameterKinds)]),
   ("ArrowFunctionExpression",
     [("params", many parameterKinds), ("body", one (expressionKinds ++ ["BlockStatement"]))]),
   ("AssignmentExpression", [("left", one targetKinds), ("right", one expressionKinds)]),
   ("AssignmentPattern", [("left", one targetKinds), ("right", one expressionKinds)]),
   ("AwaitExpression", [("argument", one expressionKinds)]),
   ("BinaryExpression", [("left", one expressionKinds), ("right", one expressionKinds)]),
   ("BlockStatement", [("body", many itemKinds)]),
   ("BreakStatement", [("label", maybe ["Identifier"])]),
   ("CallExpression",
     [("callee", one expressionKinds), ("arguments", many (expressionKinds ++ ["SpreadElement"]))]),
   ("CatchClause", [("param", one bindingKinds), ("body", one ["BlockStatement"])]),
   ("ClassBody", [("body", many ["MethodDefinition"])]),
   ("ClassDeclaration",
     [("id", maybe ["Identifier"]), ("superClass", maybe expressionKinds),
      ("body", one ["ClassBody"])]),
   ("ClassExpression",
     [("id", maybe ["Identifier"]), ("superClass", maybe expressionKinds),
      ("body", one ["ClassBody"])]),
   ("ConditionalExpression",
     [("test", one expressionKinds), ("consequent", one expressionKinds),
      ("alternate", one expressionKinds)]),
   ("ContinueStatement", [("label", maybe ["Identifier"])]),
   ("DebuggerStatement", []),
   ("DoWhileStatement", [("body", one statementKinds), ("test", one expressionKinds)]),
   ("EmptyStatement", []),
   ("ExportAllDeclaration", [("source", one ["Literal"])]),
   ("ExportDefaultDeclaration",
     [("declaration", one (expressionKinds ++ ["FunctionDeclaration", "ClassDeclaration"]))]),
   ("ExportNamedDeclaration",
     [("declaration", maybe declarationKinds), ("specifiers", many ["ExportSpecifier"]),
      ("source", maybe ["Literal"])]),
   ("ExportSpecifier", [("local", one ["Identifier"]), ("exported", one ["Identifier"])]),
   ("ExpressionStatement", [("expression", one expressionKinds)]),
   ("ForInStatement",
     [("left", one (targetKinds ++ ["VariableDeclaration"])), ("right", one expressionKinds),
      ("body", one statementKinds)]),
   ("ForOfStatement",
     [("left", one (targetKinds ++ ["VariableDeclaration"])), ("right", one expressionKinds),
      ("body", one statementKinds)]),
   ("ForStatement",
     [("init", maybe (expressionKinds ++ ["VariableDeclaration"])), ("test", maybe expressionKinds),
      ("update", maybe expressionKinds), ("body", one statementKinds)]),
   ("FunctionDeclaration",
     [("id", maybe ["Identifier"]), ("params", many parameterKinds),
      ("body", one ["BlockStatement"])]),
   ("FunctionExpression",
     [("id", maybe ["Identifier"]), ("params", many parameterKinds),
      ("body", one ["BlockStatement"])]),
   ("Identifier", []),
   ("IfStatement",
     [("test", one expressionKinds), ("consequent", one statementKinds),
      ("alternate", maybe statementKinds)]),
   ("Import", []),
   ("ImportDeclaration",
     [("specifiers",
       many ["ImportDefaultSpecifier", "ImportNamespaceSpecifier", "ImportSpecifier"]),
      ("source", one ["Literal"])]),
   ("ImportDefaultSpecifier", [("local", one ["Identifier"])]),
   ("ImportNamespaceSpecifier", [("local", one ["Identifier"])]),
   ("ImportSpecifier", [("imported", one ["Identifier"]), ("local", one ["Identifier"])]),
   ("LabeledStatement", [("label", one ["Identifier"]), ("body", one statementKinds)]),
   ("Literal", []),
   ("LogicalExpression", [("left", one expressionKinds), ("right", one expressionKinds)]),
   ("MemberExpression", [("object", one expressionKinds), ("property", one expressionKinds)]),
   ("MetaProperty", [("meta", one ["Identifier"]), ("property", one ["Identifier"])]),
   ("MethodDefinition", [("key", one expressionKinds), ("value", one ["FunctionExpression"])]),
   ("NewExpression",
     [("callee", one expressionKinds), ("arguments", many (expressionKinds ++ ["SpreadElement"]))]),
   ("ObjectExpression", [("properties", many ["Property", "SpreadElement"])]),
   ("ObjectPattern", [("properties", many ["Property", "RestElement"])]),
   ("Program", [("body", many itemKinds)]),
   ("Property", [("key", one expressionKinds), ("value", one targetKinds)]),
   ("RestElement", [("argument", one targetKinds)]),
   ("ReturnStatement", [("argument", maybe expressionKinds)]),
   ("SequenceExpression", [("expressions", many expressionKinds)]),
   ("SpreadElement", [("argument", one expressionKinds)]),
   ("Super", []),
   ("SwitchCase", [("test", maybe expressionKinds), ("consequent", many itemKinds)]),
   ("SwitchStatement", [("discriminant", one expressionKinds), ("cases", many ["SwitchCase"])]),
   ("TaggedTemplateExpression", [("tag", one expressionKinds), ("quasi", one ["TemplateLiteral"])]),
   ("TemplateElement", []),
   ("TemplateLiteral",
     [("quasis", many ["TemplateElement"]), ("expressions", many expressionKinds)]),
   ("ThisExpression", []),
   ("ThrowStatement", [("argument", one expressionKinds)]),
   ("TryStatement",
     [("block", one ["BlockStatement"]), ("handler", maybe ["CatchClause"]),
      ("finalizer", maybe ["BlockStatement"])]),
   ("UnaryExpression", [("argument", one expressionKinds)]),
   ("UpdateExpression", [("argument", one expressionKinds)]),
   ("VariableDeclaration", [("declarations", many ["VariableDeclarator"])]),
   ("VariableDeclarator", [("id", one bindingKinds), ("init", maybe expressionKinds)]),
   ("WhileStatement", [("test", one expressionKinds), ("body", one statementKinds)]),
   ("WithStatement", [("object", one expressionKinds), ("body", one statementKinds)]),
   ("YieldExpression", [("argument", maybe expressionKinds)])]

theorem childTable_eq : childTable = grammarTable.map fun e => (e.1, e.2.map (·.1)) := by
  decide

def slots? (kind : String) : Option (List (String × Contents)) :=
  grammarTable.lookup kind

theorem mem_grammarTable {kind : String} {slots : List (String × Contents)}
    (h : slots? kind = some slots) : (kind, slots) ∈ grammarTable :=
  mem_of_lookup_eq h

theorem slots_spec : ∀ e ∈ grammarTable, ∀ s ∈ e.2, e.2.lookup s.1 = some s.2 ∧
    isIgnored s.1 = false ∧ s.1 ≠ "name" ∧ s.1 ≠ "kind" ∧ "Program" ∉ s.2.kinds := by
  decide

theorem ne_name_of_mem_slots {kind : String} {slots : List (String × Contents)}
    (h : slots? kind = some slots) {e : String × Contents} (he : e ∈ slots) : e.1 ≠ "name" :=
  (slots_spec _ (mem_grammarTable h) e he).2.2.1

theorem lookup_of_mem_slots {kind : String} {slots : List (String × Contents)}
    (h : slots? kind = some slots) {e : String × Contents} (he : e ∈ slots) :
    slots.lookup e.1 = some e.2 :=
  (slots_spec _ (mem_grammarTable h) e he).1

theorem lookup_childTable (kind : String) :
    childTable.lookup kind = (slots? kind).map (·.map (·.1)) := by
  rw [childTable_eq, slots?]
  induction grammarTable with
  | nil => rfl
  | cons e es ih =>
    rw [List.map_cons, List.lookup_cons, List.lookup_cons, ih]
    cases kind == e.1 <;> rfl

def declarationWords : List String := ["var", "let", "const"]

namespace Tree

def worded (t : Tree) : Bool :=
  !t.isKind "VariableDeclaration" || (t.get "kind").text?.any declarationWords.contains

def conforms (t : Tree) : Bool :=
  match t.kind?.bind slots? with
  | some slots => t.worded && slots.all fun e => e.2.admits (t.get e.1)
  | none => false

def declaresSeveral (t : Tree) : Bool :=
  t.isKind "VariableDeclaration" && decide (2 ≤ (t.get "declarations").items.length)

def exportsSeveral (t : Tree) : Bool :=
  t.isKind "ExportNamedDeclaration" && (t.get "declaration").declaresSeveral

/-- All nodes conform, and unless `several` is set, no export declares several variables. -/
def formed (several : Bool) (t : Tree) : Bool :=
  t.nodes.all fun c => c.conforms && (several || !c.exportsSeveral)

def grammatical (t : Tree) : Bool :=
  t.isKind "Program" && t.distinct && t.formed true

/-! ### Nodes -/

theorem filterMap_visits (p : Option Tree) (t : Tree) :
    (t.visits p).filterMap (fun v => if v.phase = .enter then some v.node else none) = t.nodes := by
  cases t with
  | scalar a => rfl
  | list ts => rfl
  | object tag fs => simp [nodes, traverse, visits]

theorem nodes_object (tag : Nat) (fs : Fields) :
    (object tag fs).nodes = object tag fs :: (object tag fs).children.flatMap nodes := by
  rw [nodes, traverse, visits, children, List.flatMap_assoc]
  simp only [fieldVisits_eq tag fs, List.cons_append, List.filterMap_cons, List.filterMap_append,
    List.filterMap_flatMap, filterMap_visits]
  simp [childKeys, Tree.fields]

theorem formed_object {tag : Nat} {fs : Fields} {several : Bool} :
    (object tag fs).formed several = true ↔ (object tag fs).conforms = true ∧
      (several = true ∨ (object tag fs).exportsSeveral = false) ∧
        ∀ c ∈ (object tag fs).children, c.formed several = true := by
  simp only [formed, nodes_object, List.all_cons, List.all_flatMap, Bool.and_eq_true,
    Bool.or_eq_true, Bool.not_eq_true', and_assoc, List.all_eq_true]

end Tree

/-! ### What fields hold -/

namespace Contents

def holds (several : Bool) (c : Contents) (t : Tree) : Prop :=
  c.admits t = true ∧ ∀ x ∈ t.heldNodes, x.formed several = true

variable {several : Bool} {c : Contents} {t : Tree}

theorem takes_iff : c.takes t = true ↔
    (c.optional = true ∧ t = .null) ∨ ∃ kind ∈ c.kinds, t.kind? = some kind := by
  have hnull : t.isNull = true ↔ t = .null := ⟨Tree.eq_null_of_isNull, fun h => by rw [h]; rfl⟩
  rw [takes, Bool.or_eq_true, Bool.and_eq_true, hnull, Option.any_eq_true]
  refine or_congr_right ⟨?_, ?_⟩
  · rintro ⟨kind, hk, hm⟩
    exact ⟨kind, List.contains_iff_mem.mp hm, hk⟩
  · rintro ⟨kind, hm, hk⟩
    exact ⟨kind, hk, List.contains_iff_mem.mpr hm⟩

theorem holds_iff (hc : c.list = false) : c.holds several t ↔
    c.takes t = true ∧ (t.isNode = true → t.formed several = true) := by
  cases t with
  | scalar a => simp [holds, admits, hc, Tree.heldNodes, Tree.isNode, Tree.field?, Tree.fields]
  | list ts =>
    simp [holds, admits, hc, takes, Tree.isNull, Tree.kind?, Tree.get, Tree.field?, Tree.fields,
      Tree.text?]
  | object tag fs =>
    simp only [holds, admits, hc, Tree.heldNodes]
    split <;> simp_all

theorem holds_list {ts : List Tree} :
    c.holds several (.list ts) ↔ c.list = true ∧ ∀ t ∈ ts, c.item.holds several t := by
  have hitem : ∀ t, c.item.holds several t ↔
      c.takes t = true ∧ (t.isNode = true → t.formed several = true) := fun t => holds_iff rfl
  simp only [hitem, forall₂_and]
  simp only [holds, admits, Bool.and_eq_true, List.all_eq_true, Tree.mem_heldNodes_of_list, and_imp,
    and_assoc]

theorem holds_null : c.holds several .null ↔ c.list = false ∧ c.optional = true := by
  simp [holds, admits, takes, Tree.isNull, Tree.heldNodes, Tree.kind?, Tree.get, Tree.field?,
    Tree.fields, Tree.text?]

theorem holds_node {kind : String} (hc : c.list = false) (hk : t.kind? = some kind) :
    c.holds several t ↔ kind ∈ c.kinds ∧ t.formed several = true := by
  have hnull : t ≠ .null := by
    rintro rfl
    cases hk
  simp only [holds_iff hc, takes_iff, hnull, and_false, false_or, hk, Option.some.injEq,
    exists_eq_right', Pattern.isNode_of_kind? hk, true_implies]

theorem cases_of_holds (hc : c.list = false) (h : c.holds several t) :
    (t = .null ∧ c.optional = true) ∨
      ∃ kind ∈ c.kinds, t.kind? = some kind ∧ t.formed several = true := by
  obtain ⟨htakes, hformed⟩ := (holds_iff hc).mp h
  rcases takes_iff.mp htakes with ⟨ho, rfl⟩ | ⟨kind, hm, hk⟩
  · exact Or.inl ⟨rfl, ho⟩
  · exact Or.inr ⟨kind, hm, hk, hformed (Pattern.isNode_of_kind? hk)⟩

theorem exists_list_of_holds (hc : c.list = true) (h : c.holds several t) : ∃ ts, t = .list ts := by
  cases t with
  | list ts => exact ⟨ts, rfl⟩
  | scalar a => simp [holds, admits, hc] at h
  | object tag fs => simp [holds, admits, hc] at h

end Contents

namespace Tree

variable {several : Bool} {t : Tree} {kind : String} {slots : List (String × Contents)}

theorem mem_children_of_slots (hk : t.kind? = some kind) (hs : slots? kind = some slots) {c : Tree} :
    c ∈ t.children ↔ ∃ e ∈ slots, c ∈ t.childrenAt e.1 := by
  have hkeys : t.childKeys = slots.map (·.1) := by
    refine childKeys_of_kind? hk ?_
    rw [lookup_childTable, hs, Option.map_some]
  rw [mem_children, hkeys]
  simp

theorem formed_iff (hk : t.kind? = some kind) (hs : slots? kind = some slots) :
    t.formed several = true ↔ t.worded = true ∧ (several = true ∨ t.exportsSeveral = false) ∧
      ∀ e ∈ slots, e.2.holds several (t.get e.1) := by
  obtain ⟨tag, fs, rfl⟩ := eq_object_of_isNode (Pattern.isNode_of_kind? hk)
  have hchildren : (∀ c ∈ (object tag fs).children, c.formed several = true) ↔
      ∀ e ∈ slots, ∀ c ∈ (object tag fs).childrenAt e.1, c.formed several = true := by
    simp only [mem_children_of_slots hk hs]
    exact ⟨fun h e he c hc => h c ⟨e, he, hc⟩, fun h c ⟨e, he, hc⟩ => h e he c hc⟩
  rw [formed_object, hchildren, conforms, hk, Option.bind_some, hs]
  simp only [Bool.and_eq_true, List.all_eq_true, Contents.holds, childrenAt, forall₂_and]
  tauto

theorem not_formed {tag : Nat} {fs : Fields} (h : (object tag fs).kind?.bind slots? = none) :
    ¬ (object tag fs).formed several = true := by
  rw [formed_object, conforms, h]
  exact fun h => Bool.false_ne_true h.1

theorem exists_slots (hn : t.isNode = true) (h : t.formed several = true) :
    ∃ kind slots, t.kind? = some kind ∧ slots? kind = some slots := by
  obtain ⟨tag, fs, rfl⟩ := eq_object_of_isNode hn
  cases hslots : (object tag fs).kind?.bind slots? with
  | none => exact absurd h (not_formed hslots)
  | some slots =>
    obtain ⟨kind, hk, hs⟩ := Option.bind_eq_some_iff.mp hslots
    exact ⟨kind, slots, hk, hs⟩

theorem formed_congr {t u : Tree} (ht : t.isNode = true) (hu : u.isNode = true)
    (hk : u.kind? = t.kind?) (hw : u.worded = t.worded) (he : u.exportsSeveral = t.exportsSeveral)
    (h : ∀ slots, t.kind?.bind slots? = some slots → ∀ e ∈ slots,
      (e.2.holds several (u.get e.1) ↔ e.2.holds several (t.get e.1))) :
    u.formed several = true ↔ t.formed several = true := by
  cases hslots : t.kind?.bind slots? with
  | none =>
    obtain ⟨_, _, rfl⟩ := eq_object_of_isNode ht
    obtain ⟨_, _, rfl⟩ := eq_object_of_isNode hu
    exact iff_of_false (not_formed (hk ▸ hslots)) (not_formed hslots)
  | some slots =>
    obtain ⟨kind, hk', hs⟩ := Option.bind_eq_some_iff.mp hslots
    rw [formed_iff hk' hs, formed_iff (hk.trans hk') hs, hw, he]
    exact and_congr_right fun _ => and_congr_right fun _ => forall₂_congr (h slots hslots)

theorem get_set_name (t : Tree) (name : String) {key : String} (h : key ≠ "name") :
    (t.set "name" (.text name)).get key = t.get key :=
  get_set_of_ne h t _

theorem kind?_set_name (t : Tree) (name : String) : (t.set "name" (.text name)).kind? = t.kind? := by
  rw [kind?, get_set_name t name (by decide), kind?]

theorem formed_set_name (ht : t.isNode = true) (name : String) :
    (t.set "name" (.text name)).formed several = true ↔ t.formed several = true := by
  refine formed_congr ht (isNode_set ht _ _) (kind?_set_name t name) ?_ ?_ fun slots hslots e he => ?_
  · rw [worded, isKind, kind?_set_name, get_set_name t name (by decide), worded, isKind]
  · rw [exportsSeveral, isKind, kind?_set_name, get_set_name t name (by decide), exportsSeveral, isKind]
  · obtain ⟨kind, -, hs⟩ := Option.bind_eq_some_iff.mp hslots
    rw [get_set_name t name (ne_name_of_mem_slots hs he)]

theorem holds_set_name (c : Contents) (t : Tree) (name : String) :
    c.holds several (t.set "name" (.text name)) ↔ c.holds several t := by
  have htakes : c.takes (t.set "name" (.text name)) = c.takes t := by
    have hnull : (t.set "name" (.text name)).isNull = t.isNull := by cases t <;> rfl
    rw [Contents.takes, hnull, kind?_set_name, Contents.takes]
  cases t with
  | scalar a => rfl
  | list ts => rfl
  | object tag fs =>
    refine and_congr (iff_of_eq (congrArg (fun b => (!c.list && b) = true) htakes)) ?_
    cases hn : (object tag fs).isNode with
    | true =>
      rw [heldNodes_of_isNode hn, heldNodes_of_isNode (isNode_set hn _ _), List.forall_mem_singleton,
        List.forall_mem_singleton, formed_set_name hn]
    | false =>
      have hn' : ((object tag fs).set "name" (.text name)).isNode = false := by
        rw [isNode, field?_set_of_ne (by decide)]
        exact hn
      rw [heldNodes_of_not_holdsNode (c := object tag fs) hn,
        heldNodes_of_not_holdsNode (c := (object tag fs).set "name" (.text name)) hn']

/-! ### Trees of one shape -/

theorem forall_mem_iff_of_forall₂ {α β : Type} {R : α → β → Prop} {P : α → Prop} {Q : β → Prop}
    {as : List α} {bs : List β} (h : List.Forall₂ R as bs)
    (hPQ : ∀ a ∈ as, ∀ {b}, R a b → (Q b ↔ P a)) : (∀ b ∈ bs, Q b) ↔ ∀ a ∈ as, P a := by
  induction h with
  | nil => simp
  | cons h _ ih =>
    rw [List.forall_mem_cons] at hPQ
    rw [List.forall_mem_cons, List.forall_mem_cons, hPQ.1 h, ih hPQ.2]

section

variable {L : Tree → Tree → Prop} (hL : Likeness L) {u : Tree}

include hL

theorem Likeness.length_items (h : L t u) : u.items.length = t.items.length := by
  cases t with
  | scalar a => rw [hL.scalar h]
  | list ts =>
    obtain ⟨us, rfl, hs⟩ := hL.list h
    exact hs.length_eq.symm
  | object tag fs =>
    obtain ⟨tag', fs', rfl⟩ := hL.object h
    rfl

theorem Likeness.takes (c : Contents) (h : L t u) : c.takes u = c.takes t := by
  rw [Contents.takes, Contents.takes, hL.isNull h, hL.kind? h]

theorem Likeness.admits (c : Contents) (h : L t u) : c.admits u = c.admits t := by
  cases t with
  | scalar a => rw [hL.scalar h]
  | list ts =>
    obtain ⟨us, rfl, hs⟩ := hL.list h
    have hall : us.all c.takes = ts.all c.takes := by
      clear h
      induction hs with
      | nil => rfl
      | cons h _ ih => rw [List.all_cons, List.all_cons, hL.takes c h, ih]
    rw [Contents.admits, Contents.admits, hall]
  | object tag fs =>
    have htakes := hL.takes c h
    obtain ⟨tag', fs', rfl⟩ := hL.object h
    exact congrArg (!c.list && ·) htakes

theorem Likeness.worded (h : L t u) : u.worded = t.worded := by
  rw [Tree.worded, isKind, hL.kind? h, hL.text? (hL.get h (by decide)), Tree.worded, isKind]

theorem Likeness.declaresSeveral (h : L t u) : u.declaresSeveral = t.declaresSeveral := by
  rw [Tree.declaresSeveral, isKind, hL.kind? h, hL.length_items (hL.get h (by decide)),
    Tree.declaresSeveral, isKind]

theorem Likeness.exportsSeveral (h : L t u) : u.exportsSeveral = t.exportsSeveral := by
  rw [Tree.exportsSeveral, isKind, hL.kind? h, hL.declaresSeveral (hL.get h (by decide)),
    Tree.exportsSeveral, isKind]

theorem Likeness.formed (several : Bool) (h : L t u) :
    u.formed several = true ↔ t.formed several = true := by
  induction t using children_induction generalizing u with
  | node t ih =>
    cases t with
    | scalar a => rw [hL.scalar h]
    | list ts =>
      obtain ⟨us, rfl, -⟩ := hL.list h
      rfl
    | object tag fs =>
      cases hslots : (Tree.object tag fs).kind?.bind slots? with
      | none =>
        have hu : u.kind?.bind slots? = none := by rw [hL.kind? h, hslots]
        obtain ⟨tag', gs, rfl⟩ := hL.object h
        exact iff_of_false (not_formed hu) (not_formed hslots)
      | some slots =>
        obtain ⟨kind, hk, hs⟩ := Option.bind_eq_some_iff.mp hslots
        rw [formed_iff hk hs, formed_iff ((hL.kind? h).trans hk) hs, hL.worded h, hL.exportsSeveral h]
        refine and_congr_right fun _ => and_congr_right fun _ => forall₂_congr fun e he => ?_
        have hget := hL.get h (ne_name_of_mem_slots hs he)
        rw [Contents.holds, Contents.holds, hL.admits e.2 hget]
        refine and_congr_right fun _ => forall_mem_iff_of_forall₂ (hL.heldNodes hget) ?_
        exact fun c hc {_} hcd => ih c ((mem_children_of_slots hk hs).mpr ⟨e, he, hc⟩) hcd

end

end Tree

end Legible
