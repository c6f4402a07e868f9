import Legible.Proofs.Semantics.Behaviour
import Legible.Proofs.Tree.Objects
import Legible.Proofs.Tree.Walk

/-!
The meaning of trees, put together from the meaning of their parts. What the operators and statements
of a script do is fixed; the meaning of all other nodes is up to a setting.
-/

namespace Legible

def Scalar.truthy : Scalar → Bool
  | .null => false
  | .bool b => b
  | .number n => !n.same (.ofInt 0)
  | .text s => s != ""
  | .regex _ _ => true

inductive Sense (σ ν : Type) where
  | scalar (value : Scalar)
  | list (items : List (Sense σ ν))
  | expression (action : Action σ ν ν)
  | statement (behaviour : Behaviour σ ν)
  | atom (fields : List (String × Sense σ ν))

namespace Sense

variable {σ ν : Type}

def part (key : String) : Sense σ ν → Sense σ ν
  | .atom fs => (fs.lookup key).getD (.scalar .null)
  | _ => .scalar .null

def items : Sense σ ν → List (Sense σ ν)
  | .list ss => ss
  | _ => []

def text? : Sense σ ν → Option String
  | .scalar (.text s) => some s
  | _ => none

def isNull : Sense σ ν → Bool
  | .scalar .null => true
  | _ => false

end Sense

structure Setting (σ ν : Type) where
  literal : Scalar → ν
  undefined : ν
  truthy : ν → Bool
  truthy_literal : ∀ a, truthy (literal a) = a.truthy
  truthy_undefined : truthy undefined = false
  atom : List (String × Sense σ ν) → Action σ ν ν
  declare : String → Sense σ ν → Option ν → Action σ ν Unit

namespace Setting

variable {σ ν : Type} (M : Setting σ ν)

open Behaviour

def eval : Sense σ ν → Action σ ν ν
  | .expression a => a
  | .atom fs => M.atom fs
  | _ => M.atom []

def exec : Sense σ ν → Behaviour σ ν
  | .scalar _ => skip
  | .statement p => p
  | s => effect (M.eval s)

def test (s : Sense σ ν) : Action σ ν Bool :=
  M.truthy <$> M.eval s

def execAll (ss : List (Sense σ ν)) : Behaviour σ ν :=
  sequence (ss.map M.exec)

def evalAll : List (Sense σ ν) → Action σ ν ν
  | [] => pure M.undefined
  | [s] => M.eval s
  | s :: ss => M.eval s >>= fun _ => evalAll ss

def shortCircuit (stop : Bool) (left right : Sense σ ν) : Action σ ν ν :=
  M.eval left >>= fun v => if M.truthy v = stop then pure v else M.eval right

def choose (test yes no : Sense σ ν) : Action σ ν ν :=
  M.test test >>= fun b => if b then M.eval yes else M.eval no

def return_ (value : Sense σ ν) : Behaviour σ ν :=
  after (if value.isNull then pure M.undefined else M.eval value) returns

def declareOne (kind : String) (declarator : Sense σ ν) : Behaviour σ ν :=
  -- No declarator has a meaning of its own, so its parts can still be read.
  let id := declarator.part "id"
  let init := declarator.part "init"
  effect (if init.isNull then M.declare kind id none
    else M.eval init >>= fun v => M.declare kind id (some v))

def goesOn (test : Sense σ ν) : Action σ ν Bool :=
  if test.isNull then pure true else M.test test

def expression? (kind : String) (part : String → Sense σ ν) : Option (Action σ ν ν) :=
  match kind with
  | "Literal" =>
    match part "value" with
    -- A regular expression is a new object each time, so it is an atom.
    | .scalar (.regex _ _) => none
    | .scalar a => some (pure (M.literal a))
    | _ => none
  | "Identifier" =>
    if (part "name").text? = some "undefined" then some (pure M.undefined) else none
  | "UnaryExpression" =>
    match (part "operator").text? with
    | some "!" => some ((fun b => M.literal (.bool !b)) <$> M.test (part "argument"))
    | some "void" => some ((fun _ => M.undefined) <$> M.eval (part "argument"))
    | _ => none
  | "LogicalExpression" =>
    match (part "operator").text? with
    | some "&&" => some (M.shortCircuit false (part "left") (part "right"))
    | some "||" => some (M.shortCircuit true (part "left") (part "right"))
    | _ => none
  | "ConditionalExpression" =>
    some (M.choose (part "test") (part "consequent") (part "alternate"))
  | "SequenceExpression" => some (M.evalAll (part "expressions").items)
  | _ => none

def statement? (kind : String) (part : String → Sense σ ν) : Option (Behaviour σ ν) :=
  match kind with
  | "ExpressionStatement" => some (effect (M.eval (part "expression")))
  | "ReturnStatement" => some (M.return_ (part "argument"))
  | "VariableDeclaration" =>
    let kind := (part "kind").text?.getD ""
    some (sequence ((part "declarations").items.map (M.declareOne kind)))
  | "IfStatement" =>
    some (branch (M.test (part "test")) (M.exec (part "consequent")) (M.exec (part "alternate")))
  | "Program" | "BlockStatement" => some (M.execAll (part "body").items)
  | "WhileStatement" => some (Loop (M.test (part "test")) (M.exec (part "body")))
  | "DoWhileStatement" =>
    let body := M.exec (part "body")
    some (andThen body (Loop (M.test (part "test")) body))
  | "ForStatement" =>
    let round := andThen (M.exec (part "body")) (M.exec (part "update"))
    some (andThen (M.exec (part "init")) (Loop (M.goesOn (part "test")) round))
  | "EmptyStatement" => some skip
  | _ => none

def meaning? (kind : String) (part : String → Sense σ ν) : Option (Sense σ ν) :=
  match M.expression? kind part with
  | some a => some (.expression a)
  | none => (M.statement? kind part).map .statement

mutual

def read : Tree → Sense σ ν
  | .scalar a => .scalar a
  | .list ts => .list (readItems ts)
  | .object _ fs =>
    let s := Sense.atom (readFields fs)
    ((s.part "type").text?.bind fun kind => M.meaning? kind fun key => s.part key).getD s
termination_by structural t => t

def readItems : List Tree → List (Sense σ ν)
  | [] => []
  | t :: ts => read t :: readItems ts
termination_by structural ts => ts

def readFields : List (String × Tree) → List (String × Sense σ ν)
  | [] => []
  | (k, v) :: fs => (k, read v) :: readFields fs
termination_by structural fs => fs

end

def run (t : Tree) : Behaviour σ ν :=
  M.exec (M.read t)

/-! ### Parts of a tree -/

theorem meaning?_cases {kind : String} {part : String → Sense σ ν} {s : Sense σ ν}
    (h : M.meaning? kind part = some s) : (∃ a, s = .expression a) ∨ ∃ p, s = .statement p := by
  rw [meaning?] at h
  split at h
  · exact Or.inl ⟨_, (Option.some.inj h).symm⟩
  · obtain ⟨p, -, rfl⟩ := Option.map_eq_some_iff.mp h
    exact Or.inr ⟨p, rfl⟩

theorem readItems_eq (ts : List Tree) : M.readItems ts = ts.map M.read := by
  induction ts with
  | nil => rfl
  | cons t ts ih => rw [readItems, ih, List.map_cons]

theorem readFields_eq (fs : Fields) : M.readFields fs = fs.map fun f => (f.1, M.read f.2) := by
  induction fs with
  | nil => rfl
  | cons f fs ih => rw [readFields, ih, List.map_cons]

theorem part_readFields (tag : Nat) (fs : Fields) (key : String) :
    (Sense.atom (M.readFields fs)).part key = M.read ((Tree.object tag fs).get key) := by
  rw [Sense.part, Tree.get_object]
  induction fs with
  | nil => rfl
  | cons f fs ih =>
    obtain ⟨k, v⟩ := f
    rw [readFields, List.lookup_cons, List.lookup_cons]
    cases key == k with
    | true => rfl
    | false => exact ih

theorem cases_of_object (tag : Nat) (fs : Fields) : (∃ a, M.read (.object tag fs) = .expression a) ∨
    (∃ p, M.read (.object tag fs) = .statement p) ∨ ∃ ss, M.read (.object tag fs) = .atom ss := by
  rw [read]
  cases h : ((Sense.atom (M.readFields fs)).part "type").text?.bind fun kind =>
      M.meaning? kind fun key => (Sense.atom (M.readFields fs)).part key with
  | none => exact Or.inr (Or.inr ⟨_, rfl⟩)
  | some s =>
    obtain ⟨kind, -, h⟩ := Option.bind_eq_some_iff.mp h
    exact (M.meaning?_cases h).imp_right Or.inl

theorem text?_read (t : Tree) : (M.read t).text? = t.text? := by
  cases t with
  | scalar a => cases a <;> rfl
  | list ts => rfl
  | object tag fs =>
    rcases M.cases_of_object tag fs with ⟨a, h⟩ | ⟨p, h⟩ | ⟨ss, h⟩ <;> rw [h] <;> rfl

theorem isNull_read (t : Tree) : (M.read t).isNull = t.isNull := by
  cases t with
  | scalar a => cases a <;> rfl
  | list ts => rfl
  | object tag fs =>
    rcases M.cases_of_object tag fs with ⟨a, h⟩ | ⟨p, h⟩ | ⟨ss, h⟩ <;> rw [h] <;> rfl

theorem items_read (t : Tree) : (M.read t).items = t.items.map M.read := by
  cases t with
  | scalar a => rfl
  | list ts => exact M.readItems_eq ts
  | object tag fs =>
    rcases M.cases_of_object tag fs with ⟨a, h⟩ | ⟨p, h⟩ | ⟨ss, h⟩ <;> rw [h] <;> rfl

theorem read_object (tag : Nat) (fs : Fields) : M.read (.object tag fs) =
    ((Tree.object tag fs).kind?.bind fun kind =>
      M.meaning? kind fun key => M.read ((Tree.object tag fs).get key)).getD
        (.atom (M.readFields fs)) := by
  rw [read]
  simp only [M.part_readFields tag fs, text?_read]
  rfl

theorem read_untagged (t : Tree) : M.read t.untagged = M.read t := by
  induction t with
  | scalar a => rfl
  | list ts ih =>
    rw [Tree.untagged, Tree.untaggedItems_eq, read, read, readItems_eq, readItems_eq, List.map_map]
    exact congrArg Sense.list (List.map_congr_left ih)
  | object tag fs ih =>
    have hfields : M.readFields (Tree.untaggedFields fs) = M.readFields fs := by
      rw [Tree.untaggedFields_eq, readFields_eq, readFields_eq, List.map_map]
      refine List.map_congr_left fun f hf => ?_
      exact congrArg (Prod.mk f.1) (ih f hf)
    rw [Tree.untagged, read, read, hfields]

theorem read_congr {t u : Tree} (ht : t.isNode = true) (hu : u.isNode = true)
    (htd : t.distinct = true) (hud : u.distinct = true)
    (hnames : u.fields.map (·.1) = t.fields.map (·.1))
    (hget : ∀ key, M.read (u.get key) = M.read (t.get key)) : M.read u = M.read t := by
  have hfields : ∀ t : Tree, t.distinct = true → M.readFields t.fields =
      (t.fields.map (·.1)).map fun key => (key, M.read (t.get key)) := by
    intro t hd
    rw [readFields_eq, List.map_map]
    refine List.map_congr_left fun f hf => ?_
    rw [Function.comp_apply, Tree.get_of_mem hd hf]
  have hsame : M.readFields u.fields = M.readFields t.fields := by
    rw [hfields u hud, hfields t htd, hnames]
    simp only [hget]
  have hkind : u.kind? = t.kind? := by
    rw [Tree.kind?, ← M.text?_read, hget, text?_read, Tree.kind?]
  obtain ⟨m, fs, rfl⟩ := Tree.eq_object_of_isNode ht
  obtain ⟨n, gs, rfl⟩ := Tree.eq_object_of_isNode hu
  rw [Tree.fields, Tree.fields] at hsame
  rw [read_object, read_object, hkind, hsame]
  simp only [hget]

/-! ### Nodes of each kind -/

section

variable {t : Tree}

theorem read_of_kind? {kind : String} (hk : t.kind? = some kind) {s : Sense σ ν}
    (h : M.meaning? kind (fun key => M.read (t.get key)) = some s) : M.read t = s := by
  cases t with
  | scalar _ => cases hk
  | list _ => cases hk
  | object tag fs => rw [read_object, hk, Option.bind_some, h, Option.getD_some]

theorem read_literal {a : Scalar} (hk : t.kind? = some "Literal") (hv : t.get "value" = .scalar a)
    (ha : ∀ pattern flags, a ≠ .regex pattern flags) :
    M.read t = .expression (pure (M.literal a)) := by
  have hread : M.read (t.get "value") = .scalar a := by rw [hv, read]
  apply M.read_of_kind? hk
  rw [meaning?, expression?, hread]
  cases a with
  | regex pattern flags => exact absurd rfl (ha pattern flags)
  | _ => rfl

theorem read_undefined (hk : t.kind? = some "Identifier") (hn : (t.get "name").text? = some "undefined") :
    M.read t = .expression (pure M.undefined) := by
  apply M.read_of_kind? hk
  rw [meaning?, expression?, text?_read, hn]
  rfl

theorem read_not (hk : t.kind? = some "UnaryExpression") (ho : (t.get "operator").text? = some "!") :
    M.read t = .expression
      ((fun b => M.literal (.bool !b)) <$> M.test (M.read (t.get "argument"))) := by
  apply M.read_of_kind? hk
  rw [meaning?, expression?, text?_read, ho]
  rfl

theorem read_void (hk : t.kind? = some "UnaryExpression")
    (ho : (t.get "operator").text? = some "void") :
    M.read t = .expression ((fun _ => M.undefined) <$> M.eval (M.read (t.get "argument"))) := by
  apply M.read_of_kind? hk
  rw [meaning?, expression?, text?_read, ho]
  rfl

theorem read_and (hk : t.kind? = some "LogicalExpression") (ho : (t.get "operator").text? = some "&&") :
    M.read t =
      .expression (M.shortCircuit false (M.read (t.get "left")) (M.read (t.get "right"))) := by
  apply M.read_of_kind? hk
  rw [meaning?, expression?, text?_read, ho]
  rfl

theorem read_or (hk : t.kind? = some "LogicalExpression") (ho : (t.get "operator").text? = some "||") :
    M.read t = .expression (M.shortCircuit true (M.read (t.get "left")) (M.read (t.get "right"))) := by
  apply M.read_of_kind? hk
  rw [meaning?, expression?, text?_read, ho]
  rfl

theorem read_conditional (hk : t.kind? = some "ConditionalExpression") :
    M.read t = .expression (M.choose (M.read (t.get "test")) (M.read (t.get "consequent"))
      (M.read (t.get "alternate"))) :=
  M.read_of_kind? hk rfl

theorem read_sequence (hk : t.kind? = some "SequenceExpression") :
    M.read t = .expression (M.evalAll ((t.get "expressions").items.map M.read)) := by
  rw [← items_read]
  exact M.read_of_kind? hk rfl

theorem read_expressionStatement (hk : t.kind? = some "ExpressionStatement") :
    M.read t = .statement (effect (M.eval (M.read (t.get "expression")))) :=
  M.read_of_kind? hk rfl

theorem read_return (hk : t.kind? = some "ReturnStatement") :
    M.read t = .statement (M.return_ (M.read (t.get "argument"))) :=
  M.read_of_kind? hk rfl

theorem read_declaration (hk : t.kind? = some "VariableDeclaration") {kind : String}
    (hkind : (t.get "kind").text? = some kind) : M.read t = .statement (sequence
      ((t.get "declarations").items.map fun d => M.declareOne kind (M.read d))) := by
  have h : M.read t = .statement (sequence ((M.read (t.get "declarations")).items.map
      (M.declareOne ((M.read (t.get "kind")).text?.getD "")))) := M.read_of_kind? hk rfl
  rw [h, text?_read, hkind, items_read, List.map_map]
  rfl

theorem read_if (hk : t.kind? = some "IfStatement") :
    M.read t = .statement (branch (M.test (M.read (t.get "test")))
      (M.exec (M.read (t.get "consequent"))) (M.exec (M.read (t.get "alternate")))) :=
  M.read_of_kind? hk rfl

theorem read_statements (hk : t.kind? = some "Program" ∨ t.kind? = some "BlockStatement") :
    M.read t = .statement (M.execAll ((t.get "body").items.map M.read)) := by
  rw [← items_read]
  rcases hk with hk | hk <;> exact M.read_of_kind? hk rfl

theorem read_while (hk : t.kind? = some "WhileStatement") :
    M.read t = .statement (Loop (M.test (M.read (t.get "test"))) (M.exec (M.read (t.get "body")))) :=
  M.read_of_kind? hk rfl

theorem read_doWhile (hk : t.kind? = some "DoWhileStatement") :
    M.read t = .statement (andThen (M.exec (M.read (t.get "body")))
      (Loop (M.test (M.read (t.get "test"))) (M.exec (M.read (t.get "body"))))) :=
  M.read_of_kind? hk rfl

theorem read_for (hk : t.kind? = some "ForStatement") :
    M.read t = .statement (andThen (M.exec (M.read (t.get "init")))
      (Loop (M.goesOn (M.read (t.get "test")))
        (andThen (M.exec (M.read (t.get "body"))) (M.exec (M.read (t.get "update")))))) :=
  M.read_of_kind? hk rfl

end

/-! ### Expressions as statements -/

theorem effect_bind {α β : Type} (a : Action σ ν α) (f : α → Action σ ν β) :
    effect (a >>= f) = after a fun v => effect (f v) :=
  after_bind a f _

theorem branch_test (s : Sense σ ν) (p q : Behaviour σ ν) :
    branch (M.test s) p q = after (M.eval s) fun v => if M.truthy v then p else q := by
  rw [branch, test, after_map]

theorem effect_shortCircuit (stop : Bool) (s u : Sense σ ν) :
    effect (M.shortCircuit stop s u) = branch (M.test s)
      (if stop then skip else effect (M.eval u)) (if stop then effect (M.eval u) else skip) := by
  rw [shortCircuit, effect_bind, branch_test]
  congr 1
  funext v
  cases stop <;> cases M.truthy v <;> rfl

theorem after_choose (s yes no : Sense σ ν) (k : ν → Behaviour σ ν) :
    after (M.choose s yes no) k =
      branch (M.test s) (after (M.eval yes) k) (after (M.eval no) k) := by
  rw [choose, after_bind, branch]
  congr 1
  funext b
  cases b <;> rfl

theorem after_evalAll (s u : Sense σ ν) (ss : List (Sense σ ν)) (k : ν → Behaviour σ ν) :
    after (M.evalAll (s :: u :: ss)) k =
      andThen (effect (M.eval s)) (after (M.evalAll (u :: ss)) k) := by
  rw [evalAll, after_bind, effect_andThen]
  nofun

theorem test_not (s : Sense σ ν) :
    M.test (.expression ((fun b => M.literal (.bool !b)) <$> M.test s)) = (!·) <$> M.test s := by
  rw [test, eval, Functor.map_map]
  congr 1
  funext b
  exact M.truthy_literal _

theorem return_of_not_null {s : Sense σ ν} (h : s.isNull = false) :
    M.return_ s = after (M.eval s) returns := by
  rw [return_, h]
  rfl

end Setting

end Legible
