import Legible.Number

/-!
Syntax trees: scalars, lists, and objects with named fields. An object with a `type` field is a
node. Reading a field that an object does not have gives null.
-/

namespace Legible

inductive Scalar where
  | null
  | bool (value : Bool)
  | number (value : Number)
  | text (value : String)
  | regex (pattern flags : String)
deriving DecidableEq, Inhabited

def Scalar.same : Scalar → Scalar → Bool
  | .number a, .number b => a.same b
  | a, b => a == b

/-- Field names in an object are distinct. The tag tells occurrences of equal objects apart; zero
stands for an object that has not been numbered. -/
inductive Tree where
  | scalar (value : Scalar)
  | list (items : List Tree)
  | object (tag : Nat) (fields : List (String × Tree))

abbrev Fields := List (String × Tree)

namespace Tree

instance : Inhabited Tree := ⟨.scalar .null⟩

abbrev null : Tree := .scalar .null
abbrev text (s : String) : Tree := .scalar (.text s)
abbrev bool (b : Bool) : Tree := .scalar (.bool b)
abbrev number (n : Number) : Tree := .scalar (.number n)

def fields : Tree → Fields
  | .object _ fs => fs
  | _ => []

def tag : Tree → Nat
  | .object tag _ => tag
  | _ => 0

def field? (key : String) (t : Tree) : Option Tree :=
  t.fields.lookup key

def get (key : String) (t : Tree) : Tree :=
  (t.field? key).getD null

def isNull : Tree → Bool
  | .scalar .null => true
  | _ => false

def text? : Tree → Option String
  | .scalar (.text s) => some s
  | _ => none

def items : Tree → List Tree
  | .list ts => ts
  | _ => []

def isNode (t : Tree) : Bool :=
  (t.field? "type").isSome

def kind? (t : Tree) : Option String :=
  (t.get "type").text?

def kind (t : Tree) : String :=
  t.kind?.getD ""

def isKind (t : Tree) (kind : String) : Bool :=
  t.kind? == some kind

def name (t : Tree) : String :=
  ((t.get "name").text?).getD ""

def flag (key : String) (t : Tree) : Bool :=
  match t.get key with
  | .scalar (.bool b) => b
  | _ => false

end Tree

namespace Fields

def set (key : String) (value : Tree) : Fields → Fields
  | [] => [(key, value)]
  | (k, v) :: rest => if k = key then (k, value) :: rest else (k, v) :: set key value rest

def erase (key : String) (fs : Fields) : Fields :=
  fs.filter fun f => f.1 != key

theorem lookup_set (key : String) (value : Tree) (fs : Fields) :
    (set key value fs).lookup key = some value := by
  induction fs with
  | nil => simp [set]
  | cons f fs ih =>
    obtain ⟨k, v⟩ := f
    by_cases h : k = key
    · simp [set, h]
    · have h' : (key == k) = false := by simp [Ne.symm h]
      simp [set, h, List.lookup_cons, h', ih]

theorem lookup_set_of_ne {key other : String} (h : other ≠ key) (value : Tree) (fs : Fields) :
    (set key value fs).lookup other = fs.lookup other := by
  induction fs with
  | nil =>
    have h' : (other == key) = false := by simp [h]
    simp [set, List.lookup_cons, h']
  | cons f fs ih =>
    obtain ⟨k, v⟩ := f
    by_cases hk : k = key
    · have h' : (other == key) = false := by simp [h]
      simp [set, hk, List.lookup_cons, h']
    · by_cases ho : other = k
      · simp [set, hk, ho]
      · have h' : (other == k) = false := by simp [ho]
        simp [set, hk, List.lookup_cons, h', ih]

end Fields

namespace Tree

def set (t : Tree) (key : String) (value : Tree) : Tree :=
  match t with
  | .object tag fs => .object tag (Fields.set key value fs)
  | t => t

def erase (t : Tree) (key : String) : Tree :=
  match t with
  | .object tag fs => .object tag (Fields.erase key fs)
  | t => t

def node (kind : String) (fs : Fields) : Tree :=
  .object 0 (("type", text kind) :: fs)

end Tree

end Legible
