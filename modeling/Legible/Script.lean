import Legible.Parser
import Legible.Script.Statement

namespace Legible.Script

/-- The grammar, nonterminals nested at most `fuel` deep. -/
def grammar : Nat → Grammar
  | 0 => ⟨0, fun _ => failure, fun _ => failure, fun _ => failure, fun _ => failure,
      fun _ => failure, fun _ _ => failure, fun _ => failure, fun _ => failure⟩
  | fuel + 1 =>
    { fuel := fuel
      assignment := fun c s => assignment (grammar fuel) c s
      power := fun c s => power (grammar fuel) c s
      unary := fun c s => unary (grammar fuel) c s
      member := fun c s => chain (grammar fuel) c false s
      call := fun c s => chain (grammar fuel) c true s
      binding := fun c b s => binding (grammar fuel) c b s
      statement := fun c s => statement (grammar fuel) c s
      item := fun c s => statementItem (grammar fuel) c s }

def program (g : Grammar) : Read Tree := do
  let start ← directives g {}
  let rest ← Read.repeatStep (fun acc => do
    if (← Read.token) == .done then return .inr acc.reverse
    return .inl ((← g.item {}) :: acc)) g.fuel []
  return Form.program (start ++ rest)

/-- The program that a script spells. Every nesting and every list item takes a character, so the
length of the script bounds both. -/
def parse? (source : String) : Option Tree := do
  let cs := source.toList
  let start ← Reader.ofText? cs
  let (t, _) ← (program (grammar (4 * (cs.length + 4)))).run start
  return t

def parse : Parser := fun source =>
  match parse? source with
  | some t => .ok t
  | none => .error ""

end Legible.Script
