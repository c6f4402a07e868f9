/-!
Chains of plugins: those with lower priority run first, and among equals those added first.
-/

namespace Legible

structure Plugin (σ ε : Type) where
  name : String
  priority : Int
  isEnabled : σ → Bool
  process : σ → Except ε σ

abbrev Chain (σ ε : Type) := List (Plugin σ ε)

namespace Chain

variable {σ ε : Type}

def byPriority (ps : List (Plugin σ ε)) : Chain σ ε :=
  ps.mergeSort fun p q => p.priority ≤ q.priority

def add (c : Chain σ ε) (p : Plugin σ ε) : Chain σ ε :=
  byPriority (c ++ [p])

def remove (c : Chain σ ε) (name : String) : Chain σ ε :=
  c.filter (·.name != name)

/-- The plugins of both chains; of equal ones those of the first chain run first. -/
def union (c d : Chain σ ε) : Chain σ ε :=
  byPriority (c ++ d)

def run (c : Chain σ ε) (s : σ) : Except ε σ :=
  c.foldlM (fun s p => if p.isEnabled s then p.process s else .ok s) s

end Chain

end Legible
